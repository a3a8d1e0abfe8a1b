import Kos.Lib.Entries
import Kos.Initrd.Format

/-!
# What the image of a tree is

The bytes of a tree, stated without the program that writes them: each entry is followed by its name and by its content, and the
next entry of the same directory comes behind that. The program that makes an initrd writes these bytes, and the kernel finds the
tree in them (`Lemmas/Initrd.lean`).
-/

namespace Kos

/-- A tree with the bytes of its files: files with names and content, directories with names. -/
abbrev DiskTree := Entries (List UInt8 × List UInt8) (List UInt8)

/-- The number of bytes that an entry and its name take. -/
def headSize (name : List UInt8) : Nat := idEntrySize + (name.length + 1)

namespace Entries

/-- The number of bytes of the entries of a directory. -/
def size : DiskTree → Nat
  | nil => 0
  | file (name, data) rest => headSize name + data.length + rest.size
  | dir name inner rest => headSize name + inner.size + rest.size

/-- The offset by which the first of these entries is named when it lies at `off`: 0 when there is none. -/
def offset {φ δ : Type*} (t : Entries φ δ) (off : Nat) : Nat :=
  match t with
  | nil => 0
  | file _ _ => off
  | dir _ _ _ => off

/-- The bytes of the entries of a directory, which lie at the offset `off`. -/
def layout : Nat → DiskTree → List UInt8
  | _, nil => []
  | off, file (name, data) rest =>
    let datapos := off + headSize name
    let next := datapos + data.length
    IdEntry.encode ⟨idTypeFile, off + idEntrySize, data.length, datapos, rest.offset next⟩ ++ (name ++ [0]) ++ data ++
      layout next rest
  | off, dir name inner rest =>
    let datapos := off + headSize name
    let next := datapos + inner.size
    IdEntry.encode ⟨idTypeDir, off + idEntrySize, inner.length, datapos, rest.offset next⟩ ++ (name ++ [0]) ++
      layout datapos inner ++ layout next rest

@[simp] theorem length_encode (e : IdEntry) : e.encode.length = idEntrySize := rfl

@[simp] theorem length_layout (off : Nat) (t : DiskTree) : (layout off t).length = t.size := by
  induction t generalizing off with
  | nil => rfl
  | file f rest ih =>
    obtain ⟨name, data⟩ := f
    simp only [layout, size, headSize, List.length_append, length_encode, List.length_cons, List.length_nil, ih]
  | dir name inner rest ih₁ ih₂ =>
    simp only [layout, size, headSize, List.length_append, length_encode, List.length_cons, List.length_nil, ih₁, ih₂]

/-- A directory has no more entries than its entries have bytes. -/
theorem length_le_size (t : DiskTree) : t.length ≤ t.size := by
  induction t with
  | nil => exact Nat.le_refl _
  | file f rest ih =>
    simp only [length, size, headSize]
    omega
  | dir name inner rest _ ih =>
    simp only [length, size, headSize]
    omega

end Entries

/-- The image of a tree whose root directory has this name. -/
def imageOf (name : List UInt8) (t : DiskTree) : List UInt8 :=
  idHeader ++ Entries.layout idHeader.length (.dir name t .nil)

end Kos
