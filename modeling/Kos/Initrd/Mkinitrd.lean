import Mathlib.Logic.Function.Basic
import Kos.Lib.Entries
import Kos.Initrd.Format

/-!
# The program that makes an initrd

`share/src/mkinitrd/initrd.c`: calls describe a tree of directories and files, which is kept as entries in the program's memory, and
`id_write` writes the image. The log that it writes as well, and what it prints, are left out.
-/

namespace Kos

variable {π : Type}

/-- `struct entry`; a directory has no path. -/
structure BuildEntry (π : Type) where
  name : List UInt8
  path : Option π
  count : Nat
  files : Option Nat
  pdir : Option Nat
  next : Option Nat
  lastEntry : Option Nat

/-- The state of the program: its memory, in which the entries from `fresh` on are not allocated yet and have any content. -/
structure Builder (π : Type) where
  entries : Nat → BuildEntry π
  fresh : Nat
  curDir : Option Nat
  curEntry : Option Nat
  root : Option Nat
  entryCount : Nat

/-- `id_init`, in a memory with any content. -/
def idInit (memory : Nat → BuildEntry π) : Builder π where
  entries := memory
  fresh := 0
  curDir := none
  curEntry := none
  root := none
  entryCount := 0

def Builder.set (b : Builder π) (a : Nat) (f : BuildEntry π → BuildEntry π) : Builder π :=
  { b with entries := Function.update b.entries a (f (b.entries a)) }

/-- `add_entry`, for the current directory `d`. -/
def addEntry (b : Builder π) (d e : Nat) : Builder π :=
  let b := b.set d fun dir => { dir with files := if dir.files.isNone then some e else dir.files }
  let b := b.set e ({ · with next := none })
  let b := b.set d fun dir => { dir with count := dir.count + 1 }
  let b :=
    match b.curEntry with
    | some c => b.set c ({ · with next := some e })
    | none => b
  let b := b.set d ({ · with lastEntry := some e })
  { b with entryCount := b.entryCount + 1 }

def idStartDir (b : Builder π) (name : List UInt8) : Builder π :=
  let dir := b.fresh
  let b := { b with fresh := b.fresh + 1 }.set dir fun e =>
    { e with name := name, path := none, files := none, pdir := b.curDir, count := 0, next := none }
  let b :=
    match b.curDir with
    | some d => addEntry b d dir
    | none => { b with root := some dir }
  { b with curDir := some dir, curEntry := none }

/-- `id_add_file`, which follows a null pointer when there is no current directory. -/
def idAddFile (b : Builder π) (name : List UInt8) (path : π) : Option (Builder π) :=
  let file := b.fresh
  let b := { b with fresh := b.fresh + 1 }.set file fun e =>
    { e with name := name, path := some path, files := none, pdir := none, lastEntry := none }
  b.curDir.map fun d => { addEntry b d file with curEntry := some file }

/-- `id_end_dir`, which follows a null pointer when there is no current directory. -/
def idEndDir (b : Builder π) : Option (Builder π) :=
  b.curDir.map fun d =>
    let b := { b with curDir := (b.entries d).pdir }
    match b.curDir with
    | some d => { b with curEntry := (b.entries d).lastEntry }
    | none => b

/-- The calls that describe a tree. -/
inductive BuildCall (π : Type) where
  | startDir (name : List UInt8)
  | addFile (name : List UInt8) (path : π)
  | endDir
  deriving DecidableEq, Repr

def BuildCall.exec (b : Builder π) : BuildCall π → Option (Builder π)
  | .startDir name => some (idStartDir b name)
  | .addFile name path => idAddFile b name path
  | .endDir => idEndDir b

def Builder.run (b : Builder π) (calls : List (BuildCall π)) : Option (Builder π) := calls.foldlM BuildCall.exec b

/-! ## Writing -/

/-- A file that is open for writing: its bytes, and the position. -/
structure OutFile where
  data : List UInt8
  pos : Nat
  deriving DecidableEq, Repr

def OutFile.fwrite (out : OutFile) (bs : List UInt8) : OutFile :=
  ⟨out.data.take out.pos ++ bs ++ out.data.drop (out.pos + bs.length), out.pos + bs.length⟩

def OutFile.fseek (out : OutFile) (pos : Nat) : OutFile := { out with pos := pos }

/-- The files that the paths name: what `file_size` says of them, and the bytes that `fread` finds in them. -/
structure HostFiles (π : Type) where
  size : π → Nat
  data : π → List UInt8

/-- The characters of a name, up to a NUL. -/
def cstr (name : List UInt8) : List UInt8 := name.takeWhile (· ≠ 0)

/-- The buffer of `count` bytes after `fread`: what the file does not fill has any content. -/
def HostFiles.read (host : HostFiles π) (path : π) (junk : Nat → UInt8) (count : Nat) : List UInt8 :=
  (List.range count).map fun i => (host.data path).getD i (junk i)

section

variable (host : HostFiles π) (junk : Nat → UInt8)

/-- `write_file`, for a file with this path: the new offset, and the image. -/
def writeFile (file : BuildEntry π) (path : π) (out : OutFile) (offset : Nat) : Nat × OutFile :=
  let count := host.size path
  let namelen := (cstr file.name).length + 1
  let namepos := offset + idEntrySize
  let datapos := namepos + namelen
  let newoffs := datapos + count
  let out := out.fwrite (IdEntry.encode ⟨idTypeFile, namepos, count, datapos, if file.next.isSome then newoffs else 0⟩)
  let out := out.fwrite (cstr file.name ++ [0])
  (newoffs, out.fwrite (host.read path junk count))

/-- The first part of `write_dir`, up to the loop: the offset of the first entry, the position of `next`, and the image. -/
def writeDirHead (dir : BuildEntry π) (out : OutFile) (offset : Nat) : Nat × Nat × OutFile :=
  let namelen := (cstr dir.name).length + 1
  let namepos := offset + idEntrySize
  let datapos := namepos + namelen
  let out := out.fwrite (IdEntry.encode ⟨idTypeDir, namepos, dir.count, datapos, 0⟩)
  (datapos, out.pos - 4, out.fwrite (cstr dir.name ++ [0]))

/-- The last part of `write_dir`: the offset of the next entry is put in its place. -/
def writeDirNext (dir : BuildEntry π) (out : OutFile) (nextPos offs : Nat) : OutFile :=
  if dir.next.isSome then ((out.fseek nextPos).fwrite (le32 offs)).fseek out.pos else out

mutual

/-- `write_dir`: the new offset and the image, if it ends within the given number of rounds. -/
def writeDir (b : Builder π) : Nat → Nat → OutFile → Nat → Option (Nat × OutFile)
  | 0, _, _, _ => none
  | fuel + 1, dir, out, offset => do
    let (datapos, nextPos, out) := writeDirHead (b.entries dir) out offset
    let (offs, out) ← writeEntries b fuel (b.entries dir).files out datapos
    some (offs, writeDirNext (b.entries dir) out nextPos offs)

/-- The loop of `write_dir`, from an entry on. -/
def writeEntries (b : Builder π) : Nat → Option Nat → OutFile → Nat → Option (Nat × OutFile)
  | 0, _, _, _ => none
  | _ + 1, none, out, offs => some (offs, out)
  | fuel + 1, some cur, out, offs =>
    match (b.entries cur).path with
    | some path =>
      let (offs, out) := writeFile host junk (b.entries cur) path out offs
      writeEntries b fuel (b.entries cur).next out offs
    | none => do
      let (offs, out) ← writeDir b fuel cur out offs
      writeEntries b fuel (b.entries cur).next out offs

end

/-- `id_write`: the image. -/
def idWrite (b : Builder π) (fuel : Nat) : Option (List UInt8) := do
  let out := OutFile.fwrite ⟨[], 0⟩ idHeader
  let root ← b.root
  let (_, out) ← writeDir host junk b fuel root out idHeader.length
  some out.data

end

end Kos
