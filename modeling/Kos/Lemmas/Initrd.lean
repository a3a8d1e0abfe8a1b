import Mathlib.Data.List.TakeWhile
import Kos.Initrd.Chkid
import Kos.Initrd.Layout
import Kos.Lemmas.Mkinitrd

/-!
# The image between the two programs

The program that makes an initrd writes the layout of the tree that it was given (`idWrite_image`), and the kernel finds in the
layout of a tree an inode for each of its entries, in the same order (`parseDir_image`).
-/

namespace Kos

variable {π : Type}

/-- The content of a tree's files on the host. -/
def Entries.onDisk (host : HostFiles π) (t : PathTree π) : DiskTree := t.mapFiles fun f => (f.1, host.data f.2)

/-- No name has a NUL byte, and for each file the host says the length of what it has. -/
def Entries.Writable (host : HostFiles π) (t : PathTree π) : Prop :=
  t.All (fun f => (0 : UInt8) ∉ f.1 ∧ host.size f.2 = (host.data f.2).length) fun name => (0 : UInt8) ∉ name

namespace InitrdAux

/-- A file whose position is its end. -/
def atEnd (data : List UInt8) : OutFile := ⟨data, data.length⟩

theorem fwrite_atEnd (data bs : List UInt8) : (atEnd data).fwrite bs = atEnd (data ++ bs) := by
  simp [atEnd, OutFile.fwrite]

theorem cstr_eq {name : List UInt8} (h : (0 : UInt8) ∉ name) : cstr name = name := by
  rw [cstr, List.takeWhile_eq_self_iff]
  intro x hx
  simp only [ne_eq, decide_not, Bool.not_eq_true', decide_eq_false_iff_not]
  rintro rfl
  exact h hx

theorem read_eq (host : HostFiles π) (junk : Nat → UInt8) (path : π) :
    host.read path junk (host.data path).length = host.data path := by
  refine List.ext_getElem (by simp [HostFiles.read]) fun i hi hi' => ?_
  simp [HostFiles.read, hi']

/-- The pointer to the next entry says whether there is one. -/
theorem offset_onDisk {m : Nat → BuildEntry π} {lo hi : Nat} {p : Option Nat} {t : PathTree π} (h : Built m lo hi p t)
    (host : HostFiles π) (off : Nat) : (t.onDisk host).offset off = if p.isSome then off else 0 := by
  cases t with
  | nil =>
    rw [show p = none from h]
    rfl
  | file f rest =>
    obtain ⟨a, rfl, -⟩ := h
    rfl
  | dir d inner rest =>
    obtain ⟨a, rfl, -⟩ := h
    rfl

/-- `write_file` appends the entry, the name and the content. -/
theorem writeFile_atEnd (host : HostFiles π) (junk : Nat → UInt8) {e : BuildEntry π} {path : π} (hname : (0 : UInt8) ∉ e.name)
    (hsize : host.size path = (host.data path).length) (data : List UInt8) :
    writeFile host junk e path (atEnd data) data.length =
      (data.length + headSize e.name + (host.data path).length,
        atEnd (data ++ (IdEntry.encode ⟨idTypeFile, data.length + idEntrySize, (host.data path).length,
          data.length + headSize e.name,
          if e.next.isSome then data.length + headSize e.name + (host.data path).length else 0⟩ ++ (e.name ++ [0]) ++
            host.data path))) := by
  simp only [writeFile, fwrite_atEnd, cstr_eq hname, hsize, read_eq, headSize, List.append_assoc, Nat.add_assoc]

/-- Bytes in the middle of a file are replaced. -/
theorem fwrite_middle (x old y bs : List UInt8) (h : bs.length = old.length) (pos : Nat) (hpos : pos = x.length) :
    OutFile.fwrite ⟨x ++ old ++ y, pos⟩ bs = ⟨x ++ bs ++ y, x.length + bs.length⟩ := by
  subst hpos
  simp [OutFile.fwrite, h, ← List.drop_drop]

/-- The offset of the next entry is filled in. -/
theorem writeDirNext_atEnd (e : BuildEntry π) (data tail : List UInt8) (h : IdEntry) (hn : h.next = 0) (offs : Nat) :
    writeDirNext e (atEnd (data ++ h.encode ++ tail)) (data.length + 16) offs =
      atEnd (data ++ IdEntry.encode { h with next := if e.next.isSome then offs else 0 } ++ tail) := by
  unfold writeDirNext
  split
  · generalize hp : le32 h.type ++ (le32 h.name ++ (le32 h.count ++ le32 h.content)) = p
    have hlen : p.length = 16 := by rw [← hp]; rfl
    have henc : ∀ n, IdEntry.encode { h with next := n } = p ++ le32 n := by
      intro n
      simp only [← hp, IdEntry.encode, List.append_assoc]
    have hold : h.encode = p ++ le32 h.next := henc h.next
    have hmid := fwrite_middle (data ++ p) (le32 h.next) tail (le32 offs) rfl (data.length + 16) (by simp [hlen])
    simp only [OutFile.fseek, atEnd, hold, henc, ← List.append_assoc] at hmid ⊢
    rw [hmid]
    simp
  · rw [show ({ h with next := 0 } : IdEntry) = h by rw [← hn]]

end InitrdAux

open InitrdAux

section

variable (host : HostFiles π) (junk : Nat → UInt8) (b : Builder π)

/-- `write_dir` appends the entry, the name and the entries of the directory, if its loop appends these. -/
theorem writeDir_layout {a n : Nat} {t : DiskTree} (hname : (0 : UInt8) ∉ (b.entries a).name) (hcount : (b.entries a).count = t.length)
    (hloop : ∀ data, writeEntries host junk b n (b.entries a).files (atEnd data) data.length =
      some (data.length + t.size, atEnd (data ++ t.layout data.length))) (data : List UInt8) :
    writeDir host junk b (n + 1) a (atEnd data) data.length =
      some (data.length + headSize (b.entries a).name + t.size,
        atEnd (data ++ (IdEntry.encode ⟨idTypeDir, data.length + idEntrySize, t.length, data.length + headSize (b.entries a).name,
          if (b.entries a).next.isSome then data.length + headSize (b.entries a).name + t.size else 0⟩ ++
            ((b.entries a).name ++ [0]) ++ t.layout (data.length + headSize (b.entries a).name)))) := by
  generalize hh : (⟨idTypeDir, data.length + idEntrySize, t.length, data.length + headSize (b.entries a).name, 0⟩ : IdEntry) = h
  have hpos : (atEnd (data ++ h.encode)).pos - 4 = data.length + 16 := by
    simp [atEnd, idEntrySize]
  have hlen : (data ++ h.encode ++ ((b.entries a).name ++ [0])).length = data.length + headSize (b.entries a).name := by
    simp [headSize]
  have hhead : writeDirHead (b.entries a) (atEnd data) data.length =
      (data.length + headSize (b.entries a).name, data.length + 16, atEnd (data ++ h.encode ++ ((b.entries a).name ++ [0]))) := by
    rw [← hpos, ← hh]
    simp only [writeDirHead, fwrite_atEnd, cstr_eq hname, hcount, headSize, Nat.add_assoc]
  have hl := hloop (data ++ h.encode ++ ((b.entries a).name ++ [0]))
  rw [hlen] at hl
  simp only [writeDir, hhead, hl, Option.bind_eq_bind, Option.bind_some]
  rw [List.append_assoc (data ++ _), writeDirNext_atEnd _ _ _ _ (by rw [← hh]), ← hh]
  simp only [List.append_assoc]

/-- An entry was appended, and the rest of the entries behind it. -/
theorem appended_rest {whole rest : DiskTree} {data x : List UInt8} (h : whole.layout data.length = x ++ rest.layout (data ++ x).length) :
    some ((data ++ x).length + rest.size, atEnd (data ++ x ++ rest.layout (data ++ x).length)) =
      some (data.length + whole.size, atEnd (data ++ whole.layout data.length)) := by
  have hsize := congrArg List.length h
  rw [Entries.length_layout, List.length_append, Entries.length_layout] at hsize
  rw [hsize, h, List.append_assoc, List.length_append, Nat.add_assoc]

/-- The loop of `write_dir` appends the layout of the entries. -/
theorem writeEntries_layout {lo hi : Nat} {p : Option Nat} {t : PathTree π} (h : Built b.entries lo hi p t)
    (hw : t.Writable host) {fuel : Nat} (hf : t.rounds ≤ fuel) (data : List UInt8) :
    writeEntries host junk b fuel p (atEnd data) data.length =
      some (data.length + (t.onDisk host).size, atEnd (data ++ (t.onDisk host).layout data.length)) := by
  induction t generalizing p fuel data with
  | nil =>
    obtain ⟨n, rfl⟩ := Nat.exists_eq_succ_of_ne_zero (Nat.ne_of_gt hf)
    rw [show p = none from h]
    simp [writeEntries, Entries.onDisk, Entries.mapFiles, Entries.size, Entries.layout]
  | file f rest ih =>
    obtain ⟨name, path⟩ := f
    obtain ⟨a, rfl, -, -, rfl, hpath, hrest⟩ := h
    obtain ⟨⟨hname, hsize⟩, hw⟩ := hw
    obtain ⟨n, rfl, hn⟩ := Entries.rounds_file_le hf
    simp only [writeEntries, hpath]
    rw [writeFile_atEnd host junk hname hsize, ← offset_onDisk hrest host]
    generalize hx : IdEntry.encode _ ++ _ ++ _ = x
    have hlen : data.length + headSize (b.entries a).name + (host.data path).length = (data ++ x).length := by
      simp only [← hx, headSize, List.length_append, Entries.length_encode, List.length_cons, List.length_nil]
      omega
    have hlay : ((Entries.file ((b.entries a).name, path) rest).onDisk host).layout data.length =
        x ++ (rest.onDisk host).layout (data ++ x).length := by
      rw [← hlen, ← hx]
      rfl
    rw [hlen, ih hrest hw hn (data ++ x)]
    exact appended_rest hlay
  | dir name inner rest ih₁ ih₂ =>
    obtain ⟨a, rfl, -, -, rfl, hpath, hcount, hinner, hrest⟩ := h
    obtain ⟨hname, hw₁, hw₂⟩ := hw
    obtain ⟨n, rfl, hn⟩ := Entries.rounds_dir_le hf
    simp only [writeEntries, hpath]
    have hdir := writeDir_layout (t := inner.onDisk host) host junk b hname (by simpa [Entries.onDisk] using hcount)
      (fun data => ih₁ hinner hw₁ hn.1 data) data
    rw [hdir, Option.bind_eq_bind, Option.bind_some, ← offset_onDisk hrest host]
    generalize hx : IdEntry.encode _ ++ _ ++ _ = x
    have hlen : data.length + headSize (b.entries a).name + (inner.onDisk host).size = (data ++ x).length := by
      simp only [← hx, headSize, List.length_append, Entries.length_encode, List.length_cons, List.length_nil, Entries.length_layout]
      omega
    have hlay : ((Entries.dir (b.entries a).name inner rest).onDisk host).layout data.length =
        x ++ (rest.onDisk host).layout (data ++ x).length := by
      rw [← hlen, ← hx]
      rfl
    simp only [hlen]
    rw [ih₂ hrest hw₂ hn.2 (data ++ x)]
    exact appended_rest hlay

/-- `id_write` writes the image of the tree that was built. -/
theorem idWrite_image {r lo hi fuel : Nat} {t : PathTree π} (hroot : b.root = some r) (hname : (0 : UInt8) ∉ (b.entries r).name)
    (hcount : (b.entries r).count = t.length) (hnext : (b.entries r).next = none)
    (hbuilt : Built b.entries lo hi (b.entries r).files t) (hw : t.Writable host) (hf : t.rounds < fuel) :
    idWrite host junk b fuel = some (imageOf (b.entries r).name (t.onDisk host)) := by
  obtain ⟨n, rfl⟩ := Nat.exists_eq_succ_of_ne_zero (Nat.ne_of_gt (Nat.lt_of_le_of_lt (Nat.zero_le _) hf))
  have hdir := writeDir_layout (t := t.onDisk host) host junk b hname (by simpa [Entries.onDisk] using hcount)
    (fun data => writeEntries_layout host junk b hbuilt hw (Nat.le_of_lt_succ hf) data) idHeader
  have hhead : OutFile.fwrite ⟨[], 0⟩ idHeader = atEnd idHeader := rfl
  simp only [idWrite, hhead, hroot, Option.bind_eq_bind, Option.bind_some, hdir, hnext]
  simp [atEnd, imageOf, Entries.layout, Entries.offset]

end

/-! ## Reading -/

/-- The inode's name is this one: a pointer to its characters, with a NUL behind them. -/
def IdInode.Named (mem : Memory) (ino : IdInode) (name : List UInt8) : Prop :=
  ∃ a, ino.name = some a ∧ mem.At a (name ++ [0])

/-- The inodes are those of the tree: the same entries in the same order, with their names; for each file its length and bytes. -/
def Shows (mem : Memory) : Entries IdInode IdInode → DiskTree → Prop
  | .nil, .nil => True
  | .file ino rest, .file (name, data) rest' =>
    ino.Named mem name ∧ ino.length = data.length ∧ mem.At ino.impl data ∧ Shows mem rest rest'
  | .dir ino inner rest, .dir name inner' rest' =>
    ino.Named mem name ∧ ino.length = inner'.length ∧ Shows mem inner inner' ∧ Shows mem rest rest'
  | _, _ => False

namespace InitrdAux

theorem decode_encode {e : IdEntry} (h : e.type < 4294967296 ∧ e.name < 4294967296 ∧ e.count < 4294967296 ∧
    e.content < 4294967296 ∧ e.next < 4294967296) : IdEntry.decode e.encode = e := by
  obtain ⟨type, name, count, content, next⟩ := e
  obtain ⟨h₁, h₂, h₃, h₄, h₅⟩ := h
  simp only [IdEntry.decode, IdEntry.mk.injEq]
  refine ⟨ofLe32_le32_append h₁ _, ofLe32_le32_append h₂ _, ofLe32_le32_append h₃ _, ofLe32_le32_append h₄ _, ?_⟩
  have := ofLe32_le32_append h₅ []
  rwa [List.append_nil] at this

/-- The parts of an entry of the image. -/
theorem at_head {mem : Memory} {a : Nat} {e : IdEntry} {name rest : List UInt8} (h : mem.At a (e.encode ++ (name ++ [0]) ++ rest))
    (he : e.type < 4294967296 ∧ e.name < 4294967296 ∧ e.count < 4294967296 ∧ e.content < 4294967296 ∧ e.next < 4294967296) :
    readEntry mem a = e ∧ mem.At (a + idEntrySize) (name ++ [0]) ∧ mem.At (a + headSize name) rest := by
  rw [Memory.at_append, Memory.at_append] at h
  obtain ⟨⟨hent, hname⟩, hrest⟩ := h
  refine ⟨?_, hname, ?_⟩
  · have hbytes : mem.bytes a idEntrySize = e.encode := hent
    rw [readEntry, hbytes, decode_encode he]
  · simpa [headSize] using hrest

theorem idGet_of_lt {off disk : Nat} (ho : 0 < off) (h : disk + off < 4294967296) : idGet off disk = disk + off := by
  rw [idGet, if_neg (Nat.ne_of_gt ho), w32_of_lt h]

theorem at_idGet {mem : Memory} {off disk : Nat} {bs : List UInt8} (ho : 0 < off) :
    mem.At (idGet off disk) bs ↔ mem.At (disk + off) bs := by
  rw [idGet, if_neg (Nat.ne_of_gt ho), Memory.at_w32]

theorem headSize_pos (name : List UInt8) : idEntrySize < headSize name := by
  simp [headSize]

theorem offset_of_length {t : DiskTree} (h : t.length ≠ 0) (off : Nat) : t.offset off = off := by
  cases t with
  | nil => exact absurd rfl h
  | file _ _ => rfl
  | dir _ _ _ => rfl

theorem offset_le (t : DiskTree) (off : Nat) : t.offset off ≤ off := by
  cases t <;> simp [Entries.offset]

/-- The inode of an entry has its name. -/
theorem named_newInode {mem : Memory} {disk : Nat} {e : IdEntry} {name : List UInt8} (hname : mem.At (disk + e.name) (name ++ [0]))
    (ho : 0 < e.name) (hd : disk + e.name < 4294967296) : (newInode e disk).Named mem name := by
  refine ⟨idGet e.name disk, ?_, (at_idGet ho).mpr hname⟩
  have hne : idGet e.name disk ≠ 0 := by
    rw [idGet_of_lt ho hd]
    omega
  rw [newInode, if_neg hne]

end InitrdAux

/-- What a reader of the image finds: the entries at their offsets. -/
def Entries.visits : Nat → DiskTree → Entries Visit Visit
  | _, .nil => .nil
  | off, .file (name, data) rest =>
    let datapos := off + headSize name
    let next := datapos + data.length
    .file ⟨off, idTypeFile, off + idEntrySize, data.length, datapos, rest.offset next⟩ (rest.visits next)
  | off, .dir name inner rest =>
    let datapos := off + headSize name
    let next := datapos + inner.size
    .dir ⟨off, idTypeDir, off + idEntrySize, inner.length, datapos, rest.offset next⟩ (inner.visits datapos) (rest.visits next)

/-- The inodes that the kernel makes of these entries. -/
def inodesOf (disk : Nat) (t : Entries Visit Visit) : Entries IdInode IdInode :=
  t.map (fun v => parseFile v.entry disk) (fun v => newInode v.entry disk)

@[simp] theorem Entries.length_visits (t : DiskTree) (off : Nat) : (t.visits off).length = t.length := by
  induction t generalizing off with
  | nil => rfl
  | file f rest ih => simp only [visits, length, ih]
  | dir name inner rest _ ih => simp only [visits, length, ih]

section

variable {mem : Memory} {disk : Nat}

/-- A file in the image: its entry, its name, its bytes, and the entries behind it. -/
theorem at_file {off : Nat} {name data : List UInt8} {rest : DiskTree}
    (h : mem.At (disk + off) ((Entries.file (name, data) rest).layout off))
    (hs : off + (Entries.file (name, data) rest).size < 4294967296) :
    readEntry mem (disk + off) = ⟨idTypeFile, off + idEntrySize, data.length, off + headSize name,
      rest.offset (off + headSize name + data.length)⟩ ∧
      mem.At (disk + (off + idEntrySize)) (name ++ [0]) ∧ mem.At (disk + (off + headSize name)) data ∧
      mem.At (disk + (off + headSize name + data.length)) (rest.layout (off + headSize name + data.length)) := by
  simp only [Entries.size] at hs
  have hhead := headSize_pos name
  have hnext := offset_le rest (off + headSize name + data.length)
  rw [Entries.layout, List.append_assoc] at h
  obtain ⟨hent, hname, hrest⟩ := at_head h (by simp only [idTypeFile]; omega)
  rw [Memory.at_append] at hrest
  refine ⟨hent, ?_, ?_, ?_⟩
  · simpa only [Nat.add_assoc] using hname
  · simpa only [Nat.add_assoc] using hrest.1
  · simpa only [Nat.add_assoc] using hrest.2

/-- A directory in the image: its entry, its name, the entries in it, and those behind it. -/
theorem at_dir {off : Nat} {name : List UInt8} {inner rest : DiskTree}
    (h : mem.At (disk + off) ((Entries.dir name inner rest).layout off)) (hs : off + (Entries.dir name inner rest).size < 4294967296) :
    readEntry mem (disk + off) = ⟨idTypeDir, off + idEntrySize, inner.length, off + headSize name,
      rest.offset (off + headSize name + inner.size)⟩ ∧
      mem.At (disk + (off + idEntrySize)) (name ++ [0]) ∧
      mem.At (disk + (off + headSize name)) (inner.layout (off + headSize name)) ∧
      mem.At (disk + (off + headSize name + inner.size)) (rest.layout (off + headSize name + inner.size)) := by
  simp only [Entries.size] at hs
  have hhead := headSize_pos name
  have hnext := offset_le rest (off + headSize name + inner.size)
  have hsize := inner.length_le_size
  rw [Entries.layout, List.append_assoc] at h
  obtain ⟨hent, hname, hrest⟩ := at_head h (by simp only [idTypeDir]; omega)
  rw [Memory.at_append, Entries.length_layout] at hrest
  refine ⟨hent, ?_, ?_, ?_⟩
  · simpa only [Nat.add_assoc] using hname
  · simpa only [Nat.add_assoc] using hrest.1
  · simpa only [Nat.add_assoc] using hrest.2

/-- The inodes of the entries are those of the tree. -/
theorem shows_visits {t : DiskTree} {off : Nat} (h : mem.At (disk + off) (t.layout off)) (ho : 0 < off)
    (hs : off + t.size < 4294967296) (hd : disk + (off + t.size) ≤ 4294967296) : Shows mem (inodesOf disk (t.visits off)) t := by
  induction t generalizing off with
  | nil => trivial
  | file f rest ih =>
    obtain ⟨name, data⟩ := f
    obtain ⟨-, hname, hdata, hrest⟩ := at_file h hs
    simp only [Entries.size] at hs hd
    have hhead := headSize_pos name
    refine ⟨named_newInode hname (by dsimp only; omega) (by dsimp only; omega), rfl, (at_idGet (by omega)).mpr hdata, ?_⟩
    exact ih hrest (by omega) (by omega) (by omega)
  | dir name inner rest ih₁ ih₂ =>
    obtain ⟨-, hname, hinner, hrest⟩ := at_dir h hs
    simp only [Entries.size] at hs hd
    have hhead := headSize_pos name
    refine ⟨named_newInode hname (by dsimp only; omega) (by dsimp only; omega), rfl, ?_, ?_⟩
    · exact ih₁ hinner (by omega) (by omega) (by omega)
    · exact ih₂ hrest (by omega) (by omega) (by omega)

/-- `parse_dir` finds a directory, if its loop finds its entries. -/
theorem parseDir_layout {off n next : Nat} {name : List UInt8} {t : DiskTree}
    (he : readEntry mem (disk + off) = ⟨idTypeDir, off + idEntrySize, t.length, off + headSize name, next⟩)
    (hd : disk + (off + headSize name + t.size) ≤ 4294967296)
    (hloop : parseEntries mem disk n (idGet (t.offset (off + headSize name)) disk) =
      some (inodesOf disk (t.visits (off + headSize name)))) :
    parseDir mem disk (n + 1) (disk + off) =
      some (newInode ⟨idTypeDir, off + idEntrySize, t.length, off + headSize name, next⟩ disk,
        inodesOf disk (t.visits (off + headSize name))) := by
  have hsize := t.length_le_size
  simp only [parseDir, he, ne_eq, not_true_eq_false, if_false]
  by_cases hlen : t.length = 0
  · cases t with
    | nil => simp [Entries.length, idGet, Entries.visits, inodesOf, Entries.map]
    | file _ _ => cases hlen
    | dir _ _ _ => cases hlen
  · rw [offset_of_length hlen] at hloop
    have hpos : 0 < idGet t.length disk := by
      rw [idGet_of_lt (Nat.pos_of_ne_zero hlen) (by simp only [headSize] at hd; omega)]
      omega
    rw [if_pos hpos, hloop, Option.map_some]

/-- The loop of `parse_dir` finds the entries of a directory in their layout. -/
theorem parseEntries_layout {t : DiskTree} {off fuel : Nat} (h : mem.At (disk + off) (t.layout off)) (ho : 0 < off)
    (hs : off + t.size < 4294967296) (hd : disk + (off + t.size) ≤ 4294967296) (hf : t.rounds ≤ fuel) :
    parseEntries mem disk fuel (idGet (t.offset off) disk) = some (inodesOf disk (t.visits off)) := by
  induction t generalizing off fuel with
  | nil =>
    obtain ⟨n, rfl⟩ := Nat.exists_eq_succ_of_ne_zero (Nat.ne_of_gt hf)
    simp [parseEntries, Entries.offset, idGet, Entries.visits, inodesOf, Entries.map]
  | file f rest ih =>
    obtain ⟨name, data⟩ := f
    obtain ⟨n, rfl, hn⟩ := Entries.rounds_file_le hf
    obtain ⟨hent, -, -, hrest⟩ := at_file h hs
    simp only [Entries.size] at hs hd
    have hhead := headSize_pos name
    have hparse := ih hrest (by omega) (by omega) (by omega) hn
    have hoff : (Entries.file (name, data) rest).offset off = off := rfl
    rw [hoff, idGet_of_lt ho (by omega)]
    simp only [parseEntries, hent]
    rw [if_neg (by omega), if_pos trivial, hparse, Option.bind_eq_bind, Option.bind_some]
    rfl
  | dir name inner rest ih₁ ih₂ =>
    obtain ⟨n, rfl, hn⟩ := Entries.rounds_dir_le hf
    obtain ⟨hent, -, hinner, hrest⟩ := at_dir h hs
    simp only [Entries.size] at hs hd
    have hhead := headSize_pos name
    have hparse₁ := parseDir_layout hent (by omega) (ih₁ hinner (by omega) (by omega) (by omega) hn.1)
    have hparse₂ := ih₂ hrest (by omega) (by omega) (by omega) hn.2
    have hoff : (Entries.dir name inner rest).offset off = off := rfl
    rw [hoff, idGet_of_lt ho (by omega), parseEntries]
    simp only [hent]
    rw [if_neg (by omega), if_neg (by decide), if_pos trivial, hparse₁, Option.bind_eq_bind, Option.bind_some, hparse₂,
      Option.bind_eq_bind, Option.bind_some]
    rfl

/-- The entry of the root directory in an image. -/
def rootVisit (name : List UInt8) (t : DiskTree) : Visit :=
  ⟨idHeader.length, idTypeDir, idHeader.length + idEntrySize, t.length, idHeader.length + headSize name, 0⟩

theorem length_imageOf (name : List UInt8) (t : DiskTree) : (imageOf name t).length = idHeader.length + (headSize name + t.size) := by
  simp [imageOf, Entries.size]

/-- The root directory in an image. -/
theorem at_image {name : List UInt8} {t : DiskTree} (h : mem.At disk (imageOf name t)) :
    mem.At (disk + idHeader.length) ((Entries.dir name t .nil).layout idHeader.length) := by
  rw [imageOf, Memory.at_append] at h
  exact h.2

/-- `parse_dir` finds the entries of an image. -/
theorem parseDir_visits {name : List UInt8} {t : DiskTree} {fuel : Nat} (h : mem.At disk (imageOf name t))
    (hs : (imageOf name t).length < 4294967296) (hd : disk + (imageOf name t).length ≤ 4294967296) (hf : t.rounds < fuel) :
    parseDir mem disk fuel (disk + idHeader.length) =
      some (newInode (rootVisit name t).entry disk, inodesOf disk (t.visits (idHeader.length + headSize name))) := by
  obtain ⟨n, rfl⟩ := Nat.exists_eq_succ_of_ne_zero (Nat.ne_of_gt (Nat.lt_of_le_of_lt (Nat.zero_le _) hf))
  rw [length_imageOf] at hs hd
  have hfour : idHeader.length = 4 := rfl
  have hhead := headSize_pos name
  obtain ⟨hent, -, hinner, -⟩ := at_dir (at_image h) (by simp only [Entries.size]; omega)
  exact parseDir_layout hent (by omega) (parseEntries_layout hinner (by omega) (by omega) (by omega) (Nat.le_of_lt_succ hf))

/-- The kernel accepts the image of a tree, and `parse_dir` finds the tree in it. -/
theorem parseDir_image {name : List UInt8} {t : DiskTree} {fuel : Nat} (h : mem.At disk (imageOf name t))
    (hs : (imageOf name t).length < 4294967296) (hd : disk + (imageOf name t).length ≤ 4294967296) (hf : t.rounds < fuel) :
    checkImg mem disk = true ∧ ∃ ino inodes, parseDir mem disk fuel (disk + idHeader.length) = some (ino, inodes) ∧
      ino.Named mem name ∧ ino.length = t.length ∧ Shows mem inodes t := by
  have hparse := parseDir_visits h hs hd hf
  have hat := at_image h
  rw [length_imageOf] at hs hd
  have hfour : idHeader.length = 4 := rfl
  have hhead := headSize_pos name
  refine ⟨?_, _, _, hparse, ?_, rfl, ?_⟩
  · rw [imageOf, Memory.at_append] at h
    have hbytes : mem.bytes disk 4 = idHeader := h.1
    simp only [Memory.bytes, idHeader, List.range_succ, List.range_zero, List.nil_append, List.cons_append, List.map_cons,
      List.map_nil, List.cons.injEq] at hbytes
    simpa [checkImg] using hbytes
  · obtain ⟨-, hname, -, -⟩ := at_dir hat (by simp only [Entries.size]; omega)
    exact named_newInode hname (by simp only [rootVisit]; omega) (by simp only [rootVisit]; omega)
  · obtain ⟨-, -, hinner, -⟩ := at_dir hat (by simp only [Entries.size]; omega)
    exact shows_visits hinner (by omega) (by omega) (by omega)

end

end Kos
