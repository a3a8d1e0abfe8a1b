import Mathlib.Data.Finset.Card
import Kos.User.Dir
import Kos.Theorems.Mount
import Kos.Theorems.OpenCount

/-!
# Listing a directory

`opendir` asks for the entries by their index until a call fails. At the end of a directory the initrd sets `fs_error`, but devfs does not,
and `sys_readdir` returns what some earlier call has left there. Nothing ever sets it to 0 (`ErrorSet`), so the list ends there for both, and
the calls of `readdir` give the names of all entries in their order (`opendir_readdir`).
-/

namespace Kos

open CChar LookupAux MountAux

/-- `d` is a directory of the initrd with these entries, or the root of devfs and these are the devices. -/
def Directory (s : DirFs) (d : Nat) (names : List CString) : Prop :=
  (s.vfs.inodes d).isset fsDir = true ∧
    (s.ops d = some (.initrd names) ∨ (s.ops d = some .devfs ∧ d = s.devfsRoot ∧ s.devices = names))

/-- A file system that finds no inode sets an error or none, but never 0. -/
def DriversOk (fs : Vfs) : Prop := ∀ i finddir name, (fs.inodes i).finddir = some finddir → (finddir name).2 ≠ some 0

/-- The blocks that `malloc` returns for the names of the entries, one more than there are: they lie in the address space, and apart. -/
structure Buffers (malloc : Nat → Nat) (n : Nat) : Prop where
  fits : ∀ k ≤ n, malloc k + maxPath ≤ 4294967296
  apart : ∀ j ≤ n, ∀ k ≤ n, j ≠ k → malloc j + maxPath ≤ malloc k ∨ malloc k + maxPath ≤ malloc j

/-- A call that the file systems answer. -/
inductive DirCall where
  | vfs (call : VfsCall)
  | lookup (path : CString) (start : Nat)
  | gettype (fslist : List (CString × FsType)) (name : Option CString)
  | mount (type : Option FsType) (point : Option Nat) (device : Option CString) (flags : UInt32)
  | readdir (cwd : Nat) (path : CString) (mem : Memory) (buffer size index : Nat)
  | register (name : CString)
  | unregister (name : CString)

def dirStep (s : DirFs) : DirCall → Option DirFs
  | .vfs call => (vfsStep s.vfs call).map fun fs => { s with vfs := fs }
  | .lookup path start => (vfsLookup s.vfs path start).map fun (_, fs) => { s with vfs := fs }
  | .gettype fslist name => some { s with vfs := (vfsGettype s.vfs fslist name).2 }
  | .mount type point device flags => some { s with vfs := (vfsMount s.vfs type point device flags).2 }
  | .readdir cwd path mem buffer size index => (sysReaddir s cwd path mem buffer size index).map fun (_, s, _) => s
  | .register name => some { s with devices := s.devices ++ [name] }
  | .unregister name => some { s with devices := s.devices.erase name }

namespace ReaddirAux

/-! ## `fs_error` -/

/-- `fs_error` is an error, and stays one. -/
structure ErrorSet (fs : Vfs) : Prop where
  error : fs.fsError ≠ 0
  drivers : DriversOk fs

section

variable {fs fs' : Vfs}

theorem ErrorSet.congr (h : ErrorSet fs) (herror : fs'.fsError = fs.fsError)
    (hfind : ∀ i, (fs'.inodes i).finddir = (fs.inodes i).finddir) : ErrorSet fs' := by
  refine ⟨herror ▸ h.error, ?_⟩
  intro i finddir name hi
  exact h.drivers i finddir name (hfind i ▸ hi)

theorem ErrorSet.seterror (h : ErrorSet fs) {err : Int} (herr : err ≠ 0 := by decide) : ErrorSet (fs.seterror err) := ⟨herr, h.drivers⟩

theorem finddir_count (fs : Vfs) (ino : Nat) (n : Nat → Nat) (i : Nat) :
    ((fs.count ino n).inodes i).finddir = (fs.inodes i).finddir := by
  simp only [Vfs.count]
  split <;> rfl

theorem ErrorSet.count (h : ErrorSet fs) (ino : Nat) (n : Nat → Nat) : ErrorSet (fs.count ino n) :=
  h.congr rfl (finddir_count fs ino n)

theorem ErrorSet.addFile (h : ErrorSet fs) (addr : Nat) (f : VfsFile) : ErrorSet (fs.addFile addr f) := ⟨h.error, h.drivers⟩

theorem ErrorSet.kfree (h : ErrorSet fs) (addr : Nat) : ErrorSet (fs.kfree addr) := ⟨h.error, h.drivers⟩

theorem ErrorSet.vfsFinddir (h : ErrorSet fs) (ino : Option Nat) (name : CString) : ErrorSet (vfsFinddir fs ino name).2 := by
  unfold Kos.vfsFinddir
  split
  · exact h.seterror
  · split
    · exact h.seterror
    · split
      · rename_i i _ _ finddir hfind
        rcases herr : (finddir name).2 with _ | err
        · exact h
        · refine h.seterror ?_
          rintro rfl
          exact h.drivers i finddir name hfind herr
      · exact h.seterror

theorem ErrorSet.lookupDir (h : ErrorSet fs) {symc ino : Nat} (herror : lookupDir fs symc ino = .error fs') : ErrorSet fs' := by
  unfold Kos.lookupDir at herror
  split at herror
  · split at herror
    · cases herror
      exact h.seterror
    · cases herror
  · split at herror
    · cases herror
    · split at herror
      · cases herror
        exact h.seterror
      · cases herror

theorem ErrorSet.lookupLoop {path : CString} {pidx symc : Nat} {ino found : Option Nat} (h : ErrorSet fs)
    (hloop : lookupLoop fs path pidx symc ino = some (found, fs')) : ErrorSet fs' := by
  fun_induction Kos.lookupLoop fs path pidx symc ino with
  | case1 => cases hloop
  | case2 =>
    cases hloop
    exact h
  | case3 =>
    cases hloop
    exact h
  | case4 fs pidx symc part next hnext ino fs₁ herror =>
    cases hloop
    exact h.lookupDir herror
  | case5 fs pidx symc part next hnext ino dir symc' hok ih => exact ih (h.vfsFinddir (some dir) part) hloop

theorem ErrorSet.vfsLookup {path : CString} {start : Nat} {found : Option Nat} (h : ErrorSet fs)
    (hlookup : vfsLookup fs path start = some (found, fs')) : ErrorSet fs' := by
  obtain ⟨⟨ino, fs''⟩, hloop, hfs⟩ := Option.map_eq_some_iff.mp hlookup
  cases hfs
  exact h.lookupLoop hloop

theorem ErrorSet.vfsOpen {ino file : Option Nat} {answer : OpenAnswer} {addr : Nat} (h : ErrorSet fs)
    (hopen : vfsOpen fs ino answer addr = some (file, fs')) : ErrorSet fs' := by
  unfold Kos.vfsOpen at hopen
  split at hopen
  · cases hopen
    exact h.seterror
  · split at hopen
    · cases hopen
    · split at hopen
      · split at hopen
        · rename_i hstatus
          cases hopen
          exact h.seterror hstatus
        · cases hopen
          exact (h.count _ _).addFile _ _
      · cases hopen
        exact h.seterror

theorem ErrorSet.vfsClose {file : Option Nat} {answer err : Int} (h : ErrorSet fs)
    (hclose : vfsClose fs file answer = some (err, fs')) : ErrorSet fs' := by
  rcases file with _ | file
  · cases hclose
    exact h
  · rcases VfsAux.vfsClose_cases hclose with ⟨-, rfl⟩ | ⟨-, f, i, -, -, rfl⟩
    · exact h
    · exact (h.count _ _).kfree _

theorem ErrorSet.vfsDup {file copy : Option Nat} {answer : DupAnswer} {newf : Nat} (h : ErrorSet fs)
    (hdup : vfsDup fs file answer newf = some (copy, fs')) : ErrorSet fs' := by
  unfold Kos.vfsDup at hdup
  split at hdup
  · cases hdup
    exact h.seterror
  · split at hdup
    · cases hdup
    · obtain ⟨f, -, hdup⟩ := Option.bind_eq_some_iff.mp hdup
      obtain ⟨fops, -, hdup⟩ := Option.map_eq_some_iff.mp hdup
      generalize (if fops.dup then answer else defDup f) = answer at hdup
      dsimp only at hdup
      split at hdup
      · rename_i herr
        cases hdup
        exact (h.kfree _).seterror herr
      · cases hdup
        exact h.addFile _ _

theorem ErrorSet.cloneFiles {answer : Nat → DupAnswer × Nat} {i : Nat} {files copies : List (Option Nat)} (h : ErrorSet fs)
    (hclone : cloneFiles fs answer i files = some (copies, fs')) : ErrorSet fs' := by
  induction files generalizing fs i copies with
  | nil =>
    cases hclone
    exact h
  | cons file files ih =>
    rcases file with _ | file
    · obtain ⟨⟨copies', fs₁⟩, hrest, heq⟩ := Option.map_eq_some_iff.mp hclone
      cases heq
      exact ih h hrest
    · obtain ⟨⟨newf, fs₁⟩, hdup, hclone⟩ := Option.bind_eq_some_iff.mp hclone
      obtain ⟨⟨copies', fs₂⟩, hrest, heq⟩ := Option.map_eq_some_iff.mp hclone
      cases heq
      exact ih (h.vfsDup hdup) hrest

theorem ErrorSet.closeFiles {answer : Nat → Int} {i : Nat} {files : List (Option Nat)} (h : ErrorSet fs)
    (hclose : closeFiles fs answer i files = some fs') : ErrorSet fs' := by
  induction files generalizing fs i with
  | nil =>
    cases hclose
    exact h
  | cons file files ih =>
    rcases file with _ | file
    · exact ih h hclose
    · obtain ⟨⟨err, fs₁⟩, hfile, hclose⟩ := Option.bind_eq_some_iff.mp hclose
      exact ih (h.vfsClose hfile) hclose

theorem ErrorSet.vfsStep {call : VfsCall} (h : ErrorSet fs) (hstep : vfsStep fs call = some fs') : ErrorSet fs' := by
  cases call with
  | «open» ino answer addr =>
    obtain ⟨⟨file, fs₁⟩, hopen, rfl⟩ := Option.map_eq_some_iff.mp hstep
    exact h.vfsOpen hopen
  | close file answer =>
    obtain ⟨⟨err, fs₁⟩, hclose, rfl⟩ := Option.map_eq_some_iff.mp hstep
    exact h.vfsClose hclose
  | dup file answer newf =>
    obtain ⟨⟨copy, fs₁⟩, hdup, rfl⟩ := Option.map_eq_some_iff.mp hstep
    exact h.vfsDup hdup
  | clone data answer =>
    obtain ⟨⟨table, fs₁⟩, hclone, rfl⟩ := Option.map_eq_some_iff.mp hstep
    obtain ⟨⟨copies, fs₂⟩, hfiles, heq⟩ := Option.map_eq_some_iff.mp hclone
    cases heq
    exact h.cloneFiles hfiles
  | free data answer => exact h.closeFiles hstep

theorem ErrorSet.vfsGettype (h : ErrorSet fs) (fslist : List (CString × FsType)) (name : Option CString) :
    ErrorSet (vfsGettype fs fslist name).2 := by
  unfold Kos.vfsGettype
  split
  · exact h.seterror
  · split
    · exact h
    · exact h.seterror

theorem ErrorSet.vfsMount (h : ErrorSet fs) (type : Option FsType) (point : Option Nat) (device : Option CString) (flags : UInt32) :
    ErrorSet (vfsMount fs type point device flags).2 := by
  unfold Kos.vfsMount
  split
  · split
    · exact h
    · split
      · exact h
      · simp only
        split
        · exact h
        · refine h.congr rfl ?_
          intro i
          simp only
          split <;> rfl
  · exact h

end

/-! ## One entry -/

theorem findEntry_eq (index i : Nat) (names : List CString) :
    findEntry index i names = if i ≤ index then names[index - i]? else none := by
  induction names generalizing i with
  | nil => simp [findEntry]
  | cons name names ih =>
    rw [findEntry]
    rcases Nat.lt_trichotomy i index with hlt | rfl | hgt
    · obtain ⟨k, rfl⟩ := Nat.exists_eq_add_of_lt hlt
      rw [if_neg (by omega), ih, if_pos (by omega), if_pos (by omega), show i + k + 1 - i = k + 1 by omega, List.getElem?_cons_succ,
        show i + k + 1 - (i + 1) = k by omega]
    · simp
    · rw [if_neg (by omega), ih, if_neg (by omega), if_neg (by omega)]

theorem findEntry_zero (index : Nat) (names : List CString) : findEntry index 0 names = names[index]? := by
  rw [findEntry_eq, if_pos (Nat.zero_le _), Nat.sub_zero]

/-- What a driver's `readdir` returns: the entry, or no entry and an error in `fs_error`. -/
theorem vfsReaddir_spec {s : DirFs} {d : Nat} {names : List CString} (herror : ErrorSet s.vfs) (hd : Directory s d names)
    (hshort : ∀ name ∈ names, name.length < fsMaxName) (index : Nat) :
    ∃ fs, VfsAux.ErrorOnly s.vfs fs ∧ ErrorSet fs ∧ vfsReaddir s (some d) index = some (names[index]?, fs) := by
  obtain ⟨hdir, hops⟩ := hd
  have hname : ∀ name, names[index]? = some name → direntName name = some name := by
    intro name hget
    exact if_pos (hshort name (List.mem_of_getElem? hget))
  rcases hops with hops | ⟨hops, hroot, hdevices⟩
  · cases hget : names[index]? with
    | none =>
      refine ⟨s.vfs.seterror (-enoent), ⟨_, rfl⟩, herror.seterror, ?_⟩
      simp [vfsReaddir, hdir, hops, idReaddir, findEntry_zero, hget]
    | some name =>
      refine ⟨s.vfs, .refl _, herror, ?_⟩
      simp [vfsReaddir, hdir, hops, idReaddir, findEntry_zero, hget, hname name hget]
  · refine ⟨s.vfs, .refl _, herror, ?_⟩
    cases hget : names[index]? with
    | none =>
      have hend := List.getElem?_eq_none_iff.mp hget
      simp [vfsReaddir, hdir, hops, devfsReaddir, hroot.symm, hdevices, hend]
    | some name =>
      obtain ⟨hlt, -⟩ := List.getElem?_eq_some_iff.mp hget
      simp only [vfsReaddir, hdir, hops, devfsReaddir, hroot.symm, hdevices, findEntry_zero, hget, hname name hget, not_true_eq_false, ne_eq,
        ↓reduceIte, ge_iff_le, Nat.not_le.mpr hlt, Option.map_some]

/-- The walk to an inode does not depend on `fs_error`. -/
theorem lookupParts_congr {fs fs' g : Vfs} {symc e : Nat} {ino : Option Nat} {parts : List CString} (hinodes : fs'.inodes = fs.inodes)
    (h : lookupParts fs symc ino parts = some (some e, g)) :
    ∃ g', g'.inodes = fs.inodes ∧ lookupParts fs' symc ino parts = some (some e, g') := by
  induction parts generalizing fs fs' symc ino with
  | nil =>
    cases h
    exact ⟨fs', hinodes, rfl⟩
  | cons part parts ih =>
    rcases ino with _ | ino
    · exact absurd h lookupParts_none
    · simp only [lookupParts] at h ⊢
      split at h
      · rename_i hlen
        rw [if_pos hlen]
        split at h
        · cases congrArg Prod.fst (Option.some.inj h)
        · rename_i dir symc' hok
          have hfound : (vfsFinddir fs' (some dir) part).1 = (vfsFinddir fs (some dir) part).1 := by
            rw [vfsFinddir_fst, vfsFinddir_fst, hinodes]
          have hkept : (vfsFinddir fs' (some dir) part).2.inodes = (vfsFinddir fs (some dir) part).2.inodes := by
            rw [vfsFinddir_inodes, vfsFinddir_inodes, hinodes]
          obtain ⟨g', hg', heq⟩ := ih hkept h
          refine ⟨g', hg'.trans (vfsFinddir_inodes fs dir part), ?_⟩
          rw [lookupDir_congr (congrFun hinodes ino) hok]
          simp only
          rw [hfound]
          exact heq
      · cases h

theorem vfsLookup_congr {fs fs' g : Vfs} {path : CString} {start d : Nat} (herror : VfsAux.ErrorOnly fs fs')
    (h : vfsLookup fs path start = some (some d, g)) : ∃ g', vfsLookup fs' path start = some (some d, g') := by
  obtain ⟨err, rfl⟩ := herror
  rw [vfsLookup_eq] at h
  obtain ⟨⟨ino, g₁⟩, hparts, heq⟩ := Option.map_eq_some_iff.mp h
  rcases ino with _ | e
  · cases congrArg Prod.fst heq
  · have hg₁ : g₁.inodes = fs.inodes := by
      obtain ⟨g', hg', heq'⟩ := lookupParts_congr (Eq.refl fs.inodes) hparts
      rw [hparts] at heq'
      cases heq'
      exact hg'
    obtain ⟨g', hg', hparts'⟩ := lookupParts_congr (show (fs.seterror err).inodes = fs.inodes from rfl) hparts
    have hcross : some (g₁.cross e) = some d := congrArg Prod.fst heq
    refine ⟨g', ?_⟩
    have horigin : origin (fs.seterror err) path start = origin fs path start := rfl
    rw [vfsLookup_eq, horigin, hparts', Option.map_some]
    simp only [Option.map_some]
    rw [cross_congr (hg'.trans hg₁.symm), hcross]

/-- The path leads to a directory with these entries. -/
structure Lists (s : DirFs) (cwd : Nat) (path : CString) (names : List CString) : Prop where
  error : ErrorSet s.vfs
  lookup : ∃ d fs, vfsLookup s.vfs path cwd = some (some d, fs) ∧ Directory s d names

/-- A call of `sys_readdir`: it writes the entry to the buffer and returns 0, or there is no entry, and it returns an error. The directory is
as before. -/
theorem sysReaddir_spec {s : DirFs} {cwd : Nat} {path : CString} {names : List CString} (h : Lists s cwd path names)
    (hshort : ∀ name ∈ names, name.length < fsMaxName) (mem : Memory) (buffer index : Nat) :
    ∃ err s' mem', sysReaddir s cwd path mem buffer (maxPath + 1) index = some (err, s', mem') ∧ Lists s' cwd path names ∧
      (∀ name, names[index]? = some name → err = 0 ∧ mem' = mem.strncpy buffer name fsMaxName) ∧ (names[index]? = none → err ≠ 0 ∧ mem' = mem) := by
  obtain ⟨d, fs, hlookup, hd⟩ := h.lookup
  have hfs := h.error.vfsLookup hlookup
  have honly := VfsAux.vfsLookup_errorOnly hlookup
  have hd' : Directory { s with vfs := fs } d names := by
    obtain ⟨err, rfl⟩ := honly
    exact hd
  obtain ⟨fs', honly', hfs', hread⟩ := vfsReaddir_spec hfs hd' hshort index
  have hlists : Lists { s with vfs := fs' } cwd path names := by
    obtain ⟨g, hg⟩ := vfsLookup_congr (honly.trans honly') hlookup
    refine ⟨hfs', d, g, hg, ?_⟩
    obtain ⟨err, rfl⟩ := honly'
    exact hd'
  cases hget : names[index]? with
  | none =>
    rw [hget] at hread
    refine ⟨fs'.fsError, { s with vfs := fs' }, mem, by simp [sysReaddir, hlookup, hread], hlists, ?_, fun _ => ⟨hfs'.error, rfl⟩⟩
    intro name hname
    cases hname
  | some name =>
    rw [hget] at hread
    refine ⟨0, { s with vfs := fs' }, mem.strncpy buffer name fsMaxName, ?_, hlists, ?_, fun h => by cases h⟩
    · simp [sysReaddir, hlookup, hread, fsMaxName]
    · intro name' hname'
      cases hname'
      exact ⟨rfl, rfl⟩

/-! ## Strings in memory -/

section

variable {mem mem' : Memory} {a n : Nat} {name : CString}

theorem string_eq (hlen : name.length < n) (hchars : ∀ j (h : j < name.length), mem (a + j) = (name.get ⟨j, h⟩).1)
    (hend : mem (a + name.length) = 0) : mem.string a n = name := by
  induction name generalizing a n with
  | nil =>
    obtain ⟨n, rfl⟩ := Nat.exists_eq_add_of_lt hlen
    exact dif_pos hend
  | cons c name ih =>
    obtain ⟨n, rfl⟩ := Nat.exists_eq_add_of_lt hlen
    have hc : mem a = c.1 := hchars 0 (Nat.zero_lt_succ _)
    have hne : mem a ≠ 0 := hc ▸ c.2
    have hrest : mem.string (a + 1) (name.length + 1 + n) = name := by
      apply ih (by omega)
      · intro j hj
        rw [show a + 1 + j = a + (j + 1) by omega]
        exact hchars (j + 1) (Nat.succ_lt_succ hj)
      · rw [show a + 1 + name.length = a + (name.length + 1) by omega]
        exact hend
    rw [show (c :: name).length + n + 1 = name.length + 1 + n + 1 by rw [List.length_cons], Memory.string, dif_neg hne, hrest]
    exact congrArg (· :: name) (Subtype.ext hc)

theorem string_congr (h : ∀ j < n, mem' (a + j) = mem (a + j)) : mem'.string a n = mem.string a n := by
  induction n generalizing a with
  | zero => rfl
  | succ n ih =>
    have hhead : mem' a = mem a := h 0 (Nat.zero_lt_succ _)
    have htail : mem'.string (a + 1) n = mem.string (a + 1) n := by
      apply ih
      intro j hj
      rw [show a + 1 + j = a + (j + 1) by omega]
      exact h (j + 1) (Nat.succ_lt_succ hj)
    simp only [Memory.string, hhead, htail]

/-- A name that is shorter than the buffer is not truncated. -/
theorem string_strncpy (mem : Memory) (a : Nat) (h : name.length < fsMaxName) :
    (mem.strncpy a name fsMaxName).string a (maxPath - 1) = name := by
  have hput : ∀ j < fsMaxName, mem.strncpy a name fsMaxName (a + j) = name[j]?.elim 0 (·.1) := by
    intro j hj
    rw [Memory.strncpy, Memory.put, if_pos ⟨Nat.le_add_right a j, Nat.add_lt_add_left hj a⟩, Nat.add_sub_cancel_left]
  refine string_eq h ?_ ?_
  · intro j hj
    rw [hput j (Nat.lt_trans hj h), List.getElem?_eq_getElem hj]
    rfl
  · rw [hput _ h, List.getElem?_eq_none (Nat.le_refl _)]
    rfl

/-- A string in another buffer stays as it is. -/
theorem string_strncpy_other {b : Nat} (h : b + maxPath ≤ a ∨ a + maxPath ≤ b) :
    (mem.strncpy b name fsMaxName).string a (maxPath - 1) = mem.string a (maxPath - 1) := by
  apply string_congr
  intro j hj
  simp only [maxPath, fsMaxName] at h hj ⊢
  rw [Memory.strncpy, Memory.put, if_neg (by omega)]

end

/-! ## The loop of `opendir` -/

/-- There are less than 2²⁴ buffers: they take the whole address space. -/
theorem buffers_lt {malloc : Nat → Nat} {n : Nat} (h : Buffers malloc n) : n < 16777216 := by
  have hmaps : ∀ k ∈ Finset.range (n + 1), malloc k / 256 ∈ Finset.range 16777216 := by
    intro k hk
    have := h.fits k (Nat.lt_succ_iff.mp (Finset.mem_range.mp hk))
    simp only [maxPath] at this
    rw [Finset.mem_range]
    omega
  have hinj : Set.InjOn (fun k => malloc k / 256) (Finset.range (n + 1)) := by
    intro j hj k hk heq
    simp only [Finset.coe_range, Set.mem_Iio] at hj hk heq
    by_contra hne
    have := h.apart j (Nat.lt_succ_iff.mp hj) k (Nat.lt_succ_iff.mp hk) hne
    simp only [maxPath] at this
    omega
  have hcard := Finset.card_le_card_of_injOn _ hmaps hinj
  rw [Finset.card_range, Finset.card_range] at hcard
  exact hcard

/-- The array after `i` entries: it holds their buffers, and `max`, for which it has room, is at most twice their number. -/
structure NamesOk (malloc : Nat → Nat) (i : Nat) (d : DirNames) : Prop where
  names : d.names = (List.range i).map malloc
  max : d.max = d.room
  room : i ≤ d.room
  pos : 0 < d.room
  bound : d.room ≤ nnames ∨ d.room ≤ 2 * i

theorem NamesOk.length {malloc : Nat → Nat} {i : Nat} {d : DirNames} (h : NamesOk malloc i d) : d.names.length = i := by
  rw [h.names, List.length_map, List.length_range]

/-- The array grows before it is full, so the next buffer can be stored. -/
theorem NamesOk.store {malloc : Nat → Nat} {i : Nat} {d : DirNames} (h : NamesOk malloc i d) (hi : i < 16777216) :
    ∃ d', d.grow.store (malloc i) = some d' ∧ NamesOk malloc (i + 1) d' := by
  have hnames : d.names ++ [malloc i] = (List.range (i + 1)).map malloc := by
    rw [h.names, List.range_succ, List.map_append, List.map_singleton]
  have hroom := h.room
  have hpos := h.pos
  have hbound := h.bound
  simp only [nnames] at hbound
  by_cases hfull : i < d.room
  · have hgrow : d.grow = d := by
      rw [DirNames.grow, if_neg]
      rw [h.length, h.max]
      omega
    refine ⟨{ d with names := d.names ++ [malloc i] }, ?_, hnames, h.max, hfull, hpos, ?_⟩
    · rw [hgrow, DirNames.store, if_pos (by rw [h.length]; exact hfull)]
    · simp only [nnames]
      omega
  · have hmax : (d.max * 2).bmod 4294967296 = ((2 * d.room : Nat) : Int) := by
      have hdouble : d.max * 2 = ((2 * d.room : Nat) : Int) := by
        rw [h.max]
        omega
      rw [hdouble]
      exact Int.bmod_eq_of_le (by omega) (by omega)
    have hbytes : (((2 * d.room : Nat) : Int) * 4 % 4294967296).toNat / 4 = 2 * d.room := by omega
    have hgrow : d.grow = ⟨d.names, (2 * d.room : Nat), 2 * d.room⟩ := by
      rw [DirNames.grow, if_pos (by rw [h.length, h.max]; omega)]
      simp only [hmax, hbytes]
    refine ⟨⟨d.names ++ [malloc i], (2 * d.room : Nat), 2 * d.room⟩, ?_, hnames, rfl, ?_, ?_, ?_⟩
    · rw [hgrow, DirNames.store, if_pos]
      simp only [h.length]
      omega
    · simp only
      omega
    · simp only
      omega
    · simp only
      omega

/-- The first `i` names are in their buffers. -/
def Holds (malloc : Nat → Nat) (names : List CString) (i : Nat) (mem : Memory) : Prop :=
  ∀ k < i, names[k]? = some (mem.string (malloc k) (maxPath - 1))

/-- The entry after them is written to the next buffer. -/
theorem Holds.succ {malloc : Nat → Nat} {names : List CString} {i : Nat} {mem : Memory} {name : CString} (h : Holds malloc names i mem)
    (hb : Buffers malloc names.length) (hi : i < names.length) (hname : names[i]? = some name) (hshort : name.length < fsMaxName) :
    Holds malloc names (i + 1) (mem.strncpy (malloc i) name fsMaxName) := by
  intro k hk
  rcases Nat.lt_succ_iff_lt_or_eq.mp hk with hlt | rfl
  · rw [string_strncpy_other (hb.apart i (by omega) k (by omega) (by omega)), h k hlt]
  · rw [string_strncpy mem (malloc k) hshort, hname]

/-- From the entry `i` on: the loop ends with the buffers of all entries. -/
theorem opendirLoop_spec {cwd : Nat} {path : CString} {malloc : Nat → Nat} {names : List CString}
    (hshort : ∀ name ∈ names, name.length < fsMaxName) (hb : Buffers malloc names.length) (fuel : Nat) (mem : Memory) {i : Nat} {s : DirFs}
    {d : DirNames} (hs : Lists s cwd path names) (hd : NamesOk malloc i d) (hmem : Holds malloc names i mem) (hi : i ≤ names.length)
    (hfuel : names.length - i < fuel) :
    ∃ s' mem', opendirLoop cwd path malloc fuel s mem d = some (⟨(List.range names.length).map malloc, 0, names.length⟩, s', mem') ∧
      Holds malloc names names.length mem' := by
  -- One round for each of the entries that are left, and one more for the call that fails.
  induction fuel generalizing i s mem d with
  | zero => exact absurd hfuel (Nat.not_lt_zero _)
  | succ fuel ih =>
    have hlt := buffers_lt hb
    have hw : w32 i = i := Nat.mod_eq_of_lt (by omega)
    obtain ⟨err, s', mem', hread, hs', hsome, hnone⟩ := sysReaddir_spec hs hshort mem (malloc i) i
    have hloop : opendirLoop cwd path malloc (fuel + 1) s mem d =
        if err ≠ 0 then some (⟨d.names, 0, i⟩, s', mem')
        else (d.grow.store (malloc i)).bind (opendirLoop cwd path malloc fuel s' mem') := by
      simp only [opendirLoop, hd.length, hw, hread, Option.bind_some]
    rw [hloop]
    rcases Nat.lt_or_eq_of_le hi with hi | rfl
    · obtain ⟨rfl, rfl⟩ := hsome _ (List.getElem?_eq_getElem hi)
      obtain ⟨d', hstore, hd'⟩ := hd.store (by omega)
      rw [if_neg (by simp), hstore, Option.bind_some]
      exact ih _ hs' hd' (hmem.succ hb hi (List.getElem?_eq_getElem hi) (hshort _ (List.getElem_mem hi))) hi (by omega)
    · have hget : names[names.length]? = none := List.getElem?_eq_none (Nat.le_refl _)
      obtain ⟨herr, rfl⟩ := hnone hget
      rw [if_pos herr, hd.names]
      exact ⟨s', _, rfl, hmem⟩

/-! ## `readdir` -/

/-- From the entry `dir.index` on, the calls return the names one after the other, and then nothing. -/
theorem readdirs_eq {malloc : Nat → Nat} {names : List CString} {mem : Memory} (hmem : Holds malloc names names.length mem) (n : Nat)
    (dir : Dir) (hnames : dir.names = (List.range names.length).map malloc) (hcount : dir.count = names.length)
    (hindex : dir.index ≤ names.length) : readdirs mem n dir = (List.range n).map fun k => names[dir.index + k]? := by
  induction n generalizing dir with
  | zero => rfl
  | succ n ih =>
    rw [readdirs, List.range_succ_eq_map, List.map_cons, List.map_map]
    by_cases hend : dir.index ≥ dir.count
    · have hread : readdir dir mem = (none, dir) := if_pos hend
      have hnone : ∀ k, names[dir.index + k]? = none := fun k => List.getElem?_eq_none (by omega)
      rw [hread, ih dir hnames hcount hindex, hnone 0]
      refine congrArg (none :: ·) (List.map_congr_left ?_)
      intro k _
      exact (hnone k).trans (hnone (k + 1)).symm
    · have hlt : dir.index < names.length := by omega
      have hread : readdir dir mem = (names[dir.index]?, { dir with index := dir.index + 1 }) := by
        rw [readdir, if_neg hend, hnames, List.getElem?_map, List.getElem?_range hlt, Option.map_some, Option.map_some, hmem _ hlt]
      rw [hread, ih { dir with index := dir.index + 1 } hnames hcount hlt]
      refine congrArg (names[dir.index]? :: ·) (List.map_congr_left ?_)
      intro k _
      exact congrArg (names[·]?) (Nat.add_right_comm dir.index 1 k)

/-! ## The run before -/

theorem ErrorSet.vfsReaddir {s : DirFs} {ino : Option Nat} {index : Nat} {dirent : Option CString} {fs : Vfs} (h : ErrorSet s.vfs)
    (hread : vfsReaddir s ino index = some (dirent, fs)) : ErrorSet fs := by
  unfold Kos.vfsReaddir at hread
  split at hread
  · cases hread
    exact h.seterror
  · split at hread
    · cases hread
      exact h.seterror
    · split at hread
      · unfold idReaddir at hread
        split at hread
        · obtain ⟨name, -, heq⟩ := Option.map_eq_some_iff.mp hread
          cases heq
          exact h
        · cases hread
          exact h.seterror
      · unfold devfsReaddir at hread
        split at hread
        · cases hread
          exact h
        · split at hread
          · cases hread
            exact h
          · split at hread
            · obtain ⟨name, -, heq⟩ := Option.map_eq_some_iff.mp hread
              cases heq
              exact h
            · cases hread
              exact h
      · cases hread
        exact h.seterror

theorem ErrorSet.sysReaddir {s s' : DirFs} {cwd buffer size index : Nat} {path : CString} {mem mem' : Memory} {err : Int}
    (h : ErrorSet s.vfs) (hread : sysReaddir s cwd path mem buffer size index = some (err, s', mem')) : ErrorSet s'.vfs := by
  obtain ⟨⟨dir, fs⟩, hlookup, hread⟩ := Option.bind_eq_some_iff.mp hread
  have hfs := h.vfsLookup hlookup
  rcases dir with _ | dir
  · cases hread
    exact hfs
  · obtain ⟨⟨dirent, fs'⟩, hdirent, heq⟩ := Option.map_eq_some_iff.mp hread
    have hfs' := ErrorSet.vfsReaddir (s := { s with vfs := fs }) hfs hdirent
    rcases dirent with _ | name <;> cases heq <;> exact hfs'

/-- What a call does: `fs_error` is never set to 0. -/
theorem dirStep_errorSet (s : DirFs) (call : DirCall) (s' : DirFs) (h : ErrorSet s.vfs) (_ : True) (hstep : dirStep s call = some s') :
    ErrorSet s'.vfs := by
  cases call with
  | vfs call =>
    obtain ⟨fs, hcall, rfl⟩ := Option.map_eq_some_iff.mp hstep
    exact h.vfsStep hcall
  | lookup path start =>
    obtain ⟨⟨found, fs⟩, hlookup, rfl⟩ := Option.map_eq_some_iff.mp hstep
    exact h.vfsLookup hlookup
  | gettype fslist name =>
    cases hstep
    exact h.vfsGettype fslist name
  | mount type point device flags =>
    cases hstep
    exact h.vfsMount type point device flags
  | readdir cwd path mem buffer size index =>
    obtain ⟨⟨err, s₁, mem₁⟩, hread, rfl⟩ := Option.map_eq_some_iff.mp hstep
    exact h.sysReaddir hread
  | register name =>
    cases hstep
    exact h
  | unregister name =>
    cases hstep
    exact h

end ReaddirAux

open ReaddirAux

/-- In every state that the calls lead to from the start, where `fs_error` is `-ENOSYS`: `opendir` on a path to a directory of the initrd or of
devfs returns, and the calls of `readdir` give the names of its entries in their order, and `NULL` from then on. -/
theorem opendir_readdir {s₀ s : DirFs} (hstart : s₀.vfs.fsError = -enosys) (hdrivers : DriversOk s₀.vfs)
    (hrun : Reach dirStep (fun _ _ => True) s₀ s) {cwd d : Nat} {path : CString} {fs : Vfs} {names : List CString}
    (hlookup : vfsLookup s.vfs path cwd = some (some d, fs)) (hd : Directory s d names)
    (hshort : ∀ name ∈ names, name.length < fsMaxName) {malloc : Nat → Nat} (hb : Buffers malloc names.length) (mem : Memory) {fuel : Nat}
    (hfuel : names.length < fuel) :
    ∃ dir s' mem', opendir cwd path malloc fuel s mem = some (dir, s', mem') ∧
      ∀ n, readdirs mem' n dir = (List.range n).map fun k => names[k]? := by
  have herror : ErrorSet s.vfs := by
    refine hrun.inv (fun s => ErrorSet s.vfs) ⟨?_, hdrivers⟩ dirStep_errorSet
    rw [hstart]
    decide
  have hnames : NamesOk malloc 0 ⟨[], nnames, nnames⟩ := ⟨rfl, rfl, by decide, by decide, .inl (Nat.le_refl _)⟩
  obtain ⟨s', mem', hopen, hmem⟩ := opendirLoop_spec hshort hb fuel mem ⟨herror, d, fs, hlookup, hd⟩ hnames
    (fun k hk => absurd hk (Nat.not_lt_zero k)) (Nat.zero_le _) (by omega)
  refine ⟨_, s', mem', hopen, ?_⟩
  intro n
  have hreads := readdirs_eq hmem n ⟨(List.range names.length).map malloc, 0, names.length⟩ rfl rfl (Nat.zero_le _)
  simpa only [Nat.zero_add] using hreads

/-- The root of devfs alone, with no devices yet. -/
def devFs : DirFs where
  vfs := ⟨fun _ => ⟨fsDir, 0, 0, false, false, none⟩, 0, -enosys, []⟩
  ops := fun _ => some .devfs
  devfsRoot := 0
  devices := []

/-- Two devices are registered, and the directory is listed: at its end, the error is still that of the start. -/
theorem devFs_listed :
    ∃ dir s' mem', opendir 0 [slash] (fun k => 4096 + maxPath * k) 3 { devFs with devices := [[a], [b]] } (fun _ => 0) = some (dir, s', mem') ∧
      readdirs mem' 3 dir = [some [a], some [b], none] := by
  have hrun : Reach dirStep (fun _ _ => True) devFs { devFs with devices := [[a], [b]] } :=
    .step (.register [b]) (.step (.register [a]) .init trivial rfl) trivial rfl
  have hlookup : vfsLookup devFs.vfs [slash] 0 = some (some 0, devFs.vfs) := by
    rw [vfsLookup_eq]
    rfl
  have hdir : Directory { devFs with devices := [[a], [b]] } 0 [[a], [b]] := ⟨by decide, .inr ⟨rfl, rfl, rfl⟩⟩
  have hbuffers : Buffers (fun k => 4096 + maxPath * k) 2 := by
    constructor
    · intro k hk
      simp only [maxPath]
      omega
    · intro j _ k _ hne
      simp only [maxPath]
      omega
  obtain ⟨dir, s', mem', hopen, hread⟩ := opendir_readdir rfl (fun _ _ _ hfind => by cases hfind) hrun hlookup
    hdir (by decide) hbuffers (fun _ => 0) (show 2 < 3 by decide)
  exact ⟨dir, s', mem', hopen, hread 3⟩

end Kos
