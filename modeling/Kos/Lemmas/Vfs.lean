import Mathlib.Data.List.Nodup
import Kos.Fs.Table

/-!
# What the functions of the virtual file system do

The lookup of a path changes nothing but `fs_error`. Opening a file that succeeds adds one at a fresh address, and closing one that
succeeds takes it away; otherwise they leave the files as they are.
-/

namespace Kos

namespace VfsAux

/-! ## Open files by address -/

section

variable {fs : Vfs} {a b : Nat} {f : VfsFile}

/-- One file was added. -/
theorem file_of_cons {fs' : Vfs} (hfiles : fs'.files = (a, f) :: fs.files) (b : Nat) :
    fs'.file b = if b = a then some f else fs.file b := by
  rw [Vfs.file, hfiles, List.lookup_cons]
  by_cases h : b = a
  · rw [if_pos h, h, beq_self_eq_true]
  · rw [if_neg h, beq_eq_false_iff_ne.mpr h]
    rfl

theorem file_kfree_of_ne (fs : Vfs) (h : b ≠ a) : (fs.kfree a).file b = fs.file b := by
  obtain ⟨inodes, root, fsError, files⟩ := fs
  simp only [Vfs.file, Vfs.kfree]
  induction files with
  | nil => rfl
  | cons entry files ih =>
    obtain ⟨c, f⟩ := entry
    rcases eq_or_ne c a with rfl | hc
    · rw [List.filter_cons_of_neg (by simp), ih, List.lookup_cons, beq_eq_false_iff_ne.mpr h]
    · rw [List.filter_cons_of_pos (by simpa using hc), List.lookup_cons, List.lookup_cons, ih]

theorem fresh_iff : fs.fresh a = true ↔ a ≠ 0 ∧ a < 4294967296 ∧ fs.file a = none := by
  simp [Vfs.fresh, and_assoc]

@[simp] theorem file_count (fs : Vfs) (ino : Nat) (n : Nat → Nat) (a : Nat) : (fs.count ino n).file a = fs.file a := rfl

@[simp] theorem file_seterror (fs : Vfs) (err : Int) (a : Nat) : (fs.seterror err).file a = fs.file a := rfl

end

/-! ## Opening and closing -/

section

variable {fs fs' : Vfs}

theorem vfsOpen_cases {ino file : Option Nat} {answer : OpenAnswer} {addr : Nat} (h : vfsOpen fs ino answer addr = some (file, fs')) :
    (file = none ∧ ∃ err, fs' = fs.seterror err) ∨
      (file = some addr ∧ fs.fresh addr = true ∧ ∃ i, ino = some i ∧
        fs' = (fs.count i fun n => w32 (n + 1)).addFile addr ⟨some i, answer.pos, answer.fops⟩) := by
  unfold vfsOpen at h
  split at h
  · cases h
    exact .inl ⟨rfl, _, rfl⟩
  · split at h
    · cases h
    · rename_i i hfresh
      split at h
      · split at h
        · cases h
          exact .inl ⟨rfl, _, rfl⟩
        · cases h
          exact .inr ⟨rfl, by simpa using hfresh, i, rfl, rfl⟩
      · cases h
        exact .inl ⟨rfl, _, rfl⟩

theorem vfsClose_cases {file : Nat} {answer err : Int} (h : vfsClose fs (some file) answer = some (err, fs')) :
    (err ≠ 0 ∧ fs' = fs) ∨
      (err = 0 ∧ ∃ f i, fs.file file = some f ∧ f.inode = some i ∧ fs' = (fs.count i fun n => sub32 n 1).kfree file) := by
  obtain ⟨f, hf, h⟩ := Option.bind_eq_some_iff.mp h
  split at h
  · split at h
    · cases h
      exact .inl ⟨‹_›, rfl⟩
    · obtain ⟨i, hi, h⟩ := Option.map_eq_some_iff.mp h
      cases h
      exact .inr ⟨rfl, f, i, hf, hi, rfl⟩
  · cases h
    exact .inl ⟨by decide, rfl⟩

/-- A file that is open and refers to an inode can be closed, whatever the driver answers. -/
theorem exists_vfsClose {file : Nat} {f : VfsFile} (hf : fs.file file = some f) (hinode : f.inode.isSome) (answer : Int) :
    ∃ err fs', vfsClose fs (some file) answer = some (err, fs') := by
  obtain ⟨i, hi⟩ := Option.isSome_iff_exists.mp hinode
  simp only [vfsClose, hf, Option.bind_some, hi, Option.map_some]
  split
  · split <;> exact ⟨_, _, rfl⟩
  · exact ⟨_, _, rfl⟩

end

/-! ## Looking up a path -/

/-- The state differs in `fs_error` at most. -/
def ErrorOnly (fs fs' : Vfs) : Prop := ∃ err, fs' = fs.seterror err

section

variable {fs fs' fs'' : Vfs}

theorem ErrorOnly.refl (fs : Vfs) : ErrorOnly fs fs := ⟨fs.fsError, rfl⟩

theorem ErrorOnly.trans (h : ErrorOnly fs fs') (h' : ErrorOnly fs' fs'') : ErrorOnly fs fs'' := by
  obtain ⟨err, rfl⟩ := h
  obtain ⟨err', rfl⟩ := h'
  exact ⟨err', rfl⟩

theorem vfsFinddir_errorOnly (fs : Vfs) (ino : Option Nat) (name : CString) : ErrorOnly fs (vfsFinddir fs ino name).2 := by
  unfold vfsFinddir
  split
  · exact ⟨_, rfl⟩
  · split
    · exact ⟨_, rfl⟩
    · split
      · rename_i finddir _
        rcases (finddir name).2 with _ | err
        · exact .refl fs
        · exact ⟨err, rfl⟩
      · exact ⟨_, rfl⟩

theorem lookupDir_error {symc ino : Nat} (h : lookupDir fs symc ino = .error fs') : ErrorOnly fs fs' := by
  unfold lookupDir at h
  split at h
  · split at h
    · cases h
      exact ⟨_, rfl⟩
    · cases h
  · split at h
    · cases h
    · split at h
      · cases h
        exact ⟨_, rfl⟩
      · cases h

theorem lookupLoop_errorOnly {path : CString} {pidx symc : Nat} {ino found : Option Nat}
    (h : lookupLoop fs path pidx symc ino = some (found, fs')) : ErrorOnly fs fs' := by
  fun_induction lookupLoop fs path pidx symc ino with
  | case1 => cases h
  | case2 =>
    cases h
    exact .refl _
  | case3 =>
    cases h
    exact .refl _
  | case4 fs pidx symc part next hnext ino fs₁ herror =>
    cases h
    exact lookupDir_error herror
  | case5 fs pidx symc part next hnext ino dir symc' hok ih => exact (vfsFinddir_errorOnly fs (some dir) part).trans (ih h)

theorem vfsLookup_errorOnly {path : CString} {start : Nat} {found : Option Nat} (h : vfsLookup fs path start = some (found, fs')) :
    ErrorOnly fs fs' := by
  obtain ⟨⟨ino, fs''⟩, hloop, h⟩ := Option.map_eq_some_iff.mp h
  cases h
  exact lookupLoop_errorOnly hloop

end

end VfsAux

end Kos
