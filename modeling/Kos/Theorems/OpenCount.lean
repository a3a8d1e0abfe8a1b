import Mathlib.Data.List.Perm.Subperm
import Kos.Lib.Run
import Kos.Lemmas.Vfs

/-!
# The open count of an inode

`vfs_open` counts a file that it opens and `vfs_close` counts one off that it closes, but `vfs_dup` makes a file without counting it,
and so does the copy of a table of descriptors. As long as no open file is duplicated, `opencount` is the number of the open files of
the inode, and `vfs_unlink` refuses exactly the inodes that are open (`opencount_of_noDup`).
-/

namespace Kos

/-- A call of the virtual file system: with the answers of the driver and the addresses that `kmalloc` returns. -/
inductive VfsCall where
  | open (ino : Option Nat) (answer : OpenAnswer) (addr : Nat)
  | close (file : Option Nat) (answer : Int)
  | dup (file : Option Nat) (answer : DupAnswer) (newf : Nat)
  | clone (data : FdTable) (answer : Nat → DupAnswer × Nat)
  | free (data : FdTable) (answer : Nat → Int)

def vfsStep (fs : Vfs) : VfsCall → Option Vfs
  | .open ino answer addr => (vfsOpen fs ino answer addr).map (·.2)
  | .close file answer => (vfsClose fs file answer).map (·.2)
  | .dup file answer newf => (vfsDup fs file answer newf).map (·.2)
  | .clone data answer => (vfsCloneProcdata fs data answer).map (·.2)
  | .free data answer => vfsFreeProcdata fs data answer

/-- The number of open files that refer to the inode. -/
def Vfs.openFiles (fs : Vfs) (ino : Nat) : Nat := fs.files.countP fun entry => entry.2.inode = some ino

/-- Nothing is open. -/
def NothingOpen (fs : Vfs) : Prop := fs.files = [] ∧ ∀ ino, (fs.inodes ino).opencount = 0

/-- The call does not duplicate an open file. -/
def NoDup : VfsCall → Prop
  | .dup file _ _ => file = none
  | .clone data _ => ∀ file ∈ data.files, file = none
  | _ => True

instance : DecidablePred NoDup
  | .dup file _ _ => inferInstanceAs (Decidable (file = none))
  | .clone data _ => inferInstanceAs (Decidable (∀ file ∈ data.files, file = none))
  | .open .. | .close .. | .free .. => inferInstanceAs (Decidable True)

namespace OpenCountAux

open VfsAux

/-! ## The list of open files -/

theorem lookup_eq_none_iff {files : List (Nat × VfsFile)} {a : Nat} : files.lookup a = none ↔ a ∉ files.map Prod.fst := by
  induction files with
  | nil => simp
  | cons entry files ih =>
    rcases eq_or_ne a entry.1 with rfl | h
    · simp
    · rw [List.lookup_cons, beq_eq_false_iff_ne.mpr h, List.map_cons, List.mem_cons, not_or, and_iff_right h]
      exact ih

/-- Taking the file at an address away changes what is counted by this file. -/
theorem countP_filter_ne {files : List (Nat × VfsFile)} {a : Nat} {f : VfsFile} (hnodup : (files.map Prod.fst).Nodup)
    (hf : files.lookup a = some f) (p : Nat × VfsFile → Bool) :
    files.countP p = (files.filter (·.1 ≠ a)).countP p + if p (a, f) then 1 else 0 := by
  induction files with
  | nil => cases hf
  | cons entry files ih =>
    obtain ⟨b, g⟩ := entry
    rw [List.map_cons, List.nodup_cons] at hnodup
    rcases eq_or_ne a b with rfl | hne
    · simp only [List.lookup_cons, beq_self_eq_true, Option.some.injEq] at hf
      subst hf
      have hrest : files.filter (·.1 ≠ a) = files := by
        refine List.filter_eq_self.mpr fun entry hentry => ?_
        rw [decide_eq_true_eq]
        intro heq
        exact hnodup.1 (List.mem_map.mpr ⟨entry, hentry, heq⟩)
      rw [List.filter_cons_of_neg (by simp), hrest, List.countP_cons]
    · rw [List.lookup_cons, beq_eq_false_iff_ne.mpr hne] at hf
      rw [List.filter_cons_of_pos (by simpa using hne.symm), List.countP_cons, List.countP_cons, ih hnodup.2 hf]
      omega

/-- There are less files than addresses. -/
theorem countP_lt (files : List (Nat × VfsFile)) (hnodup : (files.map Prod.fst).Nodup)
    (haddrs : ∀ a ∈ files.map Prod.fst, a ≠ 0 ∧ a < 4294967296) (p : Nat × VfsFile → Bool) : files.countP p < 4294967296 := by
  have hsub : files.map Prod.fst ⊆ List.range' 1 4294967295 := by
    intro a ha
    have := haddrs a ha
    rw [List.mem_range'_1]
    omega
  have hlen := (List.subperm_of_subset hnodup hsub).length_le
  rw [List.length_range', List.length_map] at hlen
  exact Nat.lt_succ_of_le (Nat.le_trans List.countP_le_length hlen)

/-! ## Counting -/

/-- The open files are at different addresses, and every inode counts its own. -/
structure Counted (fs : Vfs) : Prop where
  nodup : (fs.files.map Prod.fst).Nodup
  addrs : ∀ a ∈ fs.files.map Prod.fst, a ≠ 0 ∧ a < 4294967296
  count : ∀ ino, (fs.inodes ino).opencount = fs.openFiles ino

section

variable {fs fs' : Vfs}

theorem Counted.errorOnly (h : Counted fs) (herr : ErrorOnly fs fs') : Counted fs' := by
  obtain ⟨err, rfl⟩ := herr
  exact ⟨h.nodup, h.addrs, h.count⟩

theorem Counted.add (h : Counted fs) {addr i : Nat} (hfresh : fs.fresh addr = true) (answer : OpenAnswer) :
    Counted ((fs.count i fun n => w32 (n + 1)).addFile addr ⟨some i, answer.pos, answer.fops⟩) := by
  obtain ⟨hzero, hlt, hnone⟩ := fresh_iff.mp hfresh
  have hnodup := List.nodup_cons.mpr ⟨lookup_eq_none_iff.mp hnone, h.nodup⟩
  have haddrs : ∀ a ∈ addr :: fs.files.map Prod.fst, a ≠ 0 ∧ a < 4294967296 := List.forall_mem_cons.mpr ⟨⟨hzero, hlt⟩, h.addrs⟩
  refine ⟨hnodup, haddrs, fun ino => ?_⟩
  have hfits := countP_lt ((addr, ⟨some i, answer.pos, answer.fops⟩) :: fs.files) hnodup haddrs fun entry =>
    entry.2.inode = some ino
  have hcount := h.count ino
  simp only [Vfs.openFiles, Vfs.addFile, Vfs.count, List.countP_cons] at hfits hcount ⊢
  rcases eq_or_ne ino i with rfl | hne
  · simp only [decide_true, if_true] at hfits ⊢
    rw [hcount, w32_of_lt hfits]
  · simpa [hne, Ne.symm hne] using hcount

theorem Counted.remove (h : Counted fs) {addr i : Nat} {f : VfsFile} (hf : fs.file addr = some f) (hi : f.inode = some i) :
    Counted ((fs.count i fun n => sub32 n 1).kfree addr) := by
  have hsub : ((fs.count i fun n => sub32 n 1).kfree addr).files.Sublist fs.files := List.filter_sublist
  refine ⟨h.nodup.sublist (hsub.map _), fun a ha => h.addrs a ((hsub.map _).mem ha), fun ino => ?_⟩
  have hfits := countP_lt fs.files h.nodup h.addrs fun entry => entry.2.inode = some ino
  have hfree := countP_filter_ne h.nodup hf fun entry => entry.2.inode = some ino
  have hcount := h.count ino
  simp only [Vfs.openFiles, Vfs.kfree, Vfs.count, hi, Option.some.injEq] at hfree hcount ⊢
  rcases eq_or_ne ino i with rfl | hne
  · simp only [decide_true, if_true] at hfree ⊢
    rw [hcount, sub32_of_le (by omega) hfits]
    omega
  · simp only [if_neg hne, decide_eq_false hne.symm, Bool.false_eq_true, if_false] at hfree ⊢
    omega

theorem Counted.vfsOpen (h : Counted fs) {ino : Option Nat} {answer : OpenAnswer} {addr : Nat} {file : Option Nat}
    (hopen : vfsOpen fs ino answer addr = some (file, fs')) : Counted fs' := by
  obtain ⟨-, herr⟩ | ⟨-, hfresh, i, -, rfl⟩ := vfsOpen_cases hopen
  · exact h.errorOnly herr
  · exact h.add hfresh answer

theorem Counted.vfsClose (h : Counted fs) {file : Nat} {answer err : Int} (hclose : vfsClose fs (some file) answer = some (err, fs')) :
    Counted fs' := by
  obtain ⟨-, rfl⟩ | ⟨-, f, i, hf, hi, rfl⟩ := vfsClose_cases hclose
  · exact h
  · exact h.remove hf hi

theorem Counted.closeFiles (h : Counted fs) {answer : Nat → Int} {i : Nat} {files : List (Option Nat)}
    (hclose : closeFiles fs answer i files = some fs') : Counted fs' := by
  induction files generalizing fs i with
  | nil =>
    cases hclose
    exact h
  | cons file files ih =>
    cases file with
    | none => exact ih h hclose
    | some file =>
      obtain ⟨⟨err, fs₁⟩, hfile, hrest⟩ := Option.bind_eq_some_iff.mp hclose
      exact ih (h.vfsClose hfile) hrest

theorem cloneFiles_of_none {answer : Nat → DupAnswer × Nat} {i : Nat} {files copies : List (Option Nat)}
    (hnone : ∀ file ∈ files, file = none) (hclone : cloneFiles fs answer i files = some (copies, fs')) : fs' = fs := by
  induction files generalizing i copies with
  | nil =>
    cases hclone
    rfl
  | cons file files ih =>
    obtain ⟨rfl, hrest⟩ := List.forall_mem_cons.mp hnone
    obtain ⟨⟨copies', fs₁⟩, hclone, h⟩ := Option.map_eq_some_iff.mp hclone
    cases h
    exact ih hrest hclone

theorem counted_step {c : VfsCall} (h : Counted fs) (hc : NoDup c) (hstep : vfsStep fs c = some fs') : Counted fs' := by
  cases c with
  | «open» ino answer addr =>
    obtain ⟨⟨file, fs₁⟩, hopen, rfl⟩ := Option.map_eq_some_iff.mp hstep
    exact h.vfsOpen hopen
  | close file answer =>
    obtain ⟨⟨err, fs₁⟩, hclose, rfl⟩ := Option.map_eq_some_iff.mp hstep
    cases file with
    | none =>
      cases hclose
      exact h
    | some file => exact h.vfsClose hclose
  | dup file answer newf =>
    obtain rfl : file = none := hc
    cases hstep
    exact h.errorOnly ⟨_, rfl⟩
  | clone data answer =>
    obtain ⟨⟨copy, fs₁⟩, hclone, rfl⟩ := Option.map_eq_some_iff.mp hstep
    obtain ⟨⟨copies, fs₂⟩, hclone, hcopy⟩ := Option.map_eq_some_iff.mp hclone
    cases hcopy
    rw [cloneFiles_of_none hc hclone]
    exact h
  | free data answer => exact h.closeFiles hstep

theorem vfsUnlink_refuses_iff (fs : Vfs) (ino : Nat) :
    (∀ answer, vfsUnlink fs (some ino) answer = -eagain) ↔ (fs.inodes ino).opencount ≠ 0 := by
  constructor
  · intro h hzero
    have h0 := h 0
    simp only [vfsUnlink, hzero, ne_eq, not_true_eq_false, if_false] at h0
    split at h0 <;> cases h0
  · intro h answer
    simp [vfsUnlink, h]

end

end OpenCountAux

open OpenCountAux

/-- In every run that does not duplicate an open file, the open count of an inode is the number of its open files, and `vfs_unlink`
refuses exactly the inodes that have one, whatever the driver would answer. -/
theorem opencount_of_noDup (fs₀ fs : Vfs) (hstart : NothingOpen fs₀) (h : Reach vfsStep (fun _ c => NoDup c) fs₀ fs) (ino : Nat) :
    (fs.inodes ino).opencount = fs.openFiles ino ∧
      ((∀ answer, vfsUnlink fs (some ino) answer = -eagain) ↔ ∃ entry ∈ fs.files, entry.2.inode = some ino) := by
  have hinit : Counted fs₀ := by
    refine ⟨?_, ?_, fun ino => ?_⟩
    · simp [hstart.1]
    · simp [hstart.1]
    · simp [Vfs.openFiles, hstart.1, hstart.2]
  have hcounted := h.inv Counted hinit fun _ _ _ hc hd hs => counted_step hc hd hs
  refine ⟨hcounted.count ino, ?_⟩
  rw [vfsUnlink_refuses_iff, hcounted.count, Vfs.openFiles, ← Nat.pos_iff_ne_zero, List.countP_pos_iff]
  simp

/-- The terminal: an inode that can be opened and unlinked, with files that can be closed and have no `dup`. -/
def terminal : Vfs where
  inodes := fun _ => ⟨1, 0, 0, true, true, none⟩
  root := 0
  fsError := -enosys
  files := []

/-- Opens the inode of the terminal, successfully. -/
def openTerminal (addr : Nat) : VfsCall := .open (some 0) ⟨0, some ⟨true, false⟩, 0⟩ addr

/-- Opens it twice, and closes one of the two files. -/
def openTwice : List VfsCall := [openTerminal 4096, openTerminal 8192, .close (some 4096) 0]

theorem terminal_counted : ∃ fs, runIf vfsStep (fun _ c => NoDup c) terminal openTwice = some fs ∧ fs.openFiles 0 = 1 ∧
    (fs.inodes 0).opencount = 1 ∧ ∀ answer, vfsUnlink fs (some 0) answer = -eagain := by
  have hrun : (runIf vfsStep (fun _ c => NoDup c) terminal openTwice).any
      (fun fs => fs.openFiles 0 = 1 ∧ ∃ entry ∈ fs.files, entry.2.inode = some 0) = true := by decide
  obtain ⟨fs, hfs, hopen⟩ := (Option.any_eq_true _ _).mp hrun
  obtain ⟨hone, hentry⟩ := of_decide_eq_true hopen
  have h := opencount_of_noDup terminal fs ⟨rfl, fun _ => rfl⟩ (Reach.init.runIf openTwice hfs) 0
  exact ⟨fs, hfs, hone, h.1.trans hone, h.2.mpr hentry⟩

/-- A duplicated file: after one of the two is closed, the inode counts none and is not refused; after the other, it counts -1. -/
theorem terminal_miscounted :
    ([openTerminal 4096, .dup (some 4096) ⟨0, ⟨none, 0, none⟩⟩ 8192, .close (some 8192) 0].foldlM vfsStep terminal).any (fun fs =>
      (fs.inodes 0).opencount = 0 ∧ fs.openFiles 0 = 1 ∧ vfsUnlink fs (some 0) 0 = 0 ∧
      (vfsStep fs (.close (some 4096) 0)).any fun fs => (fs.inodes 0).opencount = 4294967295 ∧ fs.openFiles 0 = 0) := by
  decide

end Kos
