import Kos.Lib.Run
import Kos.Lemmas.ProcSpace

/-!
# No frame is shared in user space

In every run of process creation, `fork`, `sbrk`, `exit` and kills, a frame that a living process has mapped in user space is in use,
and it is mapped at one address of one process only. The kernel's own work may take and give back pages of the kernel, and change
its mappings; at the start, its page directory has no table for user space.
-/

namespace Kos

/-- The machine when the first process is created. The kernel's page directory and its tables are different frames in use, which the
kernel will not give back; page 0 is mapped to itself. -/
structure Booted (m : Machine) : Prop where
  memEnd : 131072 ≤ m.vm.mm.memEnd
  noProc : ∀ p, (m.procs p).live = false
  pages : ∀ f ∈ m.kernelPages, isFree m.vm.mm.mmap f = false ∧ f % 4096 = 0 ∧ 0 < f
  dir : isFree m.vm.mm.mmap m.vm.kernelPdir = false ∧ m.vm.kernelPdir % 4096 = 0 ∧ 0 < m.vm.kernelPdir
  dir_kept : m.vm.kernelPdir ∉ m.kernelPages
  noUser : ∀ i < 1024, present (m.vm.tabs m.vm.kernelPdir i) = true → i < 256
  tab : ∀ i < 256, present (m.vm.tabs m.vm.kernelPdir i) = true →
    isFree m.vm.mm.mmap (getaddr (m.vm.tabs m.vm.kernelPdir i)) = false ∧ 0 < getaddr (m.vm.tabs m.vm.kernelPdir i) ∧
      getaddr (m.vm.tabs m.vm.kernelPdir i) ≠ m.vm.kernelPdir ∧ getaddr (m.vm.tabs m.vm.kernelPdir i) ∉ m.kernelPages
  tabs_ne : ∀ i < 256, ∀ j < 256, present (m.vm.tabs m.vm.kernelPdir i) = true → present (m.vm.tabs m.vm.kernelPdir j) = true →
    getaddr (m.vm.tabs m.vm.kernelPdir i) = getaddr (m.vm.tabs m.vm.kernelPdir j) → i = j
  low : present (m.vm.tabs m.vm.kernelPdir 0) = true
  lowPage : present (m.vm.tabs (getaddr (m.vm.tabs m.vm.kernelPdir 0)) 0) = true ∧
    getaddr (m.vm.tabs (getaddr (m.vm.tabs m.vm.kernelPdir 0)) 0) = 0

/-- The living process `p` has the page at the user address `v` mapped to the frame `f`. -/
def UserMapped (m : Machine) (p v f : Nat) : Prop :=
  (m.procs p).live = true ∧ userSpaceStart ≤ v ∧ v < 4294967296 ∧ v % pageSize = 0 ∧
    present (getPtabEntry m.vm (m.procs p).pdir v) = true ∧ getaddr (getPtabEntry m.vm (m.procs p).pdir v) = f

instance (m : Machine) (p v f : Nat) : Decidable (UserMapped m p v f) := inferInstanceAs (Decidable (_ ∧ _))

/-- A frame in user space is in use, and is mapped at one address of one process. -/
structure FramesApart (m : Machine) : Prop where
  used : ∀ p v f, UserMapped m p v f → isFree m.vm.mm.mmap f = false
  once : ∀ p v v' f, UserMapped m p v f → UserMapped m p v' f → v = v'
  apart : ∀ p q v v' f, p ≠ q → UserMapped m p v f → ¬UserMapped m q v' f

namespace UserFramesAux

/-- The owners when the machine has booted. -/
def bootOwners (m : Machine) : Owners := fun f =>
  if f = m.vm.kernelPdir then some .kernelPdir
  else if f ∈ m.kernelPages then some .kernelPage
  else ((List.range 256).find? fun i =>
    present (m.vm.tabs m.vm.kernelPdir i) && decide (getaddr (m.vm.tabs m.vm.kernelPdir i) = f)).map .kernelTab

theorem bootOwners_tab {m : Machine} (h : Booted m) {i : Nat} (hi : i < 256) (hp : present (m.vm.tabs m.vm.kernelPdir i) = true) :
    bootOwners m (getaddr (m.vm.tabs m.vm.kernelPdir i)) = some (.kernelTab i) := by
  obtain ⟨-, -, hne, hnot⟩ := h.tab i hi hp
  rw [bootOwners, if_neg hne, if_neg hnot]
  cases hfind : (List.range 256).find? fun j => present (m.vm.tabs m.vm.kernelPdir j) &&
      decide (getaddr (m.vm.tabs m.vm.kernelPdir j) = getaddr (m.vm.tabs m.vm.kernelPdir i)) with
  | none =>
    have := List.find?_eq_none.mp hfind i (List.mem_range.mpr hi)
    simp [hp] at this
  | some j =>
    have hj := List.find?_some hfind
    simp only [Bool.and_eq_true, decide_eq_true_eq] at hj
    have hmem := List.mem_range.mp (List.mem_of_find?_eq_some hfind)
    rw [Option.map_some, h.tabs_ne j hmem i hi hj.1 hp hj.2]

theorem bootOwners_used {m : Machine} (h : Booted m) {f : Nat} {o : Owner} (hf : bootOwners m f = some o) :
    isFree m.vm.mm.mmap f = false ∧ f % 4096 = 0 ∧ 0 < f := by
  unfold bootOwners at hf
  split at hf
  · rename_i he
    rw [he]
    exact h.dir
  · split at hf
    · rename_i hmem
      exact h.pages f hmem
    · obtain ⟨i, hfind, -⟩ := Option.map_eq_some_iff.mp hf
      have hi := List.find?_some hfind
      simp only [Bool.and_eq_true, decide_eq_true_eq] at hi
      obtain ⟨hp, rfl⟩ := hi
      obtain ⟨hused, hpos, -⟩ := h.tab i (List.mem_range.mp (List.mem_of_find?_eq_some hfind)) hp
      exact ⟨hused, getaddr_mod _, hpos⟩

theorem spaceInv_start {m : Machine} (h : Booted m) : SpaceInv (bootOwners m) m := by
  refine ⟨⟨⟨⟨h.memEnd, fun f o => bootOwners_used h⟩, if_pos rfl, fun i hi hp => ?_, h.low, h.lowPage⟩, fun f hf => ?_⟩, fun q hq => ?_⟩
  · exact ⟨h.noUser i hi hp, bootOwners_tab h (h.noUser i hi hp) hp⟩
  · have hne : f ≠ m.vm.kernelPdir := fun he => h.dir_kept (he ▸ hf)
    rw [bootOwners, if_neg hne, if_pos hf]
  · rw [h.noProc q] at hq
    cases hq

/-- Every call keeps the owners. -/
theorem spaceInv_step {m m' : Machine} {call : SpaceCall × List (List KernelAction)} (h : ∃ own, SpaceInv own m)
    (hs : SpaceCall.perform m call = some m') : ∃ own, SpaceInv own m' := by
  obtain ⟨own, h⟩ := h
  obtain ⟨call, work⟩ := call
  have h := h.withWork work
  cases call with
  | create =>
    obtain ⟨⟨p, m₁⟩, hc, rfl⟩ := Option.map_eq_some_iff.mp hs
    obtain ⟨own', hinv, -⟩ := pmCreate_inv h hc
    exact ⟨own', hinv⟩
  | exec phdrs =>
    obtain ⟨⟨r, m₁⟩, he, rfl⟩ := Option.map_eq_some_iff.mp hs
    exact elf32Exec_inv h he
  | fork p =>
    simp only [SpaceCall.perform] at hs
    split at hs
    · rename_i hp
      obtain ⟨⟨r, m₁⟩, hf, rfl⟩ := Option.map_eq_some_iff.mp hs
      exact pmFork_inv h hp hf
    · cases hs
  | sbrk p incr =>
    simp only [SpaceCall.perform] at hs
    split at hs
    · rename_i hp
      obtain ⟨⟨r, m₁⟩, hb, rfl⟩ := Option.map_eq_some_iff.mp hs
      exact sysSbrk_inv h hp hb
    · cases hs
  | exit p | exception p =>
    simp only [SpaceCall.perform] at hs
    split at hs
    · rename_i hp
      exact pmDestroy_inv h hp hs
    · cases hs
  | kernel =>
    obtain ⟨own', hinv, -⟩ := h.kernelWork hs
    exact ⟨own', hinv⟩

/-- What is mapped in user space belongs to its process. -/
theorem own_of_userMapped {own : Owners} {m : Machine} (h : SpaceInv own m) {p v f : Nat} (hm : UserMapped m p v f) :
    own f = some (.page p (v / 4096)) := by
  obtain ⟨hp, hu, hv, hmod, hpte, haddr⟩ := hm
  have huser : UserPage (v / 4096) := by
    simp only [userSpaceStart] at hu
    exact ⟨by omega, by omega⟩
  refine (h.holds p hp).space.own_of_mapped huser ?_
  have hne : ¬bnotset (m.vm.tabs (m.procs p).pdir (pdirIndex v)) pePresent = true := fun hb => by
    rw [getPtabEntry, if_pos hb] at hpte
    cases hpte
  have hset : bisset (m.vm.tabs (getaddr (m.vm.tabs (m.procs p).pdir (pdirIndex v))) (ptabIndex v)) pePresent = true := by
    by_contra hb
    rw [getPtabEntry, if_neg hne, if_neg hb] at hpte
    cases hpte
  rw [getPtabEntry, if_neg hne, if_pos hset] at haddr
  rw [bnotset_eq, Bool.not_eq_true', Bool.not_eq_false] at hne
  exact ⟨hne, hset, haddr⟩

theorem framesApart_of_inv {own : Owners} {m : Machine} (h : SpaceInv own m) : FramesApart m := by
  refine ⟨fun p v f hm => (h.kernelOk.owned.used f _ (own_of_userMapped h hm)).1, fun p v v' f hm hm' => ?_,
    fun p q v v' f hpq hm hm' => ?_⟩
  · have heq := (own_of_userMapped h hm).symm.trans (own_of_userMapped h hm')
    have hpage : v / 4096 = v' / 4096 := by simpa using heq
    obtain ⟨-, -, -, hmod, -⟩ := hm
    obtain ⟨-, -, -, hmod', -⟩ := hm'
    simp only [pageSize] at hmod hmod'
    omega
  · have heq := (own_of_userMapped h hm).symm.trans (own_of_userMapped h hm')
    simp only [Option.some.injEq, Owner.page.injEq] at heq
    exact hpq heq.1

end UserFramesAux

open UserFramesAux

/-- In every state that the calls reach, no frame is shared in user space. -/
theorem user_frames_apart {m₀ m : Machine} (h₀ : Booted m₀) (h : Reach SpaceCall.perform (fun _ _ => True) m₀ m) : FramesApart m := by
  obtain ⟨own, hinv⟩ := h.inv (fun m => ∃ own, SpaceInv own m) ⟨_, spaceInv_start h₀⟩ fun _ _ _ hs _ hstep => spaceInv_step hs hstep
  exact framesApart_of_inv hinv

/-- A machine with 2 MiB of memory: the kernel's page directory at 1 MiB, behind it the table that maps page 0. -/
def smallMachine : Machine where
  vm := {
    mm := ⟨fun i => if i = 8 then 0xFFFFFFFC#32 else 0xFFFFFFFF#32, 0x200000, .ok, by decide⟩
    tabs := fun f i => if f = 0x100000 ∧ i = 0 then 0x101003#32 else if f = 0x101000 ∧ i = 0 then 0x1#32 else 0#32
    kernelPdir := 0x100000
    kpdirRev := 0 }
  procs := fun _ => ⟨false, 0, 0, 0, 0, false, none⟩
  kernelPages := []
  work := []

theorem booted_smallMachine : Booted smallMachine := by
  have htab : ∀ i, present (smallMachine.vm.tabs smallMachine.vm.kernelPdir i) = true → i = 0 := by
    intro i hi
    by_contra hne
    simp [smallMachine, hne] at hi
    exact absurd hi (by decide)
  refine ⟨by decide, fun _ => rfl, fun _ hf => (by cases hf), by decide, fun hf => (by cases hf), fun i _ hp => ?_, fun i _ hp => ?_,
    fun i _ j _ hi hj _ => ?_, by decide, by decide⟩
  · rw [htab i hp]
    decide
  · rw [htab i hp]
    decide
  · rw [htab i hi, htab j hj]

/-- A program is loaded, and a second process is created. -/
theorem user_frames_two_processes : ∃ m f g, Reach SpaceCall.perform (fun _ _ => True) smallMachine m ∧
    UserMapped m 0 0x40000000 f ∧ UserMapped m 1 userStackPage g ∧ FramesApart m := by
  let calls : List (SpaceCall × List (List KernelAction)) :=
    [(.exec [⟨ptLoad, 0x40000010, 100, by decide, by decide⟩], [[.use 0x91000]]), (.create, [])]
  have hrun : ((SpaceCall.perform smallMachine calls[0]).bind (SpaceCall.perform · calls[1])).map
      (fun m => decide (UserMapped m 0 0x40000000 0x94000 ∧ UserMapped m 1 userStackPage 0x97000)) = some true := by decide +kernel
  obtain ⟨m, hm, hmapped⟩ := Option.map_eq_some_iff.mp hrun
  obtain ⟨m₁, h₁, h₂⟩ := Option.bind_eq_some_iff.mp hm
  have hreach : Reach SpaceCall.perform (fun _ _ => True) smallMachine m := .step _ (.step _ .init trivial h₁) trivial h₂
  obtain ⟨hf, hg⟩ := of_decide_eq_true hmapped
  exact ⟨m, _, _, hreach, hf, hg, user_frames_apart booted_smallMachine hreach⟩

end Kos
