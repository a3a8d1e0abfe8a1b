import Kos.Lemmas.CloneNeeds

/-!
# A copied address space

`vm_clone_addrspace` gives the child a copy of every page that the parent has below its `brk_page` and of the stack: with the same flags,
the same bytes, and in a frame that was free. The parent keeps its pages and their bytes, and no frame is shared. When there are not
enough pages the copy is not complete.
-/

namespace Kos

/-- The page is one that the child gets from its parent: below `brk_page`, or the user stack. -/
def Inherited (brkPage n : Nat) : Prop := UserPage n ∧ (n * pageSize < brkPage ∨ n = userStackPage / pageSize)

instance (brkPage n : Nat) : Decidable (Inherited brkPage n) := inferInstanceAs (Decidable (_ ∧ _))

/-- The address space `newpd` is a copy of `pdir`. -/
structure SpaceCopied (m : Machine) (memory : Memory) (pdir brkPage newpd : Nat) (s : Copier) : Prop where
  pages : ∀ n f flags, Inherited brkPage n → pageMap m.vm pdir n = some (f, flags) →
    ∃ f', pageMap s.m.vm newpd n = some (f', flags) ∧ isFree m.vm.mm.mmap f' = true ∧ ∀ j < pageSize, s.memory (f' + j) = memory (f + j)
  absent : ∀ n, UserPage n → pageMap m.vm pdir n = none → pageMap s.m.vm newpd n = none
  parent : ∀ n, UserPage n → pageMap s.m.vm pdir n = pageMap m.vm pdir n
  bytes : ∀ n f flags, UserPage n → pageMap m.vm pdir n = some (f, flags) → ∀ j < pageSize, s.memory (f + j) = memory (f + j)
  apart : ∀ n n' f f' flags flags', UserPage n → UserPage n' → pageMap s.m.vm pdir n = some (f, flags) →
    pageMap s.m.vm newpd n' = some (f', flags') → ∀ j < pageSize, ∀ j' < pageSize, f + j ≠ f' + j'

namespace CloneAux

theorem mem_clonedPages {brkPage n : Nat} (hn : UserPage n) (hb : n * pageSize < brkPage) : n * pageSize ∈ clonedPages brkPage := by
  obtain ⟨hge, -⟩ := hn
  refine List.mem_map.mpr ⟨n - 196608, List.mem_range.mpr ?_, ?_⟩
  · simp only [kernSpaceEnd, pageSize] at hb ⊢
    omega
  · simp only [kernSpaceEnd, pageSize]
    omega

/-- The copy looks at every page that the child is to get. -/
theorem looked_at {brkPage n : Nat} (h : Inherited brkPage n) : ∃ v ∈ clonedPages brkPage ++ [userStackPage], n = v / 4096 := by
  obtain ⟨hn, hb | rfl⟩ := h
  · exact ⟨n * pageSize, List.mem_append_left _ (mem_clonedPages hn hb), (Nat.mul_div_cancel n (by decide)).symm⟩
  · exact ⟨userStackPage, List.mem_append_right _ (List.mem_singleton_self _), rfl⟩

theorem spaceCopied_of_cloning {own own' : Owners} {m : Machine} {memory : Memory} {q pdir brkPage p newpd : Nat} {s' : Copier}
    (hu : InUse own m.vm) (hs : Space own m.vm q pdir) (hpq : p ≠ q)
    (h : Cloning m memory q pdir p newpd (fun n => ∃ v ∈ clonedPages brkPage ++ [userStackPage], n = v / 4096) own' s') :
    SpaceCopied m memory pdir brkPage newpd s' := by
  refine ⟨?_, ?_, ?_, ?_, ?_⟩
  · intro n f flags hin hparent
    have hcopied := h.copied n hin.1 (looked_at hin)
    unfold PageCopied at hcopied
    rwa [hparent] at hcopied
  · intro n hn hnone
    by_cases hdone : ∃ v ∈ clonedPages brkPage ++ [userStackPage], n = v / 4096
    · have hcopied := h.copied n hn hdone
      unfold PageCopied at hcopied
      rwa [hnone] at hcopied
    · exact h.absent n hn hdone
  · intro n hn
    exact h.pageMap_parent hn
  · intro n f flags hn hparent j hj
    obtain ⟨hused, hmod⟩ := hs.used hu hn hparent
    simp only [pageSize] at hj
    refine h.bytes _ ?_
    rw [isFree_congr _ (show (f + j) / 4096 = f / 4096 by omega)]
    exact hused
  · intro n n' f f' flags flags' hn hn' hparent hchild j hj j' hj' he
    have hown := h.parentSpace.own_of_mapped hn (mapped_of_pageMap hparent)
    have hown' := h.childSpace.own_of_mapped hn' (mapped_of_pageMap hchild)
    obtain ⟨-, hmod⟩ := h.parentSpace.used h.kernelOk.owned.toInUse hn hparent
    obtain ⟨-, hmod'⟩ := h.childSpace.used h.kernelOk.owned.toInUse hn' hchild
    simp only [pageSize] at hj hj'
    rw [show f = f' by omega, hown'] at hown
    exact hpq (Owner.page.inj (Option.some.inj hown)).1

end CloneAux

open CloneAux

/-- A copy that is complete is a copy of the parent's address space, whatever the kernel does for itself meanwhile. It is complete if there
are enough pages, where the kernel needs none. (`brk_page` is the address of a page, or the loop would not end.) -/
theorem cloneAddrspace_copied {own : Owners} {m : Machine} {q pdir : Nat} (memory : Memory) (brkPage : Nat) (hk : KernelOk own m)
    (hs : Space own m.vm q pdir) (hkeep : m.KeepsPages) (hb : brkPage ≤ 0xFFFFF000) :
    (∀ newpd s', Copier.cloneAddrspace ⟨m, memory⟩ brkPage pdir = some (newpd, true, s') → SpaceCopied m memory pdir brkPage newpd s') ∧
      (m.work = [] → m.vm.mm.hasPages (cloneNeeds m.vm pdir brkPage) = true →
        ∃ newpd s', Copier.cloneAddrspace ⟨m, memory⟩ brkPage pdir = some (newpd, true, s')) := by
  constructor
  · intro newpd s' h
    obtain ⟨own', hcloning⟩ := cloneAddrspace_cloning hk hs hkeep (by omega) h
    exact spaceCopied_of_cloning hk.owned.toInUse hs (Nat.succ_ne_self q) hcloning
  · intro hw henough
    exact (cloneAddrspace_iff memory hk hs hw (by omega)).mpr henough

/-- The directory of a process, with a page at the start of user space and its stack. -/
def parentTabs (f i : Nat) : Entry :=
  if f = 0x100000 ∧ i = 0 then 0x101003#32
  else if f = 0x101000 ∧ i = 0 then 0x1#32
  else if f = 0x102000 ∧ i = 0 then 0x101003#32
  else if f = 0x102000 ∧ i = 256 then 0x103007#32
  else if f = 0x103000 ∧ i = 0 then 0x104007#32
  else if f = 0x102000 ∧ i = 1023 then 0x105007#32
  else if f = 0x105000 ∧ i = 1007 then 0x106007#32
  else 0#32

theorem parentMachine_memEnd_lt : 0x200000 < 4294967296 := by decide

/-- A machine with 2 MiB of memory and this process; the frames from 1 MiB on are in use. -/
def parentMachine : Machine where
  vm := {
    mm := ⟨fun i => if i = 8 then 0xFFFFFF80#32 else 0xFFFFFFFF#32, 0x200000, .ok, parentMachine_memEnd_lt⟩
    tabs := parentTabs
    kernelPdir := 0x100000
    kpdirRev := 0 }
  procs := fun _ => ⟨false, 0, 0, 0, 0, false, none⟩
  kernelPages := []
  work := []

def parentOwners : Owners := fun f =>
  if f = 0x100000 then some .kernelPdir
  else if f = 0x101000 then some (.kernelTab 0)
  else if f = 0x102000 then some (.pdir 7)
  else if f = 0x103000 then some (.table 7 256)
  else if f = 0x104000 then some (.page 7 262144)
  else if f = 0x105000 then some (.table 7 1023)
  else if f = 0x106000 then some (.page 7 1048559)
  else none

namespace CloneAux

theorem kernelTabs_present {i : Nat} (h : present (parentTabs 0x100000 i) = true) : i = 0 := by
  by_contra hne
  simp [parentTabs, hne] at h
  exact absurd h (by decide)

theorem parentTabs_present {i : Nat} (h : present (parentTabs 0x102000 i) = true) : i = 0 ∨ i = 256 ∨ i = 1023 := by
  by_contra hne
  simp only [not_or] at hne
  simp [parentTabs, hne] at h
  exact absurd h (by decide)

theorem parent_kernelOk : KernelOk parentOwners parentMachine := by
  refine ⟨⟨⟨by decide, fun f o hf => ?_⟩, by decide, fun i _ hp => ?_, by decide, by decide⟩, fun f hf => by cases hf⟩
  · unfold parentOwners at hf
    split_ifs at hf with h₁ h₂ h₃ h₄ h₅ h₆ h₇ <;> subst f <;> decide
  · rw [kernelTabs_present hp]
    decide

theorem parent_space : Space parentOwners parentMachine.vm 7 0x102000 := by
  refine ⟨by decide, fun i _ hp => ?_, fun i _ hu hp j _ hj => ?_, by decide⟩
  · rcases parentTabs_present hp with rfl | rfl | rfl <;> decide
  · rcases parentTabs_present hp with rfl | rfl | rfl
    · omega
    · have hj0 : j = 0 := by
        by_contra hne
        have hframe : getaddr (parentMachine.vm.tabs 0x102000 256) = 0x103000 := by decide
        rw [hframe] at hj
        simp [parentMachine, parentTabs, hne] at hj
        exact absurd hj (by decide)
      subst hj0
      decide
    · have hj0 : j = 1007 := by
        by_contra hne
        have hframe : getaddr (parentMachine.vm.tabs 0x102000 1023) = 0x105000 := by decide
        rw [hframe] at hj
        simp [parentMachine, parentTabs, hne] at hj
        exact absurd hj (by decide)
      subst hj0
      decide

theorem clonedPages_succ {brkPage : Nat} (hlow : kernSpaceEnd < brkPage) (hal : brkPage % 4096 = 0) :
    clonedPages (brkPage + 4096) = clonedPages brkPage ++ [brkPage] := by
  unfold clonedPages
  simp only [kernSpaceEnd, pageSize] at hlow ⊢
  have hsucc : (brkPage + 4096 - (805306367 + 1) + 4095) / 4096 = (brkPage - (805306367 + 1) + 4095) / 4096 + 1 := by omega
  have hlast : 805306367 + 1 + (brkPage - (805306367 + 1) + 4095) / 4096 * 4096 = brkPage := by omega
  rw [hsucc, List.range_succ, List.map_append, List.map_singleton, hlast]

theorem clonedPages_below {brkPage v : Nat} (hal : brkPage % 4096 = 0) (hv : v ∈ clonedPages brkPage) : kernSpaceEnd < v ∧ v < brkPage := by
  obtain ⟨k, hk, rfl⟩ := List.mem_map.mp hv
  have hk := List.mem_range.mp hk
  simp only [kernSpaceEnd, pageSize] at hk ⊢
  omega

/-- The pages for a process whose only pages are the last one below its `brk_page` and the stack. -/
theorem cloneNeeds_last {vm : Vm} {pdir brkPage : Nat} (hlow : kernSpaceEnd < brkPage) (hal : brkPage % 4096 = 0)
    (h : ∀ v, kernSpaceEnd < v → v < brkPage → getPtabEntry vm pdir v = 0#32) : cloneNeeds vm pdir (brkPage + 4096) =
      1 + pagesNeeded (getPtabEntry vm pdir) (fun i => present (vm.tabs vm.kernelPdir i)) [brkPage, userStackPage] := by
  unfold cloneNeeds
  rw [clonedPages_succ hlow hal, List.append_assoc, pagesNeeded_absent]
  · rfl
  · intro v hv
    obtain ⟨hv, hv'⟩ := clonedPages_below hal hv
    exact h v hv hv'

/-- There are no pages in the info space, which the copy looks at first. -/
theorem parent_info {v : Nat} (hlow : kernSpaceEnd < v) (hlt : v < 0x40000000) : getPtabEntry parentMachine.vm 0x102000 v = 0#32 := by
  have hpde : present (parentMachine.vm.tabs 0x102000 (v / 4096 / 1024)) = false := by
    rw [← Bool.not_eq_true]
    intro hp
    have hi := parentTabs_present hp
    simp only [kernSpaceEnd] at hlow
    omega
  rw [PageMapAux.getPtabEntry_eq, PageMapAux.pageEntry_eq_none hpde]
  rfl

theorem parent_needs : cloneNeeds parentMachine.vm 0x102000 (0x40000000 + 4096) = 5 :=
  (cloneNeeds_last (by decide) (by decide) fun _ => parent_info).trans (by decide)

end CloneAux

/-- The process is copied: five frames are enough. -/
theorem parent_copied : ∃ newpd s', Copier.cloneAddrspace ⟨parentMachine, fun a => UInt8.ofNat a⟩ (0x40000000 + 4096) 0x102000 = some (newpd, true, s') ∧
    pageMap parentMachine.vm 0x102000 262144 = some (0x104000, vmUserFlags) ∧
    SpaceCopied parentMachine (fun a => UInt8.ofNat a) 0x102000 (0x40000000 + 4096) newpd s' := by
  obtain ⟨hcopied, henough⟩ := cloneAddrspace_copied (fun a => UInt8.ofNat a) (0x40000000 + 4096) parent_kernelOk parent_space nofun (by decide)
  have hpages : ∀ n, n = 5 → parentMachine.vm.mm.hasPages n = true := by
    rintro n rfl
    decide +kernel
  obtain ⟨newpd, s', h⟩ := henough rfl (hpages _ parent_needs)
  exact ⟨newpd, s', h, by decide, hcopied newpd s' h⟩

end Kos
