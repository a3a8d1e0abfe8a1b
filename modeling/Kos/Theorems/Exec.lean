import Kos.Lemmas.Chain
import Kos.Lemmas.CloneNeeds
import Kos.Lemmas.Table
import Kos.Pm.Exec
import Kos.Theorems.Clone

/-!
# A program that cannot be loaded

`elf32_exec` creates the process of a program blocked, and so it is not in the ready queue when `pm_destroy` is called because a segment
cannot be loaded. `pm_deactivate` does not find it there, and follows a null pointer: `elf32_exec` never returns 0.
-/

namespace Kos

/-- `elf32_map_segment` refuses the segment. -/
def Phdr.Low (phdr : Phdr) : Prop := phdr.type = ptLoad ∧ phdr.memsz ≠ 0 ∧ alignAddr phdr.vaddr < confProgBaseMin

instance (phdr : Phdr) : Decidable phdr.Low := inferInstanceAs (Decidable (_ ∧ _))

/-- The pages of a segment. -/
def Phdr.pages (phdr : Phdr) : List Nat :=
  if phdr.type = ptLoad then (List.range (numPages phdr.memsz)).map (pageOf (alignAddr phdr.vaddr)) else []

/-- The pages for a process with these segments: its page directory, its kernel stack, its user stack, the pages of the segments, and the
tables of these that the kernel does not have. -/
def execNeeds (vm : Vm) (phdrs : List Phdr) : Nat :=
  pagesNeeded (fun _ => 1#32) (fun i => present (vm.tabs vm.kernelPdir i)) (userStackPage :: phdrs.flatMap Phdr.pages) + 2

/-- Some segment cannot be loaded: its base is too low, or there are pages for a process, but not for its segments, where the kernel
needs no page for its heap and its windows. -/
def Unloadable (m : Machine) (phdrs : List Phdr) : Prop :=
  (∃ phdr ∈ phdrs, phdr.Low) ∨
    m.work = [] ∧ m.vm.mm.hasPages (execNeeds m.vm []) = true ∧ m.vm.mm.hasPages (execNeeds m.vm phdrs) = false

instance (m : Machine) (phdrs : List Phdr) : Decidable (Unloadable m phdrs) := inferInstanceAs (Decidable (_ ∨ _))

/-- The frame is a page table of a process, or its kernel stack. -/
def ExecState.TableOrKstack (s : ExecState) (f : Nat) : Prop :=
  ∃ p : ProcRef, f = s.kstackAddr p ∨
    ∃ i < 1024, present (s.m.vm.tabs (s.m.procs p).pdir i) = true ∧ f = getaddr (s.m.vm.tabs (s.m.procs p).pdir i)

/-- The ready queue, the live processes and the free pages are as before, except for page tables and kernel stacks. -/
structure Restored (s s' : ExecState) : Prop where
  queue : ∀ l, Links s.table.pm.next s.table.pm.plistHead l → Links s'.table.pm.next s'.table.pm.plistHead l
  live : ∀ p, s'.table.pm.Live p ↔ s.table.pm.Live p
  pages : ∀ f, f % 4096 = 0 → isFree s'.m.vm.mm.mmap f ≠ isFree s.m.vm.mm.mmap f → s'.TableOrKstack f

namespace ExecAux

open SpaceAux PageMapAux

/-! ## The pages that are taken -/

/-- There are pages for new pages at these addresses in the directory `pdir`, and `k` more. -/
def Enough (m : Machine) (pdir k : Nat) (addrs : List Nat) : Prop :=
  m.vm.mm.hasPages (pagesNeeded (fun _ => 1#32) (fun i => present (m.vm.tabs pdir i)) addrs + k) = true

/-- The process `p` gets pages, and the kernel does nothing for itself. -/
structure Filling (own : Owners) (m : Machine) (p pdir : Nat) : Prop where
  kernelOk : KernelOk own m
  space : Space own m.vm p pdir
  calm : m.work = []

variable {own : Owners} {m m' : Machine} {p pdir : Nat}

theorem Filling.setProc (h : Filling own m p pdir) (f : ProcSpace → ProcSpace) : Filling own (m.setProc p f) p pdir :=
  ⟨⟨h.kernelOk.owned, h.kernelOk.kernelPages⟩, h.space, h.calm⟩

theorem Filling.newPage (h : Filling own m p pdir) {v page : Nat} (hv : v < 4294967296)
    (hn : newPage m pdir v vmUserFlags false = some (some page, m')) :
    (∃ own', Filling own' m' p pdir) ∧ m'.procs = m.procs ∧ ∀ k addrs, Enough m' pdir k addrs → Enough m pdir k (v :: addrs) := by
  obtain ⟨own', hmoves, hspace, -⟩ := newPage_moves h.kernelOk h.space hv present_vmUserFlags vmUserFlags_lt (by nofun) hn
  obtain ⟨hpages, hcalm, hmm⟩ := newPage_takes h.calm hn
  refine ⟨⟨own', hmoves.kernelOk, hspace, hcalm⟩, hmoves.procs, fun k addrs henough => ?_⟩
  have hneed : pagesNeeded (fun _ => 1#32) (fun i => present (m.vm.tabs pdir i)) (v :: addrs) =
      newPageNeeds m.vm pdir v + pagesNeeded (fun _ => 1#32) (fun i => present (m'.vm.tabs pdir i)) addrs := by
    rw [pagesNeeded, if_neg (by decide), newPageNeeds, tableNeeds]
    congr 1
    · split <;> rfl
    · refine pagesNeeded_congr (fun _ _ => rfl) fun w _ => ?_
      rw [newPage_tables h.kernelOk h.space h.calm hv present_vmUserFlags vmUserFlags_lt (by nofun) hn]
      by_cases heq : pdirIndex w = pdirIndex v
      · simp only [heq, Function.update_self, decide_true, Bool.true_or]
      · simp only [Function.update_of_ne heq, heq, decide_false, Bool.false_or]
  unfold Enough at henough ⊢
  rw [hneed, Nat.add_assoc, Mm.hasPages_add, hpages, Bool.true_and, ← hmm]
  exact henough

theorem Filling.allocMem (h : Filling own m p pdir) {base : Nat} {is : List Nat}
    (ha : elf32AllocMem pdir base is m = some (true, m')) :
    (∃ own', Filling own' m' p pdir) ∧ m'.procs = m.procs ∧
      ∀ k addrs, Enough m' pdir k addrs → Enough m pdir k (is.map (pageOf base) ++ addrs) := by
  induction is generalizing own m with
  | nil =>
    cases ha
    exact ⟨⟨own, h⟩, rfl, fun _ _ henough => henough⟩
  | cons i is ih =>
    rw [elf32AllocMem] at ha
    obtain ⟨⟨r, m₁⟩, hnew, ha⟩ := Option.bind_eq_some_iff.mp ha
    cases r with
    | none => cases ha
    | some page =>
      obtain ⟨⟨own₁, h₁⟩, hprocs, hfirst⟩ := h.newPage (w32_lt _) hnew
      obtain ⟨hfilling, hprocs', hrest⟩ := ih h₁ ha
      exact ⟨hfilling, hprocs'.trans hprocs, fun k addrs henough => hfirst k _ (hrest k addrs henough)⟩

/-- A segment that is loaded has taken its pages. -/
theorem Filling.mapSegment (h : Filling own m p (m.procs p).pdir) {phdr : Phdr} (htype : phdr.type = ptLoad)
    (hs : elf32MapSegment m p phdr = some (true, m')) :
    (∃ own', Filling own' m' p (m.procs p).pdir) ∧ (m'.procs p).pdir = (m.procs p).pdir ∧
      ∀ k addrs, Enough m' (m.procs p).pdir k addrs → Enough m (m.procs p).pdir k (phdr.pages ++ addrs) := by
  unfold elf32MapSegment at hs
  dsimp only at hs
  rw [Phdr.pages, if_pos htype]
  split at hs
  · rename_i hzero
    cases hs
    refine ⟨⟨own, h⟩, rfl, fun k addrs henough => ?_⟩
    rw [hzero]
    exact henough
  · split at hs
    · cases hs
    · obtain ⟨⟨ok, m₁⟩, hal, hs⟩ := Option.bind_eq_some_iff.mp hs
      cases ok with
      | false => cases hs
      | true =>
        obtain ⟨⟨own₁, h₁⟩, hprocs, henough⟩ := h.allocMem hal
        have h₂ := h₁.setProc fun proc => { proc with ldata := proc.ldata.map (⟨alignAddr phdr.vaddr, numPages phdr.memsz⟩ :: ·) }
        simp only [if_true, kernelWork_calm h₂.calm, Option.map_some, Option.some.injEq, Prod.mk.injEq, true_and] at hs
        subst hs
        refine ⟨⟨own₁, h₂⟩, ?_, henough⟩
        simp only [Machine.setProc, Function.update_self, hprocs]

/-- Segments that are all loaded have taken their pages. -/
theorem Filling.loadSegments {phdrs : List Phdr} (h : Filling own m p (m.procs p).pdir)
    (hl : loadSegments p phdrs m = some (true, m')) : Enough m (m.procs p).pdir 0 (phdrs.flatMap Phdr.pages) := by
  induction phdrs generalizing own m with
  | nil => rfl
  | cons phdr phdrs ih =>
    rw [Kos.loadSegments] at hl
    rw [List.flatMap_cons]
    split at hl
    · rename_i htype
      obtain ⟨⟨ok, m₁⟩, hseg, hl⟩ := Option.bind_eq_some_iff.mp hl
      cases ok with
      | false => cases hl
      | true =>
        obtain ⟨⟨own₁, h₁⟩, hpdir, henough⟩ := h.mapSegment htype hseg
        have hpdir' : ((m₁.setProc p (elf32Getbrk phdr)).procs p).pdir = (m.procs p).pdir := by
          simp only [Machine.setProc, Function.update_self, elf32Getbrk, hpdir]
        have h₁' : Filling own₁ (m₁.setProc p (elf32Getbrk phdr)) p ((m₁.setProc p (elf32Getbrk phdr)).procs p).pdir := by
          rw [hpdir']
          exact h₁.setProc _
        have hrest := ih h₁' hl
        rw [hpdir'] at hrest
        exact henough 0 _ hrest
    · rename_i htype
      rw [Phdr.pages, if_neg htype]
      exact ih h hl

/-- Segments that are all loaded are not too low. -/
theorem not_low_of_load {phdrs : List Phdr} (hl : Kos.loadSegments p phdrs m = some (true, m')) : ∀ phdr ∈ phdrs, ¬phdr.Low := by
  induction phdrs generalizing m with
  | nil => nofun
  | cons phdr phdrs ih =>
    rw [Kos.loadSegments] at hl
    rw [List.forall_mem_cons]
    split at hl
    · obtain ⟨⟨ok, m₁⟩, hseg, hl⟩ := Option.bind_eq_some_iff.mp hl
      cases ok with
      | false => cases hl
      | true =>
        refine ⟨?_, ih hl⟩
        rintro ⟨-, hmemsz, hbase⟩
        simp only [elf32MapSegment, if_neg hmemsz, if_pos hbase] at hseg
        cases hseg
    · rename_i htype
      exact ⟨fun hlow => htype hlow.1, ih hl⟩

/-- The process that `init_proc` makes. -/
theorem filling_initProc (hk : KernelOk own m) (hw : m.work = []) (hi : initProc m p = some m') :
    (∃ own', Filling own' m' p (m'.procs p).pdir) ∧ ∀ k addrs, Enough m' (m'.procs p).pdir k addrs →
      m.vm.mm.hasPages (pagesNeeded (fun _ => 1#32) (fun i => present (m.vm.tabs m.vm.kernelPdir i)) (userStackPage :: addrs) +
        (k + 1)) = true := by
  unfold initProc at hi
  rw [kernelWork_calm hw, Option.bind_some] at hi
  obtain ⟨⟨pdir, m₁⟩, hcreate, hi⟩ := Option.bind_eq_some_iff.mp hi
  obtain ⟨⟨r, m₂⟩, hnew, hi⟩ := Option.bind_eq_some_iff.mp hi
  obtain ⟨page, rfl, rfl⟩ := Option.map_eq_some_iff.mp hi
  obtain ⟨own₁, hmoves, hspace⟩ := vmCreateAddrspace_moves hk hcreate p
  rw [vmCreateAddrspace_calm hw] at hcreate
  split at hcreate
  · cases hcreate
  · rename_i hno
    obtain ⟨rfl, rfl⟩ := Prod.mk.inj (Option.some.inj hcreate)
    obtain ⟨⟨own₂, h₂⟩, -, hstack⟩ := Filling.newPage ⟨hmoves.kernelOk, hspace, hw⟩ (by decide) hnew
    simp only [Machine.setProc, Function.update_self]
    refine ⟨⟨own₂, h₂.setProc fun _ => ⟨true, _, page, 0, 0, false, none⟩⟩, fun k addrs henough => ?_⟩
    have hstack := hstack k addrs henough
    unfold Enough at hstack
    simp only [Function.update_self] at hstack
    rw [← Nat.add_assoc, Nat.add_comm _ 1, Mm.hasPages_add, Mm.hasPages_one, hstack, Bool.and_true, decide_eq_true_eq]
    exact hno

theorem Filling.kmAllocPage (h : Filling own m p pdir) {r : Nat × Machine} (hkm : kmAllocPage m = some r) :
    (∃ own', Filling own' r.2 p pdir) ∧ r.2.procs = m.procs ∧ ∀ k addrs, Enough r.2 pdir k addrs → Enough m pdir (k + 1) addrs := by
  obtain ⟨page, m'⟩ := r
  obtain ⟨own', hmoves, -⟩ := kmAllocPage_moves h.kernelOk hkm
  have hpages := (kmAllocPage_needs h.calm).mp ⟨_, hkm⟩
  obtain ⟨mm, hal, -, hwork⟩ := kmAllocPage_returns hkm
  have hcalm : Machine.work { m with vm := { m.vm with mm := mm } } = [] := h.calm
  obtain rfl := Option.some.inj ((kernelWork_calm hcalm).symm.trans hwork)
  have htake : m.vm.mm.takePages 1 = mm := by simp only [Mm.takePages, hal]
  refine ⟨⟨own', hmoves.kernelOk, hmoves.change.space (Option.some_ne_none p).symm h.space, h.calm⟩, rfl, fun k addrs henough => ?_⟩
  unfold Enough at henough ⊢
  rw [← Nat.add_assoc, Nat.add_comm _ 1, Mm.hasPages_add, hpages, Bool.true_and, htake]
  exact henough

/-! ## The process that is not in the ready queue -/

/-- A process that was created blocked cannot be destroyed. -/
theorem pmDestroy_created {s s₁ : ExecState} {p : ProcRef} {mem : Nat → UInt8} {l : List ProcRef} (hq : s.table.pm.Chain l)
    (hlive : ∀ q ∈ l, s.table.pm.Live q) (hc : s.pmCreate .blocked mem = some (p, s₁)) (m : Machine) :
    ({ s₁ with m := m } : ExecState).pmDestroy p = none := by
  obtain ⟨p', hslot, hc⟩ := Option.bind_eq_some_iff.mp hc
  obtain ⟨m₁, -, hc⟩ := Option.bind_eq_some_iff.mp hc
  obtain ⟨⟨kstack, m₂⟩, -, heq⟩ := Option.map_eq_some_iff.mp hc
  obtain ⟨rfl, rfl⟩ := Prod.mk.inj heq
  have hq' : (s.table.initProc p' .blocked mem).pm.Chain l := hq.setProc p' fun _ => rfl
  have hnot : p' ∉ l := by
    intro hmem
    exact (hlive p' hmem).2 (getEmptyProc_eq_some.mp hslot).1.2
  have hnone : pmDeactivate (s.table.initProc p' .blocked mem).pm p' = none := by
    rw [Option.eq_none_iff_forall_ne_some]
    intro pm hpm
    exact hnot (hq'.mem_of_deactivate hpm)
  simp only [ExecState.pmDestroy, Kos.pmDestroy, hnone]
  rfl

/-- What `elf32_exec` does when it returns: all segments are loaded. -/
theorem elf32Exec_cases {s : ExecState} {phdrs : List Phdr} {mem : Nat → UInt8} {l : List ProcRef} {r : Nat × ExecState}
    (hq : s.table.pm.Chain l) (hlive : ∀ q ∈ l, s.table.pm.Live q) (h : s.elf32Exec phdrs mem = some r) :
    ∃ p s₁ m₂ m₃, s.pmCreate .blocked mem = some (p, s₁) ∧
      (s₁.m.setProc p ({ · with cleanup := true, ldata := some [] })).kernelWork = some m₂ ∧ loadSegments p phdrs m₂ = some (true, m₃) := by
  obtain ⟨⟨p, s₁⟩, hcreate, h⟩ := Option.bind_eq_some_iff.mp h
  obtain ⟨m₂, hwork, h⟩ := Option.bind_eq_some_iff.mp h
  obtain ⟨⟨ok, m₃⟩, hload, h⟩ := Option.bind_eq_some_iff.mp h
  cases ok with
  | false =>
    simp only [pmDestroy_created hq hlive hcreate m₃] at h
    cases h
  | true => exact ⟨p, s₁, m₂, m₃, hcreate, hwork, hload⟩

/-- A program that is loaded had the pages for its segments. -/
theorem hasPages_of_load {s s₁ : ExecState} {phdrs : List Phdr} {mem : Nat → UInt8} {p : ProcRef} {m₂ m₃ : Machine}
    (hk : KernelOk own s.m) (hw : s.m.work = []) (hcreate : s.pmCreate .blocked mem = some (p, s₁))
    (hwork : (s₁.m.setProc p ({ · with cleanup := true, ldata := some [] })).kernelWork = some m₂)
    (hload : loadSegments p phdrs m₂ = some (true, m₃)) : s.m.vm.mm.hasPages (execNeeds s.m.vm phdrs) = true := by
  obtain ⟨p', -, hcreate⟩ := Option.bind_eq_some_iff.mp hcreate
  obtain ⟨m₁, hinit, hcreate⟩ := Option.bind_eq_some_iff.mp hcreate
  obtain ⟨⟨kstack, m₁'⟩, hkm, heq⟩ := Option.map_eq_some_iff.mp hcreate
  obtain ⟨rfl, rfl⟩ := Prod.mk.inj heq
  obtain ⟨⟨own₁, h₁⟩, hcreated⟩ := filling_initProc hk hw hinit
  obtain ⟨⟨own₂, h₂⟩, hprocs, hkstack⟩ := h₁.kmAllocPage hkm
  have h₃ := h₂.setProc fun proc => { proc with cleanup := true, ldata := some [] }
  obtain rfl := Option.some.inj ((kernelWork_calm h₃.calm).symm.trans hwork)
  have hpdir : ((m₁'.setProc p' fun proc => { proc with cleanup := true, ldata := some [] }).procs p').pdir = (m₁.procs p').pdir := by
    simp only [Machine.setProc, Function.update_self]
    rw [hprocs]
  rw [← hpdir] at h₃
  have hrest := h₃.loadSegments hload
  rw [hpdir] at hrest
  exact hcreated 1 _ (hkstack 0 _ hrest)

end ExecAux

open ExecAux CloneAux

/-- The machine with one process, which is in the ready queue. -/
def execStart : ExecState where
  table := ⟨{ emptyTable.setProc 0 fun proc => { proc with status := .running } with
    plistHead := some 0
    plistTail := some 0
    curProc := 0 }, 1⟩
  m := parentMachine
  kstackAddr := fun _ => 0

namespace ExecAux

theorem execStart_chain : execStart.table.pm.Chain [0] :=
  ⟨⟨rfl, rfl⟩, List.nodup_singleton 0, fun t ht => by cases ht; rfl, nofun⟩

theorem execStart_live : ∀ p ∈ [(0 : ProcRef)], execStart.table.pm.Live p := by
  intro p hp
  rw [List.mem_singleton.mp hp]
  exact ⟨Nat.zero_lt_succ 255, nofun⟩

end ExecAux

/-- A segment of two pages. -/
def goodSegment : Phdr := ⟨ptLoad, 0x40002000, 5000, by decide, by decide⟩

/-- A segment below `CONF_PROG_BASE_MIN`. -/
def lowSegment : Phdr := ⟨ptLoad, 0x2000, 200, by decide, by decide⟩

end Kos
