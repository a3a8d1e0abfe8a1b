import Kos.Lemmas.ProcSpace
import Kos.Lemmas.Table
import Kos.Pm.Fork
import Kos.Theorems.Clone

/-!
# What becomes of a fork

A child of `pm_fork` is complete: it has its slot, its message buffer, a copy of the address space and of the file table, and a kernel
stack of its own. But `pm_fork` returns no null pointer when memory runs out. It follows the one that `vm_clone_addrspace` returns, and
`km_alloc_page` panics, so only the search for a slot fails without a trace.
-/

namespace Kos

/-- The process `child` is a complete child of `parent`. -/
structure Forked (s : Forker) (parent : ProcRef) (mem : Nat → UInt8) (answer : Nat → DupAnswer × Nat) (child : ProcRef) (s' : Forker) :
    Prop where
  slot : (s.table.pm.procs child).status = .slotFree
  fields : s'.table.pm.procs child =
    { (s.table.pm.procs child).init s.table.cur .ready mem with scResult := (s.table.pm.procs parent).scResult }
  others : ∀ p ≠ child, s'.table.pm.procs p = s.table.pm.procs p
  space : SpaceCopied s.space.m s.space.memory (s.space.m.procs parent).pdir (s.space.m.procs parent).brkPage
    (s'.space.m.procs child).pdir s'.space
  brk : (s'.space.m.procs child).memBrk = (s.space.m.procs parent).memBrk ∧
    (s'.space.m.procs child).brkPage = (s.space.m.procs parent).brkPage
  files : vfsCloneProcdata s.vfs (s.fsData parent) answer = some (s'.fsData child, s'.vfs)
  kstack : isFree s.space.m.vm.mm.mmap (s'.kstackAddr child) = true ∧ isFree s'.space.m.vm.mm.mmap (s'.kstackAddr child) = false
  kstackBytes : ∀ j < pageSize, s'.space.memory (s'.kstackAddr child + j) = s.space.memory (s.kstackAddr parent + j)

/-- `pm_fork` returns a complete child, or a null pointer, with the process table and the page map as before. -/
def ForkAtomic (s : Forker) (parent : ProcRef) (mem : Nat → UInt8) (answer : Nat → DupAnswer × Nat) : Prop :=
  (∃ child s', s.pmFork parent mem answer = some (some child, s') ∧ Forked s parent mem answer child s') ∨
    ∃ s', s.pmFork parent mem answer = some (none, s') ∧ s'.table = s.table ∧ s'.space.m.vm.mm.mmap = s.space.m.vm.mm.mmap

/-- The pages for a child: those of its address space, and its kernel stack. -/
def Forker.forkNeeds (s : Forker) (parent : ProcRef) : Nat :=
  cloneNeeds s.space.m.vm (s.space.m.procs parent).pdir (s.space.m.procs parent).brkPage + 1

/-- The parent is a process with an address space of its own, a kernel stack, and files that can be copied, and the kernel gives no page
back meanwhile. (`brk_page` is the address of a page, or the loop of `vm_clone_addrspace` would not end.) -/
structure ForkReady (own : Owners) (s : Forker) (q : Nat) (parent : ProcRef) (answer : Nat → DupAnswer × Nat) : Prop where
  kernelOk : KernelOk own s.space.m
  space : Space own s.space.m.vm q (s.space.m.procs parent).pdir
  keepsPages : s.space.m.KeepsPages
  brkPage : (s.space.m.procs parent).brkPage ≤ 0xFFFFF000
  kstack : isFree s.space.m.vm.mm.mmap (s.kstackAddr parent) = false ∧ s.kstackAddr parent % 4096 = 0
  files : (vfsCloneProcdata s.vfs (s.fsData parent) answer).isSome

namespace ForkAux

open CloneAux PageMapAux SpaceAux

theorem mmAllocPage_again {s : Mm} (h : (mmAllocPage s).1 = noPage) : (mmAllocPage (mmAllocPage s).2).1 = noPage := by
  unfold mmAllocPage at h ⊢
  by_cases hno : find s.mmap 1 dmaEnd s.memEnd = noPage
  · simp only [hno, if_true, Mm.seterr]
  · simp only [hno, if_false] at h

theorem newPage_none {m m' : Machine} {pdir v : Nat} {flags : Entry} {force : Bool} (h : newPage m pdir v flags force = some (none, m')) :
    (mmAllocPage m'.vm.mm).1 = noPage := by
  rcases newPage_returns h with ⟨-, mm, hal, rfl⟩ | ⟨page, mm, vm, hr, -⟩
  · have hagain := mmAllocPage_again (congrArg Prod.fst hal)
    rwa [hal] at hagain
  · cases hr

theorem cloneEntry_none {s s' : Copier} {newpd v : Nat} {pte : Entry} (h : s.cloneEntry newpd v pte = some (false, s')) :
    (mmAllocPage s'.m.vm.mm).1 = noPage := by
  obtain ⟨⟨page, m'⟩, hnew, heq⟩ := Option.map_eq_some_iff.mp h
  cases page with
  | some page => cases congrArg Prod.fst heq
  | none =>
    obtain ⟨-, rfl⟩ := Prod.mk.inj heq
    exact newPage_none hnew

/-- `vm_clone_addrspace` returns an address space without the stack only when there is no page left. -/
theorem cloneRest_noStack {s s' : Copier} {pdir newpd newpd' stack : Nat} (addrs : List Nat)
    (h : ((Copier.cloneEntries pdir newpd addrs s).bind fun (ok, s) =>
      if !ok then none
      else if getPtabEntry s.m.vm pdir stack = 0#32 then some (newpd, true, s)
      else (s.cloneEntry newpd stack (getPtabEntry s.m.vm pdir stack)).map fun (ok, s) => (newpd, ok, s)) = some (newpd', false, s')) :
    (mmAllocPage s'.m.vm.mm).1 = noPage := by
  obtain ⟨⟨ok, s₁⟩, -, h⟩ := Option.bind_eq_some_iff.mp h
  dsimp only at h
  split at h
  · cases h
  · split at h
    · cases congrArg (fun r => r.2.1) (Option.some.inj h)
    · obtain ⟨⟨ok, s₂⟩, hstack, heq⟩ := Option.map_eq_some_iff.mp h
      simp only [Prod.mk.injEq] at heq
      obtain ⟨-, rfl, rfl⟩ := heq
      exact cloneEntry_none hstack

theorem cloneAddrspace_noStack {s s' : Copier} {brkPage pdir newpd : Nat} (h : s.cloneAddrspace brkPage pdir = some (newpd, false, s')) :
    (mmAllocPage s'.m.vm.mm).1 = noPage := by
  unfold Copier.cloneAddrspace at h
  obtain ⟨⟨newpd', m⟩, -, h⟩ := Option.bind_eq_some_iff.mp h
  exact cloneRest_noStack _ h

/-- The kernel stack is the next page that is asked for after the copy, so it is found only after a complete one. -/
theorem complete_of_kstack {s c : Copier} {brkPage pdir newpd : Nat} {ok : Bool} {child parent : ProcRef} {r : Nat × Machine}
    (hclone : s.cloneAddrspace brkPage pdir = some (newpd, ok, c)) (hkstack : kmAllocPage (c.m.setChild child parent newpd) = some r) :
    ok = true := by
  cases ok with
  | true => rfl
  | false =>
    obtain ⟨page, m'⟩ := r
    obtain ⟨mm, hal, hne, -⟩ := kmAllocPage_returns hkstack
    exact absurd ((congrArg Prod.fst hal).symm.trans (cloneAddrspace_noStack hclone)) hne

theorem kmAllocPage_used {m m' : Machine} {page : Nat} (hkeep : m.KeepsPages) (h : kmAllocPage m = some (page, m')) :
    isFree m'.vm.mm.mmap page = false := by
  obtain ⟨mm, hal, hne, hwork⟩ := kmAllocPage_returns h
  obtain ⟨-, -, -, hmap⟩ := mmAllocPage_spec hal hne
  rw [← Bool.not_eq_true]
  intro hagain
  have := kernelWork_free (m := { m with vm := { m.vm with mm := mm } }) hkeep hwork hagain
  rw [hmap, decide_eq_true rfl, Bool.not_true, Bool.and_false] at this
  cases this

/-- What a fork does that returns. -/
theorem pmFork_cases {s : Forker} {parent : ProcRef} {mem : Nat → UInt8} {answer : Nat → DupAnswer × Nat} {r : Option ProcRef × Forker}
    (h : s.pmFork parent mem answer = some r) :
    (s.table.pm.getEmptyProc = none ∧ r = (none, s)) ∨
      ∃ child m pdir ok c data vfs kstack m', s.table.pm.getEmptyProc = some child ∧ s.space.m.kernelWork = some m ∧
        Copier.cloneAddrspace ⟨m, s.space.memory⟩ (m.procs parent).brkPage (m.procs parent).pdir = some (pdir, ok, c) ∧
        vfsCloneProcdata s.vfs (s.fsData parent) answer = some (data, vfs) ∧
        kmAllocPage (c.m.setChild child parent pdir) = some (kstack, m') ∧
        r = (some child,
          { table := (s.table.pmFork parent mem).2
            space := ⟨m', c.memory.copy kstack (s.kstackAddr parent) pageSize⟩
            vfs := vfs
            fsData := Function.update s.fsData child data
            kstackAddr := Function.update s.kstackAddr child kstack }) := by
  cases hslot : s.table.pm.getEmptyProc with
  | none =>
    simp only [Forker.pmFork, ProcTable.pmFork, hslot, Option.some.injEq] at h
    exact .inl ⟨rfl, h.symm⟩
  | some child =>
    simp only [Forker.pmFork, ProcTable.pmFork, hslot] at h
    obtain ⟨m, hwork, h⟩ := Option.bind_eq_some_iff.mp h
    obtain ⟨⟨pdir, ok, c⟩, hclone, h⟩ := Option.bind_eq_some_iff.mp h
    obtain ⟨⟨data, vfs⟩, hdata, h⟩ := Option.bind_eq_some_iff.mp h
    obtain ⟨⟨kstack, m'⟩, hkstack, rfl⟩ := Option.map_eq_some_iff.mp h
    refine .inr ⟨child, m, pdir, ok, c, data, vfs, kstack, m', rfl, hwork, hclone, hdata, hkstack, ?_⟩
    simp only [ProcTable.pmFork, hslot]

/-- A frame that is in use, and a page that was free. -/
theorem copy_other {memory : Memory} {mmap : Mmap} {page src f j : Nat} (hfree : isFree mmap page = true) (hpage : page % 4096 = 0)
    (hused : isFree mmap f = false) (hf : f % 4096 = 0) (hj : j < pageSize) : memory.copy page src pageSize (f + j) = memory (f + j) := by
  rw [Memory.copy, if_neg]
  rintro ⟨hle, hlt⟩
  simp only [pageSize] at hj hlt
  rw [isFree_congr _ (show f / 4096 = page / 4096 by omega), hfree] at hused
  cases hused

/-- What is written to a frame that is in no address space does not change a copy. -/
theorem spaceCopied_kstack {m : Machine} {memory : Memory} {q pdir brkPage p newpd page src : Nat} {done : Nat → Prop} {own : Owners}
    {c : Copier} {m' : Machine} (h : SpaceCopied m memory pdir brkPage newpd c) (hc : Cloning m memory q pdir p newpd done own c)
    (hfree : isFree c.m.vm.mm.mmap page = true) (hpage : page % 4096 = 0)
    (hparent : ∀ n, UserPage n → pageMap m'.vm pdir n = pageMap c.m.vm pdir n)
    (hchild : ∀ n, UserPage n → pageMap m'.vm newpd n = pageMap c.m.vm newpd n) :
    SpaceCopied m memory pdir brkPage newpd ⟨m', c.memory.copy page src pageSize⟩ := by
  have hu := hc.kernelOk.owned.toInUse
  refine ⟨?_, ?_, ?_, ?_, ?_⟩
  · intro n f flags hin hmap
    obtain ⟨f', hmap', hnew, hbytes⟩ := h.pages n f flags hin hmap
    obtain ⟨hused, hmod⟩ := hc.childSpace.used hu hin.1 hmap'
    refine ⟨f', (hchild n hin.1).trans hmap', hnew, fun j hj => ?_⟩
    rw [← hbytes j hj]
    exact copy_other hfree hpage hused hmod hj
  · intro n hn hnone
    exact (hchild n hn).trans (h.absent n hn hnone)
  · intro n hn
    exact (hparent n hn).trans (h.parent n hn)
  · intro n f flags hn hmap j hj
    obtain ⟨hused, hmod⟩ := hc.parentSpace.used hu hn ((h.parent n hn).trans hmap)
    rw [← h.bytes n f flags hn hmap j hj]
    exact copy_other hfree hpage hused hmod hj
  · intro n n' f f' flags flags' hn hn' hmap hmap'
    exact h.apart n n' f f' flags flags' hn hn' ((hparent n hn).symm.trans hmap) ((hchild n' hn').symm.trans hmap')

/-- What the kernel did for itself before the copy. -/
theorem spaceCopied_before {m m₁ : Machine} {memory : Memory} {pdir brkPage newpd : Nat} {c : Copier}
    (h : SpaceCopied m₁ memory pdir brkPage newpd c) (hmap : ∀ n, UserPage n → pageMap m₁.vm pdir n = pageMap m.vm pdir n)
    (hfree : ∀ f, isFree m₁.vm.mm.mmap f = true → isFree m.vm.mm.mmap f = true) : SpaceCopied m memory pdir brkPage newpd c := by
  refine ⟨?_, ?_, ?_, ?_, h.apart⟩
  · intro n f flags hin hparent
    obtain ⟨f', hchild, hnew, hbytes⟩ := h.pages n f flags hin ((hmap n hin.1).trans hparent)
    exact ⟨f', hchild, hfree f' hnew, hbytes⟩
  · intro n hn hnone
    exact h.absent n hn ((hmap n hn).trans hnone)
  · intro n hn
    exact (h.parent n hn).trans (hmap n hn)
  · intro n f flags hn hparent
    exact h.bytes n f flags hn ((hmap n hn).trans hparent)

end ForkAux

open ForkAux CloneAux PageMapAux SpaceAux

namespace ForkReady

variable {own : Owners} {s s' : Forker} {q : Nat} {parent child : ProcRef} {mem : Nat → UInt8} {answer : Nat → DupAnswer × Nat}

theorem brkPage_lt (h : ForkReady own s q parent answer) : (s.space.m.procs parent).brkPage < 4294967296 := by
  have := h.brkPage
  omega

/-- A child that is returned is complete. -/
theorem complete (h : ForkReady own s q parent answer) (hfork : s.pmFork parent mem answer = some (some child, s')) :
    Forked s parent mem answer child s' := by
  obtain ⟨-, hr⟩ | ⟨child', m, pdir, ok, c, data, vfs, kstack, m', hslot, hwork, hclone, hdata, hkstack, hr⟩ := pmFork_cases hfork
  · cases hr
  obtain ⟨hchild, rfl⟩ := Prod.mk.inj hr
  obtain rfl := Option.some.inj hchild
  obtain ⟨own₁, hmoves⟩ := kernelWork_moves h.kernelOk hwork
  have hs₁ := hmoves.change.space nofun h.space
  have hkeep₁ := h.keepsPages.congr (.inr (kernelWork_work hwork))
  rw [hmoves.procs] at hclone
  obtain rfl := complete_of_kstack hclone hkstack
  obtain ⟨own₂, hcloning⟩ := cloneAddrspace_cloning hmoves.kernelOk hs₁ hkeep₁ h.brkPage_lt hclone
  have hcopied := spaceCopied_of_cloning hmoves.kernelOk.owned.toInUse hs₁ (Nat.succ_ne_self q) hcloning
  have hprocs : c.m.procs = s.space.m.procs := by
    have hproj := Copier.cloneAddrspace_machine ⟨m, s.space.memory⟩ (s.space.m.procs parent).brkPage (s.space.m.procs parent).pdir
    rw [hclone] at hproj
    obtain ⟨own₃, hclone, -⟩ := vmCloneAddrspace_moves (p := q) hmoves.kernelOk h.brkPage_lt hproj.symm
    exact hclone.procs.trans hmoves.procs
  have hk₂ : KernelOk own₂ (c.m.setChild child parent pdir) := ⟨hcloning.kernelOk.owned, hcloning.kernelOk.kernelPages⟩
  obtain ⟨own₄, hmoves', hfree, hpage⟩ := kmAllocPage_moves hk₂ hkstack
  have hspaces {p dir : Nat} (hs : Space own₂ c.m.vm p dir) (n : Nat) (hn : UserPage n) : pageMap m'.vm dir n = pageMap c.m.vm dir n :=
    pageMap_congr (hmoves'.change.pageEntry_eq (Option.some_ne_none p).symm hs hn)
  have hbefore : ∀ f, isFree m.vm.mm.mmap f = true → isFree s.space.m.vm.mm.mmap f = true :=
    fun f => kernelWork_free h.keepsPages hwork
  have hproc : m'.procs child = ⟨true, pdir, vmResolveVirt c.m.vm pdir userStackPage, (s.space.m.procs parent).memBrk,
      (s.space.m.procs parent).brkPage, false, none⟩ := by
    rw [hmoves'.procs, Machine.setChild, Machine.setProc, hprocs]
    exact Function.update_self ..
  obtain ⟨⟨-, hstatus⟩, -⟩ := getEmptyProc_eq_some.mp hslot
  refine ⟨hstatus, ?_, fun p hp => ?_, ?_, ?_, ?_, ?_, fun j hj => ?_⟩
  · simp only [ProcTable.pmFork, hslot, ProcTable.newpid, Pm.setProc, Function.update_self]
  · simp only [ProcTable.pmFork, hslot, ProcTable.newpid, Pm.setProc, Function.update_of_ne hp]
  · rw [hproc]
    refine spaceCopied_before (spaceCopied_kstack hcopied hcloning hfree hpage ?_ ?_) ?_ hbefore
    · exact hspaces hcloning.parentSpace
    · exact hspaces hcloning.childSpace
    · exact fun n hn => pageMap_congr (hmoves.change.pageEntry_eq nofun h.space hn)
  · rw [hproc]
    exact ⟨rfl, rfl⟩
  · simp only [Function.update_self, hdata]
  · simp only [Function.update_self]
    exact ⟨hbefore _ (hcloning.taken kstack hfree), kmAllocPage_used (m := c.m.setChild child parent pdir) hcloning.keeps hkstack⟩
  · simp only [Function.update_self]
    rw [Memory.copy, if_pos ⟨Nat.le_add_right kstack j, Nat.add_lt_add_left hj kstack⟩, Nat.add_sub_cancel_left]
    refine hcloning.bytes _ ?_
    rw [← Bool.not_eq_true]
    intro hagain
    obtain ⟨hkst, hmod⟩ := h.kstack
    simp only [pageSize] at hj
    rw [isFree_congr _ (show (s.kstackAddr parent + j) / 4096 = s.kstackAddr parent / 4096 by omega)] at hagain
    rw [hbefore _ hagain] at hkst
    cases hkst

/-- A fork that finds a slot and returns had the pages for the child. -/
theorem hasPages (h : ForkReady own s q parent answer) (hw : s.space.m.work = []) (hslot : s.table.pm.getEmptyProc = some child)
    {r : Option ProcRef × Forker} (hfork : s.pmFork parent mem answer = some r) : s.space.m.vm.mm.hasPages (s.forkNeeds parent) = true := by
  obtain ⟨hsome, hnone⟩ := cloneAddrspace_needs s.space.memory h.kernelOk h.space hw h.brkPage_lt
  obtain ⟨hno, -⟩ | ⟨child', m, pdir, ok, c, data, vfs, kstack, m', -, hwork, hclone, -, hkstack, -⟩ := pmFork_cases hfork
  · rw [hslot] at hno
    cases hno
  obtain rfl := Option.some.inj ((kernelWork_calm hw).symm.trans hwork)
  obtain rfl := complete_of_kstack hclone hkstack
  unfold Forker.forkNeeds
  rw [Mm.hasPages_add]
  cases hpages : s.space.m.vm.mm.hasPages (cloneNeeds s.space.m.vm (s.space.m.procs parent).pdir (s.space.m.procs parent).brkPage) with
  | false => exact absurd hclone (hnone hpages pdir c)
  | true =>
    obtain ⟨pdir', c', hclone', hcalm, hmm⟩ := hsome hpages
    obtain ⟨rfl, -, rfl⟩ : pdir' = pdir ∧ true = true ∧ c' = c := by simpa using hclone'.symm.trans hclone
    rw [Bool.true_and, ← hmm]
    exact (kmAllocPage_needs (m := c'.m.setChild child' parent pdir') hcalm).mp ⟨_, hkstack⟩

/-- With the pages for it, there is a child. -/
theorem returns (h : ForkReady own s q parent answer) (hw : s.space.m.work = []) (hslot : s.table.pm.getEmptyProc = some child)
    (hpages : s.space.m.vm.mm.hasPages (s.forkNeeds parent) = true) : ∃ s', s.pmFork parent mem answer = some (some child, s') := by
  unfold Forker.forkNeeds at hpages
  rw [Mm.hasPages_add, Bool.and_eq_true] at hpages
  obtain ⟨hpages, hlast⟩ := hpages
  obtain ⟨pdir, c, hclone, hcalm, hmm⟩ := (cloneAddrspace_needs s.space.memory h.kernelOk h.space hw h.brkPage_lt).1 hpages
  obtain ⟨⟨data, vfs⟩, hdata⟩ := Option.isSome_iff_exists.mp h.files
  rw [← hmm] at hlast
  obtain ⟨⟨kstack, m'⟩, hkstack⟩ := (kmAllocPage_needs (m := c.m.setChild child parent pdir) hcalm).mpr hlast
  simp only [Forker.pmFork, ProcTable.pmFork, hslot, kernelWork_calm hw, Option.bind_some, hclone, hdata, hkstack, Option.map_some]
  exact ⟨_, rfl⟩

end ForkReady

/-- The process of `parentMachine`, with this page map, in the slot 7, and with one open file; all other slots are free. -/
def forker (mm : Mm) : Forker where
  table := ⟨emptyTable.setProc 7 fun proc => { proc with status := .running }, 8⟩
  space := ⟨{ parentMachine with
    vm := { parentMachine.vm with mm := mm }
    procs := fun _ => ⟨true, 0x102000, 0x106000, 0x40000800, 0x40000000 + 4096, false, none⟩ }, fun a => UInt8.ofNat a⟩
  vfs := ⟨fun _ => ⟨0, 1, 0, false, false, none⟩, 0, 0, [(0x5000, ⟨some 0, 0, some ⟨false, false⟩⟩)]⟩
  fsData := fun _ => ⟨0, some 0x5000 :: List.replicate 31 none⟩
  kstackAddr := fun _ => 0x107000

/-- `kmalloc` gives this memory for the copy of the file. -/
def copyAt (_ : Nat) : DupAnswer × Nat := (⟨0, ⟨none, 0, none⟩⟩, 0x6000)

namespace ForkAux

/-- With fewer free pages. -/
theorem kernelOk_fewer {own : Owners} {m : Machine} {mm : Mm} {procs : Nat → ProcSpace} (hk : KernelOk own m)
    (hend : mm.memEnd = m.vm.mm.memEnd) (hused : ∀ f, isFree m.vm.mm.mmap f = false → isFree mm.mmap f = false) :
    KernelOk own { m with vm := { m.vm with mm := mm }, procs := procs } := by
  refine ⟨⟨⟨?_, fun f o hf => ?_⟩, hk.owned.kernelPdir, hk.owned.kernelTab, hk.owned.low, hk.owned.lowPage⟩, hk.kernelPages⟩
  · rw [hend]
    exact hk.owned.memEnd
  · obtain ⟨hfree, hmod⟩ := hk.owned.used f o hf
    exact ⟨hused f hfree, hmod⟩

theorem forker_ready {mm : Mm} (hend : mm.memEnd = 0x200000) (hkst : isFree mm.mmap 0x107000 = false)
    (hused : ∀ f, isFree parentMachine.vm.mm.mmap f = false → isFree mm.mmap f = false) :
    ForkReady parentOwners (forker mm) 7 7 copyAt := by
  have hs := parent_space
  refine ⟨kernelOk_fewer parent_kernelOk hend hused, ⟨hs.dir, hs.table, hs.page, hs.low⟩, nofun, ?_, ⟨hkst, ?_⟩, rfl⟩
  · show 0x40000000 + 4096 ≤ 0xFFFFF000
    decide
  · show 0x107000 % 4096 = 0
    decide

theorem forkNeeds_forker (mm : Mm) : (forker mm).forkNeeds 7 = 6 :=
  congrArg (· + 1) parent_needs

theorem forker_slot (mm : Mm) : (forker mm).table.pm.getEmptyProc = some 0 :=
  getEmptyProc_eq_some.mpr ⟨⟨Nat.zero_lt_succ 255, rfl⟩, fun i hi => absurd hi (Nat.not_lt_zero i)⟩

end ForkAux

/-- No page is free. -/
def noPages : Mm := ⟨fun _ => 0#32, 0x200000, .ok, parentMachine_memEnd_lt⟩

end Kos
