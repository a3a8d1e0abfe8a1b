import Kos.Lemmas.Space

/-!
# The memory that a process holds

What a process gives back when it ends is found through its page tables again: the pages of its segments, its stack and its page
directory. `Holds` says that these are still its own, each one only once. All calls keep this for every process that lives.
-/

namespace Kos

open SpaceAux

/-! ## A new address space -/

theorem vmCreateAddrspace_returns {m m' : Machine} {pdir : Nat} (h : vmCreateAddrspace m = some (pdir, m')) :
    ∃ m₁ mm m₂, m.kernelWork = some m₁ ∧ mmAllocPage m₁.vm.mm = (pdir, mm) ∧ pdir ≠ noPage ∧
      Machine.kernelWork { m₁ with vm := { m₁.vm with mm := mm } } = some m₂ ∧
      m' = { m₂ with vm := { m₂.vm with tabs := Function.update m₂.vm.tabs pdir (m₂.vm.tabs m₂.vm.kernelPdir) } } := by
  unfold vmCreateAddrspace at h
  obtain ⟨m₁, hwork₁, h⟩ := Option.bind_eq_some_iff.mp h
  obtain ⟨phys, mm, hal⟩ : ∃ page mm, mmAllocPage m₁.vm.mm = (page, mm) := ⟨_, _, rfl⟩
  simp only [hal] at h
  split at h
  · cases h
  · rename_i hne
    obtain ⟨m₂, hwork₂, heq⟩ := Option.map_eq_some_iff.mp h
    obtain ⟨rfl, rfl⟩ := Prod.mk.inj heq
    exact ⟨m₁, mm, m₂, hwork₁, hal, hne, hwork₂, rfl⟩

/-- `vm_create_addrspace` makes an address space without pages in user space. -/
theorem vmCreateAddrspace_moves {own : Owners} {m m' : Machine} {pdir : Nat} (hk : KernelOk own m)
    (h : vmCreateAddrspace m = some (pdir, m')) (p : Nat) : ∃ own', Moves own own' m m' (some p) ∧ Space own' m'.vm p pdir := by
  obtain ⟨m₁, mm, m₂, hwork₁, hal, hne, hwork₂, rfl⟩ := vmCreateAddrspace_returns h
  obtain ⟨own₁, hm₁⟩ := kernelWork_moves hk hwork₁
  obtain ⟨-, hk₂, hchange⟩ := hm₁.kernelOk.take hal hne (.pdir p)
  obtain ⟨own₃, hm₃⟩ := kernelWork_moves hk₂ hwork₂
  have hown : own₃ pdir = some (.pdir p) := hm₃.change.owner pdir _ p (Function.update_self ..) rfl nofun
  have ho := hm₃.kernelOk.owned
  have hne' : ∀ {f o}, own₃ f = some o → o ≠ .pdir p → f ≠ pdir := by
    rintro f o hf hno rfl
    exact hno (Option.some.inj (hf.symm.trans hown))
  have hK : Function.update m₂.vm.tabs pdir (m₂.vm.tabs m₂.vm.kernelPdir) m₂.vm.kernelPdir = m₂.vm.tabs m₂.vm.kernelPdir :=
    Function.update_of_ne (hne' ho.kernelPdir nofun) ..
  have hlow := hne' (ho.kernelTab 0 (by decide) ho.low).2 nofun
  refine ⟨own₃, ⟨⟨⟨⟨ho.memEnd, ho.used⟩, ho.kernelPdir, ?_, ?_, ?_⟩, hm₃.kernelOk.kernelPages⟩, ?_,
    hm₃.procs.trans hm₁.procs⟩, ⟨hown, fun i hi hpde => ?_, fun i hi hu hpde => ?_, ?_⟩⟩
  · simpa only [hK] using ho.kernelTab
  · simpa only [hK] using ho.low
  · simpa only [hK, Function.update_of_ne hlow] using ho.lowPage
  · refine ((hm₁.change.weaken _).trans ((hchange _).trans (hm₃.change.weaken _))).trans
      ⟨rfl, congrFun hK 0, fun _ _ hf => hf, fun _ _ _ hf _ _ => hf, fun f o q hf hoq hq => ?_⟩
    refine Function.update_of_ne (hne' hf ?_) ..
    rintro rfl
    exact hq (by rw [show p = q from hoq])
  · simp only [Function.update_self] at hpde ⊢
    obtain ⟨hlt, htab⟩ := ho.kernelTab i hi hpde
    rw [Owner.tab, if_pos hlt]
    exact htab
  · simp only [Function.update_self] at hpde
    exact absurd (ho.kernelTab i hi hpde).1 (by omega)
  · simp only [Function.update_self, hK]

/-! ## Giving pages back -/

/-- A process gives back a frame that is its own. -/
theorem freePage_moves {own : Owners} {m : Machine} {p f : Nat} {o : Owner} (hk : KernelOk own m) (ho : own f = some o) (hop : o.Of p) :
    Moves own (Function.update own f none) m (m.freePage f) (some p) := by
  have hkeep : ∀ {g o'}, own g = some o' → o' ≠ o → Function.update own f none g = some o' := by
    intro g o' hg hne
    rw [Function.update_of_ne, hg]
    rintro rfl
    exact hne (Option.some.inj (hg.symm.trans ho))
  refine ⟨⟨hk.owned.drop ho ?_ ?_, fun g hg => hkeep (hk.kernelPages g hg) ?_⟩, ⟨rfl, rfl, fun g i hg => hkeep hg ?_,
    fun g o' q hg hoq hq => hkeep hg ?_, fun _ _ _ _ _ _ => rfl⟩, rfl⟩
  · rintro rfl
    exact hop
  · rintro i rfl
    exact hop
  · rintro rfl
    exact hop
  · rintro rfl
    exact hop
  · rintro rfl
    refine hq ?_
    cases o' <;> first | exact hop.elim | exact congrArg some ((show _ = p from hop).symm.trans hoq)

/-- Page 0, which a process without a stack gives back, belongs to nobody. -/
theorem freePage_zero {own : Owners} {m : Machine} (hk : KernelOk own m) (a : Option Nat) : Moves own own m (m.freePage 0) a := by
  refine ⟨⟨⟨⟨by simpa only [Machine.freePage, mmFreePage_memEnd] using hk.owned.memEnd, fun f o hf => ?_⟩, hk.owned.kernelPdir,
    hk.owned.kernelTab, hk.owned.low, hk.owned.lowPage⟩, hk.kernelPages⟩,
    ⟨rfl, rfl, fun _ _ h => h, fun _ _ _ h _ _ => h, fun _ _ _ _ _ _ => rfl⟩, rfl⟩
  obtain ⟨hused, hmod, hpos⟩ := hk.owned.used f o hf
  refine ⟨?_, hmod, hpos⟩
  rw [Machine.freePage, mmFreePage_isFree rfl, hused, Bool.false_or, decide_eq_false_iff_not]
  omega

/-- An address on a mapped page resolves to the same offset in its frame. -/
theorem Mapped.resolve_add {vm : Vm} {pdir v f : Nat} (h : Mapped vm pdir (v / 4096) f) : vmResolveVirt vm pdir v = f + v % 4096 := by
  have hmod := getaddr_mod (vm.tabs (getaddr (vm.tabs pdir (v / 4096 / 1024))) (v / 4096 % 1024))
  have hlt := getaddr_lt (vm.tabs (getaddr (vm.tabs pdir (v / 4096 / 1024))) (v / 4096 % 1024))
  rw [h.addr] at hmod hlt
  simp only [vmResolveVirt, getPtabEntry, pdirIndex, ptabIndex, pageSize, bnotset_eq, h.pde, h.pte, h.addr, Bool.not_true,
    Bool.false_eq_true, if_false, if_true, pageOffset]
  exact w32_of_lt (by omega)

/-- A mapped page resolves to its frame. -/
theorem Mapped.resolve {vm : Vm} {pdir v f : Nat} (h : Mapped vm pdir (v / 4096) f) (hv : v % 4096 = 0) :
    vmResolveVirt vm pdir v = f := by
  rw [h.resolve_add, hv, Nat.add_zero]

/-- The pages with these addresses are given back, one after another. -/
def Machine.freeMapped (m : Machine) (pdir : Nat) (pages : List Nat) : Machine :=
  pages.foldl (fun m v => m.freePage (vmResolveVirt m.vm pdir v)) m

/-- They are pages of the process, and each one is given back once. -/
theorem freeMapped_moves {own : Owners} {m : Machine} {p pdir : Nat} (pages : List Nat) (hk : KernelOk own m)
    (hp : ∀ v ∈ pages, v % 4096 = 0 ∧ ∃ f, Mapped m.vm pdir (v / 4096) f ∧ own f = some (.page p (v / 4096)))
    (hnd : pages.Nodup) :
    ∃ own', Moves own own' m (m.freeMapped pdir pages) (some p) ∧ (m.freeMapped pdir pages).vm.tabs = m.vm.tabs ∧
      ∀ f o, own f = some o → (∀ v ∈ pages, o ≠ .page p (v / 4096)) → own' f = some o := by
  induction pages generalizing own m with
  | nil => exact ⟨own, hk.refl _, rfl, fun _ _ h _ => h⟩
  | cons v pages ih =>
    obtain ⟨hv, f, hm, hf⟩ := hp v List.mem_cons_self
    obtain ⟨hvn, hnd⟩ := List.nodup_cons.mp hnd
    have hmoves := freePage_moves (p := p) hk hf rfl
    have hkeep : ∀ g o, own g = some o → o ≠ .page p (v / 4096) → Function.update own f none g = some o := by
      intro g o hg hne
      rw [Function.update_of_ne, hg]
      rintro rfl
      exact hne (Option.some.inj (hg.symm.trans hf))
    obtain ⟨own', hm', htabs, hown'⟩ := ih hmoves.kernelOk (fun w hw => by
      obtain ⟨hw', g, hmg, hg⟩ := hp w (List.mem_cons_of_mem v hw)
      refine ⟨hw', g, ⟨hmg.pde, hmg.pte, hmg.addr⟩, hkeep g _ hg fun he => hvn ?_⟩
      have hwv : w / 4096 = v / 4096 := by simpa using he
      rwa [show v = w by omega]) hnd
    refine ⟨own', ?_, ?_, fun g o hg hno => ?_⟩
    · rw [Machine.freeMapped, List.foldl_cons, hm.resolve hv]
      exact hmoves.trans hm'
    · rw [Machine.freeMapped, List.foldl_cons, hm.resolve hv]
      exact htabs
    · exact hown' g o (hkeep g o hg (hno v List.mem_cons_self)) fun w hw => hno w (List.mem_cons_of_mem v hw)

/-! ## What a process holds -/

/-- The pages of a segment. -/
def ElfLdata.addrs (d : ElfLdata) : List Nat := (List.range d.pages).map (pageOf d.base)

/-- The pages that `elf32_cleanup` gives back. -/
def ProcSpace.segPages (proc : ProcSpace) : List Nat :=
  if proc.cleanup then (proc.ldata.getD []).flatMap ElfLdata.addrs else []

theorem elf32FreeMem_eq (m : Machine) (pdir : Nat) (d : ElfLdata) : elf32FreeMem m pdir d.base d.pages = m.freeMapped pdir d.addrs := by
  rw [elf32FreeMem, Machine.freeMapped, ElfLdata.addrs, List.foldl_map]

theorem elf32Cleanup_eq (m : Machine) (proc : ProcSpace) :
    (if proc.cleanup then elf32Cleanup m proc else m) = m.freeMapped proc.pdir proc.segPages := by
  unfold ProcSpace.segPages elf32Cleanup
  cases proc.cleanup with
  | false => rfl
  | true =>
    cases proc.ldata with
    | none => rfl
    | some l =>
      simp only [if_true, Option.getD_some]
      induction l generalizing m with
      | nil => rfl
      | cons d l ih =>
        rw [List.foldl_cons, elf32FreeMem_eq, ih, List.flatMap_cons, Machine.freeMapped, Machine.freeMapped, Machine.freeMapped,
          List.foldl_append]

/-- The address space of a process is well-formed. The pages of its segments are mapped in user space, each one once and none of them
over the stack; the stack is mapped where the process has it, if it has one. -/
structure Holds (own : Owners) (vm : Vm) (p : Nat) (proc : ProcSpace) : Prop where
  space : Space own vm p proc.pdir
  stack : proc.ustackAddr = 0 ∨ Mapped vm proc.pdir (userStackPage / 4096) proc.ustackAddr
  segs : ∀ v ∈ proc.segPages, v % 4096 = 0 ∧ UserPage (v / 4096) ∧ (proc.ustackAddr = 0 ∨ v ≠ userStackPage) ∧
    ∃ f, Mapped vm proc.pdir (v / 4096) f
  nodup : proc.segPages.Nodup
  brk : proc.brkPage < 4294967296

theorem userPage_stack : UserPage (userStackPage / 4096) := by decide

theorem Holds.change {own own' : Owners} {vm vm' : Vm} {a : Option Nat} {q : Nat} {proc : ProcSpace} (hc : Change own own' vm vm' a)
    (hq : a ≠ some q) (h : Holds own vm q proc) : Holds own' vm' q proc := by
  refine ⟨hc.space hq h.space, h.stack.imp_right (hc.mapped hq h.space userPage_stack), fun v hv => ?_, h.nodup, h.brk⟩
  obtain ⟨hmod, hu, hne, f, hm⟩ := h.segs v hv
  exact ⟨hmod, hu, hne, f, hc.mapped hq h.space hu hm⟩

/-- The heap's end may move. -/
theorem Holds.setBrk {own : Owners} {vm : Vm} {p : Nat} {proc : ProcSpace} (h : Holds own vm p proc) (memBrk : Nat) {brkPage : Nat}
    (hb : brkPage < 4294967296) : Holds own vm p { proc with memBrk := memBrk, brkPage := brkPage } :=
  ⟨h.space, h.stack, fun v hv => h.segs v hv, h.nodup, hb⟩

/-- In every state, each process that lives holds its memory. -/
structure SpaceInv (own : Owners) (m : Machine) : Prop where
  kernelOk : KernelOk own m
  holds : ∀ q, (m.procs q).live = true → Holds own m.vm q (m.procs q)

/-- What the kernel is going to do does not matter. -/
theorem SpaceInv.withWork {own : Owners} {m : Machine} (h : SpaceInv own m) (work : List (List KernelAction)) :
    SpaceInv own { m with work := work } :=
  ⟨⟨h.kernelOk.owned, h.kernelOk.kernelPages⟩, h.holds⟩

/-- A step of the kernel, or of a process that is not yet or no longer living. -/
theorem SpaceInv.moves {own own' : Owners} {m m' : Machine} {a : Option Nat} (h : SpaceInv own m) (hm : Moves own own' m m' a)
    (ha : ∀ q, (m.procs q).live = true → a ≠ some q) : SpaceInv own' m' := by
  refine ⟨hm.kernelOk, fun q hq => ?_⟩
  rw [hm.procs] at hq ⊢
  exact (h.holds q hq).change hm.change (ha q hq)

theorem SpaceInv.kernelWork {own : Owners} {m m' : Machine} (h : SpaceInv own m) (hw : m.kernelWork = some m') :
    ∃ own', SpaceInv own' m' ∧ Moves own own' m m' none := by
  obtain ⟨own', hm⟩ := kernelWork_moves h.kernelOk hw
  exact ⟨own', h.moves hm nofun, hm⟩

/-- A process that lives, or that begins to live, gets another record. -/
theorem SpaceInv.setProc {own : Owners} {m : Machine} (h : SpaceInv own m) {p : Nat} {f : ProcSpace → ProcSpace}
    (hp : (f (m.procs p)).live = true → Holds own m.vm p (f (m.procs p))) : SpaceInv own (m.setProc p f) := by
  refine ⟨⟨h.kernelOk.owned, h.kernelOk.kernelPages⟩, fun q hq => ?_⟩
  by_cases he : q = p
  · subst he
    simp only [Machine.setProc, Function.update_self] at hq ⊢
    exact hp hq
  · simp only [Machine.setProc, Function.update_of_ne he] at hq ⊢
    exact h.holds q hq

/-! ## Ending a process -/

/-- The stack is given back, if there is one; what else the process has stays its own. -/
theorem freeStack_moves {own : Owners} {m : Machine} {p a : Nat} (hk : KernelOk own m)
    (ha : a = 0 ∨ own a = some (.page p (userStackPage / 4096))) :
    ∃ own', Moves own own' m (m.freePage a) (some p) ∧
      ∀ f o, own f = some o → o ≠ .page p (userStackPage / 4096) → own' f = some o := by
  rcases ha with rfl | ha
  · exact ⟨own, freePage_zero hk _, fun _ _ h _ => h⟩
  · refine ⟨_, freePage_moves hk ha rfl, fun f o hf hne => ?_⟩
    rw [Function.update_of_ne, hf]
    rintro rfl
    exact hne (Option.some.inj (hf.symm.trans ha))

/-- `pm_destroy` gives back only what belongs to the process. -/
theorem pmDestroy_inv {own : Owners} {m m' : Machine} {p : Nat} (h : SpaceInv own m) (hp : (m.procs p).live = true)
    (hd : m.pmDestroy p = some m') : ∃ own', SpaceInv own' m' := by
  have hold := h.holds p hp
  have hdead : SpaceInv own (m.setProc p ({ · with live := false })) := h.setProc nofun
  have hnot : ∀ q, ((m.setProc p ({ · with live := false })).procs q).live = true → some p ≠ some q := by
    rintro q hq he
    cases he
    simp [Machine.setProc] at hq
  simp only [Machine.pmDestroy, elf32Cleanup_eq] at hd
  obtain ⟨m₁, hwork₁, hd⟩ := Option.bind_eq_some_iff.mp hd
  obtain ⟨m₂, hwork₂, hwork₃⟩ := Option.bind_eq_some_iff.mp hd
  obtain ⟨own₁, hm₁, -, hown₁⟩ := freeMapped_moves (p := p) (m.procs p).segPages hdead.kernelOk
    (fun v hv => by
      obtain ⟨hmod, hu, -, f, hm⟩ := hold.segs v hv
      exact ⟨hmod, f, hm, hold.space.own_of_mapped hu hm⟩) hold.nodup
  obtain ⟨own₂, hm₂⟩ := kernelWork_moves hm₁.kernelOk hwork₁
  have hstack : (m.procs p).ustackAddr = 0 ∨ own₂ (m.procs p).ustackAddr = some (.page p (userStackPage / 4096)) := by
    by_cases h0 : (m.procs p).ustackAddr = 0
    · exact .inl h0
    · have hown := hold.space.own_of_mapped userPage_stack (hold.stack.resolve_left h0)
      refine .inr (hm₂.change.owner _ _ p (hown₁ _ _ hown fun v hv he => ?_) rfl nofun)
      obtain ⟨hmod, -, hne, -⟩ := hold.segs v hv
      have hpage : userStackPage / 4096 = v / 4096 := by simpa using he
      refine hne.resolve_left h0 ?_
      simp only [userStackPage, pageSize] at hpage ⊢
      omega
  have hdir₂ : own₂ (m.procs p).pdir = some (.pdir p) :=
    hm₂.change.owner _ _ p (hown₁ _ _ hold.space.dir fun _ _ => nofun) rfl nofun
  obtain ⟨own₃, hm₃, hown₃⟩ := freeStack_moves hm₂.kernelOk hstack
  obtain ⟨own₄, hm₄⟩ := kernelWork_moves hm₃.kernelOk hwork₂
  have hdir₄ : own₄ (m.procs p).pdir = some (.pdir p) := hm₄.change.owner _ _ p (hown₃ _ _ hdir₂ nofun) rfl nofun
  have hm₅ := freePage_moves hm₄.kernelOk hdir₄ rfl
  obtain ⟨own₆, hm₆⟩ := kernelWork_moves hm₅.kernelOk hwork₃
  have hall := (((hm₁.trans (hm₂.weaken _)).trans hm₃).trans (hm₄.weaken _)).trans (hm₅.trans (hm₆.weaken _))
  exact ⟨own₆, hdead.moves hall hnot⟩

/-! ## Creating a process -/

theorem present_vmUserFlags : present vmUserFlags = true := by decide

theorem vmUserFlags_lt : vmUserFlags.toNat < 4096 := by decide

/-- A slot in which no process lives is not the slot of a process that lives. -/
theorem ne_of_not_live {m : Machine} {p : Nat} (hp : (m.procs p).live = false) :
    ∀ q, (m.procs q).live = true → some p ≠ some q := by
  rintro q hq he
  cases he
  rw [hp] at hq
  cases hq

theorem getEmptyProc_spec {m : Machine} {p : Nat} (h : getEmptyProc m = some p) : (m.procs p).live = false := by
  simpa using List.find?_some h

/-- `init_proc` makes a process that holds its stack. -/
theorem initProc_inv {own : Owners} {m m' : Machine} {p : Nat} (h : SpaceInv own m) (hp : (m.procs p).live = false)
    (hi : initProc m p = some m') : ∃ own', SpaceInv own' m' ∧ (m'.procs p).live = true := by
  unfold initProc at hi
  obtain ⟨m₁, hwork, hi⟩ := Option.bind_eq_some_iff.mp hi
  obtain ⟨⟨pdir, m₂⟩, hcreate, hi⟩ := Option.bind_eq_some_iff.mp hi
  obtain ⟨⟨r, m₃⟩, hnew, hi⟩ := Option.bind_eq_some_iff.mp hi
  obtain ⟨page, hr, rfl⟩ := Option.map_eq_some_iff.mp hi
  obtain ⟨own₁, hm₁⟩ := kernelWork_moves h.kernelOk hwork
  obtain ⟨own₂, hm₂, hs₂⟩ := vmCreateAddrspace_moves hm₁.kernelOk hcreate p
  obtain ⟨own₃, hm₃, hs₃, -, -, hpage⟩ := newPage_moves hm₂.kernelOk hs₂ (by decide) present_vmUserFlags vmUserFlags_lt (by nofun) hnew
  obtain ⟨-, -, hmapped⟩ := hpage page hr
  have hinv := h.moves ((hm₁.weaken _).trans (hm₂.trans hm₃)) (ne_of_not_live hp)
  refine ⟨own₃, hinv.setProc fun _ => ?_, by simp [Machine.setProc]⟩
  exact ⟨hs₃, .inr (hmapped userPage_stack).1, nofun, List.nodup_nil, Nat.zero_lt_succ _⟩

theorem pmCreate_inv {own : Owners} {m m' : Machine} {p : Nat} (h : SpaceInv own m) (hc : pmCreate m = some (p, m')) :
    ∃ own', SpaceInv own' m' ∧ (m'.procs p).live = true := by
  unfold pmCreate at hc
  obtain ⟨p', hempty, hc⟩ := Option.bind_eq_some_iff.mp hc
  obtain ⟨m₁, hinit, heq⟩ := Option.map_eq_some_iff.mp hc
  obtain ⟨rfl, rfl⟩ := Prod.mk.inj heq
  exact initProc_inv h (getEmptyProc_spec hempty) hinit

/-! ## Copying a process -/

theorem present_getPtabEntry {vm : Vm} {pdir v : Nat} (h : getPtabEntry vm pdir v ≠ 0#32) :
    present (getPtabEntry vm pdir v) = true := by
  simp only [getPtabEntry] at h ⊢
  split at h
  · exact absurd rfl h
  · rename_i hpde
    split at h
    · rename_i hpte
      rw [if_neg hpde, if_pos hpte]
      exact hpte
    · exact absurd rfl h

theorem present_getflags (e : Entry) : present (getflags e) = present e := by
  rw [present_eq, present_eq, getflags, BitVec.getLsbD_and]
  simp

/-- `clone_entry` gives the new process a page of its own. -/
theorem cloneEntry_moves {own : Owners} {m m' : Machine} {p pdir newpd v : Nat} {r : Option Nat} (hk : KernelOk own m)
    (hs : Space own m.vm p newpd) (hv : 4096 ≤ v) (hv' : v < 4294967296) (hne : getPtabEntry m.vm pdir v ≠ 0#32)
    (h : cloneEntry m newpd v (getPtabEntry m.vm pdir v) = some (r, m')) :
    ∃ own', Moves own own' m m' (some p) ∧ Space own' m'.vm p newpd := by
  obtain ⟨own', hm, hs', -⟩ := newPage_moves hk hs hv' (by rw [present_getflags]; exact present_getPtabEntry hne)
    (getflags_toNat_lt _) (fun _ => hv) h
  exact ⟨own', hm, hs'⟩

theorem cloneEntries_moves {own : Owners} {m m' : Machine} {p pdir newpd : Nat} {addrs : List Nat} {ok : Bool} (hk : KernelOk own m)
    (hs : Space own m.vm p newpd) (ha : ∀ v ∈ addrs, 4096 ≤ v ∧ v < 4294967296)
    (h : cloneEntries pdir newpd addrs m = some (ok, m')) : ∃ own', Moves own own' m m' (some p) ∧ Space own' m'.vm p newpd := by
  induction addrs generalizing own m with
  | nil =>
    cases h
    exact ⟨own, hk.refl _, hs⟩
  | cons v addrs ih =>
    have hrest : ∀ w ∈ addrs, 4096 ≤ w ∧ w < 4294967296 := fun w hw => ha w (List.mem_cons_of_mem v hw)
    rw [cloneEntries] at h
    split at h
    · exact ih hk hs hrest h
    · rename_i hne
      obtain ⟨⟨r, m₁⟩, hclone, h⟩ := Option.bind_eq_some_iff.mp h
      obtain ⟨hv, hv'⟩ := ha v List.mem_cons_self
      obtain ⟨own₁, hm₁, hs₁⟩ := cloneEntry_moves hk hs hv hv' hne hclone
      simp only at h
      split at h
      · obtain ⟨own', hm', hs'⟩ := ih hm₁.kernelOk hs₁ hrest h
        exact ⟨own', hm₁.trans hm', hs'⟩
      · obtain ⟨-, rfl⟩ := Prod.mk.inj (Option.some.inj h)
        exact ⟨own₁, hm₁, hs₁⟩

theorem clonedPages_bounds {brkPage : Nat} (hb : brkPage < 4294967296) : ∀ v ∈ clonedPages brkPage, 4096 ≤ v ∧ v < 4294967296 := by
  intro v hv
  obtain ⟨k, hk, rfl⟩ := List.mem_map.mp hv
  have hk := List.mem_range.mp hk
  simp only [kernSpaceEnd, pageSize] at hk ⊢
  omega

/-- `vm_clone_addrspace` makes an address space of the new process. -/
theorem vmCloneAddrspace_moves {own : Owners} {m m' : Machine} {p brkPage pdir newpd : Nat} (hk : KernelOk own m)
    (hb : brkPage < 4294967296) (h : vmCloneAddrspace m brkPage pdir = some (newpd, m')) :
    ∃ own', Moves own own' m m' (some p) ∧ Space own' m'.vm p newpd := by
  unfold vmCloneAddrspace at h
  obtain ⟨⟨newpd', m₁⟩, hcreate, h⟩ := Option.bind_eq_some_iff.mp h
  obtain ⟨⟨ok, m₂⟩, hclone, h⟩ := Option.bind_eq_some_iff.mp h
  obtain ⟨own₁, hm₁, hs₁⟩ := vmCreateAddrspace_moves hk hcreate p
  obtain ⟨own₂, hm₂, hs₂⟩ := cloneEntries_moves hm₁.kernelOk hs₁ (clonedPages_bounds hb) hclone
  simp only at h
  split at h
  · cases h
  · split at h
    · obtain ⟨rfl, rfl⟩ := Prod.mk.inj (Option.some.inj h)
      exact ⟨own₂, hm₁.trans hm₂, hs₂⟩
    · rename_i hne
      obtain ⟨⟨r, m₃⟩, hstack, heq⟩ := Option.map_eq_some_iff.mp h
      obtain ⟨rfl, rfl⟩ := Prod.mk.inj heq
      obtain ⟨own₃, hm₃, hs₃⟩ := cloneEntry_moves hm₂.kernelOk hs₂ (by decide) (by decide) hne hstack
      exact ⟨own₃, (hm₁.trans hm₂).trans hm₃, hs₃⟩

/-- What `vm_resolve_virt` finds for a page is 0 or the frame that is mapped. -/
theorem mapped_of_resolve (vm : Vm) (pdir : Nat) {v : Nat} (hv : v % 4096 = 0) :
    vmResolveVirt vm pdir v = 0 ∨ Mapped vm pdir (v / 4096) (vmResolveVirt vm pdir v) := by
  by_cases h : present (vm.tabs pdir (v / 4096 / 1024)) = true ∧
      present (vm.tabs (getaddr (vm.tabs pdir (v / 4096 / 1024))) (v / 4096 % 1024)) = true
  · have hm : Mapped vm pdir (v / 4096) (getaddr (vm.tabs (getaddr (vm.tabs pdir (v / 4096 / 1024))) (v / 4096 % 1024))) :=
      ⟨h.1, h.2, rfl⟩
    rw [hm.resolve hv]
    exact .inr hm
  · left
    have hzero : getPtabEntry vm pdir v = 0#32 := by
      by_contra hne
      have hpte := hne
      simp only [getPtabEntry, bnotset_eq, pdirIndex, ptabIndex, pageSize] at hpte
      rw [not_and_or] at h
      rcases h with h | h <;> simp [h] at hpte
    simp [vmResolveVirt, hzero, bnotset]

/-- `pm_fork` makes a process with an address space of its own. -/
theorem pmFork_inv {own : Owners} {m m' : Machine} {parent : Nat} {r : Option Nat} (h : SpaceInv own m)
    (hp : (m.procs parent).live = true) (hf : pmFork m parent = some (r, m')) : ∃ own', SpaceInv own' m' := by
  unfold pmFork at hf
  split at hf
  · cases hf
    exact ⟨own, h⟩
  · rename_i child hempty
    obtain ⟨m₁, hwork, hf⟩ := Option.bind_eq_some_iff.mp hf
    obtain ⟨⟨pdir, m₂⟩, hclone, hf⟩ := Option.bind_eq_some_iff.mp hf
    obtain ⟨m₃, hwork', heq⟩ := Option.map_eq_some_iff.mp hf
    obtain ⟨-, rfl⟩ := Prod.mk.inj heq
    obtain ⟨own₁, hm₁⟩ := kernelWork_moves h.kernelOk hwork
    have hbrk : (m₁.procs parent).brkPage < 4294967296 := by
      rw [hm₁.procs]
      exact (h.holds parent hp).brk
    obtain ⟨own₂, hm₂, hs₂⟩ := vmCloneAddrspace_moves (p := child) hm₁.kernelOk hbrk hclone
    have hinv := h.moves ((hm₁.weaken _).trans hm₂) (ne_of_not_live (getEmptyProc_spec hempty))
    have hset := hinv.setProc (p := child) (f := fun _ =>
      { live := true, pdir := pdir, ustackAddr := vmResolveVirt m₂.vm pdir userStackPage, memBrk := (m₂.procs parent).memBrk,
        brkPage := (m₂.procs parent).brkPage, cleanup := false, ldata := none }) fun _ =>
      ⟨hs₂, mapped_of_resolve _ _ (by decide), fun _ hw => (by cases hw), List.nodup_nil, by rw [hm₂.procs]; exact hbrk⟩
    obtain ⟨own₃, hinv₃, -⟩ := hset.kernelWork hwork'
    exact ⟨own₃, hinv₃⟩

/-! ## Loading a program -/

/-- Pages for a process that lives, without force: it holds what it held, and its pages stay where they are. -/
theorem newPage_inv {own : Owners} {m m' : Machine} {p v : Nat} {r : Option Nat} (h : SpaceInv own m) (hp : (m.procs p).live = true)
    (hv : v < 4294967296) (hn : newPage m (m.procs p).pdir v vmUserFlags false = some (r, m')) :
    ∃ own', SpaceInv own' m' ∧ m'.procs = m.procs ∧
      (∀ n f, UserPage n → Mapped m.vm (m.procs p).pdir n f → Mapped m'.vm (m.procs p).pdir n f) ∧
      (∀ n f, UserPage n → n ≠ v / 4096 → Mapped m'.vm (m.procs p).pdir n f → Mapped m.vm (m.procs p).pdir n f) ∧
      (r.isSome = true → 0 < v / 4096 ∧ (UserPage (v / 4096) →
        (∃ f, Mapped m'.vm (m.procs p).pdir (v / 4096) f) ∧ ∀ f, ¬Mapped m.vm (m.procs p).pdir (v / 4096) f)) := by
  have hold := h.holds p hp
  obtain ⟨own', hm, hs, hkeep, honly, hpage⟩ :=
    newPage_moves h.kernelOk hold.space hv present_vmUserFlags vmUserFlags_lt (by nofun) hn
  have hkeep' : ∀ n f, UserPage n → Mapped m.vm (m.procs p).pdir n f → Mapped m'.vm (m.procs p).pdir n f :=
    fun n f hu hmap => hkeep n f hu hmap (.inr rfl)
  refine ⟨own', ⟨hm.kernelOk, fun q hq => ?_⟩, hm.procs, hkeep', honly, fun hr => ?_⟩
  · rw [hm.procs] at hq ⊢
    by_cases he : q = p
    · subst he
      refine ⟨hs, hold.stack.imp_right (hkeep' _ _ userPage_stack), fun w hw => ?_, hold.nodup, hold.brk⟩
      obtain ⟨hmod, hu, hne, f, hmap⟩ := hold.segs w hw
      exact ⟨hmod, hu, hne, f, hkeep' _ _ hu hmap⟩
    · exact (h.holds q hq).change hm.change fun hqp => he (Option.some.inj hqp).symm
  · obtain ⟨page, rfl⟩ := Option.isSome_iff_exists.mp hr
    obtain ⟨-, hpos, hmap⟩ := hpage page rfl
    exact ⟨hpos, fun hu => ⟨⟨page, (hmap hu).1⟩, (hmap hu).2 rfl⟩⟩

/-- Aligned pages below the end of the address space reach up to it. -/
theorem page_end_le {base k : Nat} (hb : base % 4096 = 0) (h : base + k * 4096 < 4294967296) :
    base + (k + 1) * 4096 ≤ 4294967296 := by
  omega

/-- The pages of a segment from page `k` on lie in user space, and nothing was mapped there: at the end of the address space the
next page would be page 0. -/
theorem elf32AllocMem_inv {own : Owners} {m m' : Machine} {p base k n : Nat} {ok : Bool} (h : SpaceInv own m)
    (hp : (m.procs p).live = true) (hb : base % 4096 = 0) (hu : userSpaceStart ≤ base) (hk : base + k * 4096 ≤ 4294967296)
    (ha : elf32AllocMem (m.procs p).pdir base (List.range' k n) m = some (ok, m')) :
    ∃ own', SpaceInv own' m' ∧ m'.procs = m.procs ∧
      (∀ n f, UserPage n → Mapped m.vm (m.procs p).pdir n f → Mapped m'.vm (m.procs p).pdir n f) ∧
      (∀ w f, UserPage w → (∀ i ∈ List.range' k n, w ≠ pageOf base i / 4096) → Mapped m'.vm (m.procs p).pdir w f →
        Mapped m.vm (m.procs p).pdir w f) ∧
      (ok = true → base + (k + n) * 4096 ≤ 4294967296 ∧ ∀ i ∈ List.range' k n,
        (∃ f, Mapped m'.vm (m.procs p).pdir ((base + i * 4096) / 4096) f) ∧
          ∀ f, ¬Mapped m.vm (m.procs p).pdir ((base + i * 4096) / 4096) f) := by
  induction n generalizing own m k with
  | zero =>
    cases ha
    exact ⟨own, h, rfl, fun _ _ _ hm => hm, fun _ _ _ _ hm => hm, fun _ => ⟨by simpa using hk, fun _ hi => by cases hi⟩⟩
  | succ n ih =>
    rw [List.range'_succ, elf32AllocMem] at ha
    obtain ⟨⟨r, m₁⟩, hnew, ha⟩ := Option.bind_eq_some_iff.mp ha
    have hv : pageOf base k < 4294967296 := w32_lt _
    obtain ⟨own₁, hinv₁, hprocs₁, hkeep₁, honly₁, hpage₁⟩ := newPage_inv h hp hv hnew
    simp only at ha
    split at ha
    · rename_i hr
      obtain ⟨hpos, hmap⟩ := hpage₁ hr
      -- a page that is not page 0 is not behind the end of the address space
      have hlt : base + k * 4096 < 4294967296 := by
        rcases Nat.lt_or_eq_of_le hk with hlt | heq
        · exact hlt
        · simp only [pageOf, pageSize, heq] at hpos
          exact absurd hpos (by decide)
      have hpageOf : pageOf base k = base + k * 4096 := w32_of_lt hlt
      have huser : UserPage ((base + k * 4096) / 4096) := by
        simp only [userSpaceStart] at hu
        exact ⟨by omega, by omega⟩
      rw [hpageOf] at hmap
      obtain ⟨⟨f, hmapped⟩, hnot⟩ := hmap huser
      obtain ⟨own', hinv', hprocs', hkeep', honly', hpages⟩ := ih hinv₁ (by rw [hprocs₁]; exact hp) (k := k + 1) (page_end_le hb hlt)
        (by rw [hprocs₁]; exact ha)
      rw [hprocs₁] at hkeep' honly' hpages
      refine ⟨own', hinv', hprocs'.trans hprocs₁, fun w g hw hm => hkeep' w g hw (hkeep₁ w g hw hm), fun w g hw hne hm => ?_,
        fun hok => ?_⟩
      · rw [List.range'_succ, List.forall_mem_cons] at hne
        exact honly₁ w g hw hne.1 (honly' w g hw hne.2 hm)
      obtain ⟨hend, hrest⟩ := hpages hok
      refine ⟨by rwa [Nat.add_comm n 1, ← Nat.add_assoc], fun i hi => ?_⟩
      rcases List.mem_cons.mp hi with rfl | hi
      · exact ⟨⟨f, hkeep' _ _ huser hmapped⟩, hnot⟩
      · obtain ⟨hm, hn⟩ := hrest i hi
        have hi' := List.mem_range'_1.mp hi
        refine ⟨hm, fun g hg => hn g (hkeep₁ _ _ ?_ hg)⟩
        simp only [userSpaceStart] at hu
        exact ⟨by omega, by omega⟩
    · obtain ⟨rfl, rfl⟩ := Prod.mk.inj (Option.some.inj ha)
      refine ⟨own₁, hinv₁, hprocs₁, hkeep₁, fun w g hw hne hm => ?_, fun hfull => by cases hfull⟩
      rw [List.range'_succ, List.forall_mem_cons] at hne
      exact honly₁ w g hw hne.1 hm

theorem addrs_eq {base n : Nat} (h : base + n * 4096 ≤ 4294967296) :
    (⟨base, n⟩ : ElfLdata).addrs = (List.range n).map (fun i => base + i * 4096) := by
  refine List.map_congr_left fun i hi => ?_
  have hi : i < n := List.mem_range.mp hi
  exact w32_of_lt (by simp only [pageSize]; omega)

/-- A process with one more segment. -/
theorem segPages_cons (proc : ProcSpace) (d : ElfLdata) :
    { proc with ldata := proc.ldata.map (d :: ·) }.segPages = proc.segPages ∨
      { proc with ldata := proc.ldata.map (d :: ·) }.segPages = d.addrs ++ proc.segPages := by
  unfold ProcSpace.segPages
  cases proc.cleanup with
  | false => exact .inl rfl
  | true =>
    cases proc.ldata with
    | none => exact .inl rfl
    | some l => exact .inr (by simp)

/-- A process holds a segment whose pages were not mapped before. -/
theorem Holds.addSegment {own own₁ : Owners} {vm vm₁ : Vm} {p base n : Nat} {proc : ProcSpace} (h : Holds own vm p proc)
    (h₁ : Holds own₁ vm₁ p proc) (hb : base % 4096 = 0) (hu : userSpaceStart ≤ base) (hend : base + n * 4096 ≤ 4294967296)
    (hpages : ∀ i < n, (∃ f, Mapped vm₁ proc.pdir ((base + i * 4096) / 4096) f) ∧
      ∀ f, ¬Mapped vm proc.pdir ((base + i * 4096) / 4096) f) :
    Holds own₁ vm₁ p { proc with ldata := proc.ldata.map (⟨base, n⟩ :: ·) } := by
  have hmem : ∀ v ∈ (⟨base, n⟩ : ElfLdata).addrs, ∃ i < n, v = base + i * 4096 := by
    intro v hv
    rw [addrs_eq hend] at hv
    obtain ⟨i, hi, rfl⟩ := List.mem_map.mp hv
    exact ⟨i, List.mem_range.mp hi, rfl⟩
  rcases segPages_cons proc ⟨base, n⟩ with hseg | hseg
  · exact ⟨h₁.space, h₁.stack, by rw [hseg]; exact h₁.segs, by rw [hseg]; exact h₁.nodup, h₁.brk⟩
  · refine ⟨h₁.space, h₁.stack, fun v hv => ?_, ?_, h₁.brk⟩
    · rw [hseg] at hv
      rcases List.mem_append.mp hv with hv | hv
      · obtain ⟨i, hi, rfl⟩ := hmem v hv
        obtain ⟨hmapped, hnot⟩ := hpages i hi
        refine ⟨by omega, ⟨?_, by omega⟩, ?_, hmapped⟩
        · simp only [userSpaceStart] at hu
          omega
        · by_cases h0 : proc.ustackAddr = 0
          · exact .inl h0
          · refine .inr fun he => hnot proc.ustackAddr ?_
            rw [he]
            exact h.stack.resolve_left h0
      · exact h₁.segs v hv
    · rw [hseg, List.nodup_append]
      refine ⟨?_, h₁.nodup, fun v hv w hw he => ?_⟩
      · rw [addrs_eq hend]
        exact List.nodup_range.map fun i j hij => by simpa using hij
      · obtain ⟨i, hi, rfl⟩ := hmem v hv
        obtain ⟨-, -, -, f, hm⟩ := h.segs w hw
        exact (hpages i hi).2 f (he ▸ hm)

/-- `elf32_map_segment` adds a segment to what the process holds, and maps nothing else. -/
theorem elf32MapSegment_inv {own : Owners} {m m' : Machine} {p : Nat} {phdr : Phdr} {ok : Bool} (h : SpaceInv own m)
    (hp : (m.procs p).live = true) (hs : elf32MapSegment m p phdr = some (ok, m')) :
    ∃ own', SpaceInv own' m' ∧ (m'.procs p).live = true ∧ (m'.procs p).pdir = (m.procs p).pdir ∧
      (∀ w f, UserPage w → (∀ i < numPages phdr.memsz, w ≠ pageOf (alignAddr phdr.vaddr) i / 4096) →
        Mapped m'.vm (m.procs p).pdir w f → Mapped m.vm (m.procs p).pdir w f) ∧
      (ok = true → phdr.memsz ≠ 0 → alignAddr phdr.vaddr + numPages phdr.memsz * 4096 ≤ 4294967296 ∧
        ∀ i < numPages phdr.memsz, ∃ f, Mapped m'.vm (m.procs p).pdir ((alignAddr phdr.vaddr + i * 4096) / 4096) f) := by
  unfold elf32MapSegment at hs
  simp only at hs
  split at hs
  · rename_i hzero
    cases hs
    exact ⟨own, h, hp, rfl, fun _ _ _ _ hm => hm, fun _ hne => absurd hzero hne⟩
  · split at hs
    · cases hs
      exact ⟨own, h, hp, rfl, fun _ _ _ _ hm => hm, fun hok => by cases hok⟩
    · rename_i hbase
      obtain ⟨⟨ok', m₁⟩, halloc, hs⟩ := Option.bind_eq_some_iff.mp hs
      generalize hbe : alignAddr phdr.vaddr = base at halloc hs hbase ⊢
      generalize numPages phdr.memsz = n at halloc hs ⊢
      have hmod : base % 4096 = 0 := by
        rw [← hbe]
        simp only [alignAddr, pageOffset, pageSize]
        omega
      have hlt : base ≤ 4294967296 := by
        have := phdr.vaddr_lt
        rw [← hbe]
        simp only [alignAddr]
        omega
      have hu : userSpaceStart ≤ base := Nat.not_lt.mp hbase
      rw [List.range_eq_range'] at halloc
      obtain ⟨own₁, hinv₁, hprocs₁, hkeep₁, honly₁, hpages₁⟩ := elf32AllocMem_inv h hp hmod hu (by omega) halloc
      have hmem : ∀ i, i ∈ List.range' 0 n ↔ i < n := fun i => by rw [← List.range_eq_range', List.mem_range]
      simp only [hmem] at honly₁ hpages₁
      simp only at hs
      split at hs
      · rename_i hok
        obtain ⟨hend, hpages⟩ := hpages₁ hok
        rw [Nat.zero_add] at hend
        obtain ⟨m₂, hwork, heq⟩ := Option.map_eq_some_iff.mp hs
        obtain ⟨-, rfl⟩ := Prod.mk.inj heq
        have hp₁ : (m₁.procs p).live = true := by rw [hprocs₁]; exact hp
        have hold₁ := hinv₁.holds p hp₁
        rw [hprocs₁] at hold₁
        have hset := hinv₁.setProc (p := p) (f := fun proc => { proc with ldata := proc.ldata.map (⟨base, n⟩ :: ·) }) fun _ => by
          rw [hprocs₁]
          exact (h.holds p hp).addSegment hold₁ hmod hu hend hpages
        obtain ⟨own₂, hinv₂, hm₂⟩ := hset.kernelWork hwork
        refine ⟨own₂, hinv₂, ?_, ?_, fun w f hw hne hm => ?_, fun _ _ => ⟨hend, fun i hi => ?_⟩⟩
        · rw [hm₂.procs]
          simpa [Machine.setProc] using hp₁
        · rw [hm₂.procs]
          simp [Machine.setProc, hprocs₁]
        · exact honly₁ w f hw hne (hm₂.change.mapped_only (Option.some_ne_none p).symm hold₁.space hw hm)
        · obtain ⟨⟨f, hm⟩, -⟩ := hpages i hi
          simp only [userSpaceStart] at hu
          exact ⟨f, hm₂.change.mapped (Option.some_ne_none p).symm hold₁.space ⟨by omega, by omega⟩ hm⟩
      · rename_i hno
        obtain ⟨rfl, rfl⟩ := Prod.mk.inj (Option.some.inj hs)
        exact ⟨own₁, hinv₁, by rw [hprocs₁]; exact hp, by rw [hprocs₁], honly₁, fun hok => by cases hok⟩

theorem loadSegments_inv {own : Owners} {m m' : Machine} {p : Nat} {phdrs : List Phdr} {ok : Bool} (h : SpaceInv own m)
    (hp : (m.procs p).live = true) (hl : loadSegments p phdrs m = some (ok, m')) :
    ∃ own', SpaceInv own' m' ∧ (m'.procs p).live = true := by
  induction phdrs generalizing own m with
  | nil =>
    cases hl
    exact ⟨own, h, hp⟩
  | cons phdr phdrs ih =>
    rw [loadSegments] at hl
    split at hl
    · obtain ⟨⟨ok', m₁⟩, hmap, hl⟩ := Option.bind_eq_some_iff.mp hl
      obtain ⟨own₁, hinv₁, hp₁, -⟩ := elf32MapSegment_inv h hp hmap
      simp only at hl
      split at hl
      · refine ih (hinv₁.setProc fun _ => (hinv₁.holds p hp₁).setBrk _ (w32_lt _)) ?_ hl
        simpa [Machine.setProc, elf32Getbrk] using hp₁
      · obtain ⟨-, rfl⟩ := Prod.mk.inj (Option.some.inj hl)
        exact ⟨own₁, hinv₁, hp₁⟩
    · exact ih h hp hl

/-- `elf32_exec` makes a process that holds its program, or none. -/
theorem elf32Exec_inv {own : Owners} {m m' : Machine} {phdrs : List Phdr} {r : Option Nat} (h : SpaceInv own m)
    (he : elf32Exec m phdrs = some (r, m')) : ∃ own', SpaceInv own' m' := by
  unfold elf32Exec at he
  obtain ⟨⟨p, m₁⟩, hcreate, he⟩ := Option.bind_eq_some_iff.mp he
  obtain ⟨m₂, hwork, he⟩ := Option.bind_eq_some_iff.mp he
  obtain ⟨⟨ok, m₃⟩, hload, he⟩ := Option.bind_eq_some_iff.mp he
  obtain ⟨own₁, hinv₁, hp₁⟩ := pmCreate_inv h hcreate
  have hold := hinv₁.holds p hp₁
  have hset := hinv₁.setProc (p := p) (f := ({ · with cleanup := true, ldata := some [] })) fun _ =>
    ⟨hold.space, hold.stack, nofun, List.nodup_nil, hold.brk⟩
  obtain ⟨own₂, hinv₂, hm₂⟩ := hset.kernelWork hwork
  have hp₂ : (m₂.procs p).live = true := by
    rw [hm₂.procs]
    simpa [Machine.setProc] using hp₁
  obtain ⟨own₃, hinv₃, hp₃⟩ := loadSegments_inv hinv₂ hp₂ hload
  simp only at he
  split at he
  · obtain ⟨m₄, hwork', heq⟩ := Option.map_eq_some_iff.mp he
    obtain ⟨-, rfl⟩ := Prod.mk.inj heq
    obtain ⟨own₄, hinv₄, -⟩ := hinv₃.kernelWork hwork'
    exact ⟨own₄, hinv₄⟩
  · obtain ⟨m₄, hdestroy, heq⟩ := Option.map_eq_some_iff.mp he
    obtain ⟨-, rfl⟩ := Prod.mk.inj heq
    exact pmDestroy_inv hinv₃ hp₃ hdestroy

/-! ## The heap -/

theorem growHeap_inv {own : Owners} {m m' : Machine} {p pages : Nat} {ok : Bool} (h : SpaceInv own m) (hp : (m.procs p).live = true)
    (hg : growHeap p pages m = some (ok, m')) : ∃ own', SpaceInv own' m' ∧ (m'.procs p).live = true := by
  induction pages generalizing own m with
  | zero =>
    cases hg
    exact ⟨own, h, hp⟩
  | succ pages ih =>
    rw [growHeap] at hg
    obtain ⟨⟨r, m₁⟩, hnew, hg⟩ := Option.bind_eq_some_iff.mp hg
    obtain ⟨own₁, hinv₁, hprocs₁, -⟩ := newPage_inv h hp (h.holds p hp).brk hnew
    have hp₁ : (m₁.procs p).live = true := by rw [hprocs₁]; exact hp
    simp only at hg
    split at hg
    · have hset := hinv₁.setProc (p := p) (f := fun proc => { proc with brkPage := w32 (proc.brkPage + pageSize) }) fun _ =>
        (hinv₁.holds p hp₁).setBrk _ (w32_lt _)
      refine ih hset ?_ hg
      simpa [Machine.setProc] using hp₁
    · obtain ⟨-, rfl⟩ := Prod.mk.inj (Option.some.inj hg)
      exact ⟨own₁, hinv₁, hp₁⟩

theorem moveBrk_inv {own : Owners} {m : Machine} {p : Nat} {incr : Int} (h : SpaceInv own m) (hp : (m.procs p).live = true) :
    SpaceInv own (m.moveBrk p incr) := by
  exact h.setProc fun _ => (h.holds p hp).setBrk _ (h.holds p hp).brk

/-- `sys_sbrk` maps only pages that nobody else has. -/
theorem sysSbrk_inv {own : Owners} {m m' : Machine} {p : Nat} {incr : Int} {r : Nat} (h : SpaceInv own m)
    (hp : (m.procs p).live = true) (hs : sysSbrk m p incr = some (r, m')) : ∃ own', SpaceInv own' m' := by
  unfold sysSbrk at hs
  simp only at hs
  split at hs
  · cases hs
    exact ⟨own, h⟩
  · split at hs
    · obtain ⟨⟨ok, m₁⟩, hheap, heq⟩ := Option.map_eq_some_iff.mp hs
      unfold increaseHeap at hheap
      split at hheap
      · obtain ⟨own₁, hinv₁, hp₁⟩ := growHeap_inv h hp hheap
        cases ok with
        | true =>
          obtain ⟨-, rfl⟩ := Prod.mk.inj heq
          exact ⟨own₁, moveBrk_inv hinv₁ hp₁⟩
        | false =>
          obtain ⟨-, rfl⟩ := Prod.mk.inj heq
          exact ⟨own₁, hinv₁⟩
      · cases hheap
    · cases hs
      exact ⟨own, moveBrk_inv h hp⟩

end Kos
