import Kos.Lemmas.Clone

/-!
# The pages that a copy needs

How often `vm_clone_addrspace` calls `mm_alloc_page`, as a number that is computed from the two page directories before the call
(`cloneNeeds`). When the kernel does nothing for itself meanwhile, the copy is complete exactly when the allocator has so many pages
(`cloneAddrspace_iff`).
-/

namespace Kos

open SpaceAux PageMapAux

/-! ## Several pages -/

/-- The next `n` calls of `mm_alloc_page` find a page. -/
def Mm.hasPages : Nat → Mm → Bool
  | 0, _ => true
  | n + 1, s => (mmAllocPage s).1 ≠ noPage && Mm.hasPages n (mmAllocPage s).2

/-- After `n` calls of `mm_alloc_page`. -/
def Mm.takePages : Nat → Mm → Mm
  | 0, s => s
  | n + 1, s => Mm.takePages n (mmAllocPage s).2

theorem Mm.hasPages_add (a b : Nat) (s : Mm) : s.hasPages (a + b) = (s.hasPages a && (s.takePages a).hasPages b) := by
  induction a generalizing s with
  | zero => simp [Mm.hasPages, Mm.takePages]
  | succ a ih => rw [Nat.add_right_comm, Mm.hasPages, Mm.hasPages, Mm.takePages, ih, Bool.and_assoc]

theorem Mm.takePages_add (a b : Nat) (s : Mm) : s.takePages (a + b) = (s.takePages a).takePages b := by
  induction a generalizing s with
  | zero => simp [Mm.takePages]
  | succ a ih => rw [Nat.add_right_comm, Mm.takePages, Mm.takePages, ih]

theorem Mm.hasPages_one (s : Mm) : s.hasPages 1 = decide ((mmAllocPage s).1 ≠ noPage) := by
  simp [Mm.hasPages]

/-- The pages for the copies at these addresses: one for each page that the parent has, and one for each table that is not there. -/
def pagesNeeded (entry : Nat → Entry) : (Nat → Bool) → List Nat → Nat
  | _, [] => 0
  | has, v :: rest =>
    if entry v = 0#32 then pagesNeeded entry has rest
    else (if has (pdirIndex v) then 1 else 2) + pagesNeeded entry (Function.update has (pdirIndex v) true) rest

/-- The pages for a copy of an address space: its page directory, which has the kernel's tables, and its pages and tables. -/
def cloneNeeds (vm : Vm) (pdir brkPage : Nat) : Nat :=
  1 + pagesNeeded (getPtabEntry vm pdir) (fun i => present (vm.tabs vm.kernelPdir i)) (clonedPages brkPage ++ [userStackPage])

/-- Only the entries at the addresses matter, and the tables that can be there. -/
theorem pagesNeeded_congr {entry entry' : Nat → Entry} {has has' : Nat → Bool} {addrs : List Nat}
    (he : ∀ v ∈ addrs, entry v = entry' v) (hh : ∀ v ∈ addrs, has (pdirIndex v) = has' (pdirIndex v)) :
    pagesNeeded entry has addrs = pagesNeeded entry' has' addrs := by
  induction addrs generalizing has has' with
  | nil => rfl
  | cons v addrs ih =>
    have hrest : ∀ w ∈ addrs, entry w = entry' w := fun w hw => he w (List.mem_cons_of_mem v hw)
    rw [pagesNeeded, pagesNeeded, he v List.mem_cons_self, hh v List.mem_cons_self]
    split
    · exact ih hrest fun w hw => hh w (List.mem_cons_of_mem v hw)
    · congr 1
      refine ih hrest fun w hw => ?_
      by_cases heq : pdirIndex w = pdirIndex v
      · rw [heq, Function.update_self, Function.update_self]
      · rw [Function.update_of_ne heq, Function.update_of_ne heq]
        exact hh w (List.mem_cons_of_mem v hw)

/-- Where the parent has no pages, none are needed. -/
theorem pagesNeeded_absent {entry : Nat → Entry} {has : Nat → Bool} {addrs rest : List Nat} (h : ∀ v ∈ addrs, entry v = 0#32) :
    pagesNeeded entry has (addrs ++ rest) = pagesNeeded entry has rest := by
  induction addrs with
  | nil => rfl
  | cons v addrs ih =>
    rw [List.cons_append, pagesNeeded, if_pos (h v List.mem_cons_self)]
    exact ih fun w hw => h w (List.mem_cons_of_mem v hw)

/-! ## A new page -/

/-- The pages for the table of an address. -/
def tableNeeds (vm : Vm) (pdir v : Nat) : Nat := if present (vm.tabs pdir (pdirIndex v)) then 0 else 1

theorem tableFor_needs (s : Vm) (pdir v : Nat) (flags : Entry) :
    (s.mm.hasPages (tableNeeds s pdir v) = true → ∃ ptab s', tableFor s pdir v flags = some (ptab, s') ∧
        s'.mm = s.mm.takePages (tableNeeds s pdir v) ∧ s'.kernelPdir = s.kernelPdir) ∧
      (s.mm.hasPages (tableNeeds s pdir v) = false → tableFor s pdir v flags = none) := by
  unfold tableNeeds
  cases hp : present (s.tabs pdir (pdirIndex v)) with
  | true =>
    rw [tableFor_of_present flags hp, if_pos rfl]
    exact ⟨fun _ => ⟨_, _, rfl, rfl, rfl⟩, fun h => by cases h⟩
  | false =>
    rw [tableFor_of_absent flags hp, if_neg (by decide), Mm.hasPages_one]
    by_cases hno : (mmAllocPage s.mm).1 = noPage
    · simp only [hno, ne_eq, not_true_eq_false, decide_false, Bool.false_eq_true, false_implies, if_true, implies_true, and_self]
    · simp only [hno, ne_eq, not_false_eq_true, decide_true, if_false, forall_const]
      exact ⟨⟨_, _, rfl, rfl, rfl⟩, fun h => by cases h⟩

/-- Mapping by force needs a page for the table if there is none. -/
theorem doMap_force_needs {s : Vm} {pdir paddr v : Nat} (flags : Entry) (hv : v % 4096 = 0) (hp : paddr % 4096 = 0)
    (hdir : pdir ≠ s.kernelPdir) :
    (s.mm.hasPages (tableNeeds s pdir v) = true →
        ∃ s', doMap s pdir paddr v flags true = some s' ∧ s'.mm = s.mm.takePages (tableNeeds s pdir v)) ∧
      (s.mm.hasPages (tableNeeds s pdir v) = false → doMap s pdir paddr v flags true = none) := by
  have hva : isPageAligned v = true := (isPageAligned_iff v).mpr hv
  have hpa : isPageAligned paddr = true := (isPageAligned_iff paddr).mpr hp
  obtain ⟨hsome, hnone⟩ := tableFor_needs s pdir v flags
  unfold doMap
  simp only [hva, hpa, Bool.not_true, Bool.false_eq_true, if_false, Bool.false_and]
  constructor
  · intro henough
    obtain ⟨ptab, s₁, htable, hmm, hkernel⟩ := hsome henough
    refine ⟨s₁.setEntry ptab (ptabIndex v) (mkEntry paddr flags), ?_, hmm⟩
    rw [htable]
    show Vm.countRev _ _ = _
    rw [Vm.countRev, if_neg]
    exact fun he => hdir (he.trans hkernel)
  · intro hno
    rw [hnone hno]
    rfl

theorem kmAllocPage_needs {m : Machine} (hw : m.work = []) : (∃ r, kmAllocPage m = some r) ↔ m.vm.mm.hasPages 1 = true := by
  rw [Mm.hasPages_one, decide_eq_true_eq]
  simp only [kmAllocPage, Machine.kernelWork, hw, Option.map_some]
  split
  · rename_i hno
    simp [hno]
  · rename_i hno
    simp [hno]

/-- The pages for a new page in a directory. -/
def newPageNeeds (vm : Vm) (pdir v : Nat) : Nat := 1 + tableNeeds vm pdir v

section

variable {own : Owners} {m : Machine} {p newpd v : Nat}

theorem Space.ne_kernelPdir (ho : Owned own m.vm) (hs : Space own m.vm p newpd) : newpd ≠ m.vm.kernelPdir := by
  rintro rfl
  exact absurd (hs.dir.symm.trans ho.kernelPdir) nofun

/-- A page that is found and mapped, by force or not, takes these pages. -/
theorem newPage_takes {m' : Machine} {page : Nat} {flags : Entry} {force : Bool} (hw : m.work = [])
    (h : newPage m newpd v flags force = some (some page, m')) :
    m.vm.mm.hasPages (newPageNeeds m.vm newpd v) = true ∧ m'.work = [] ∧
      m'.vm.mm = m.vm.mm.takePages (newPageNeeds m.vm newpd v) := by
  rcases newPage_returns h with ⟨hno, -⟩ | ⟨page', mm, vm, -, hal, hno, hmap, hwork⟩
  · cases hno
  · have htake : m.vm.mm.takePages 1 = mm := by simp only [Mm.takePages, hal]
    have hcalm : Machine.work { m with vm := vm } = [] := hw
    obtain rfl := Option.some.inj ((kernelWork_calm hcalm).symm.trans hwork)
    obtain ⟨-, -, ptab, vm₁, htable, hcases⟩ := doMap_cases hmap
    have hmm : vm.mm = vm₁.mm := by
      rcases hcases with ⟨-, -, -, -, rfl⟩ | ⟨-, hmm, -⟩
      · rfl
      · exact hmm
    unfold newPageNeeds
    rw [Mm.hasPages_add, Mm.takePages_add, Mm.hasPages_one, htake, hal]
    obtain ⟨hsome, hnone⟩ := tableFor_needs { m.vm with mm := mm } newpd v flags
    cases hpages : mm.hasPages (tableNeeds m.vm newpd v) with
    | false =>
      rw [hnone hpages] at htable
      cases htable
    | true =>
      obtain ⟨ptab', vm₁', htable', hmm', -⟩ := hsome hpages
      obtain ⟨rfl, rfl⟩ := Prod.mk.inj (Option.some.inj (htable'.symm.trans htable))
      exact ⟨by simp [hno], hcalm, hmm.trans hmm'⟩

/-- A page is found and mapped by force exactly when there are enough pages. -/
theorem newPage_needs (flags : Entry) (ho : Owned own m.vm) (hs : Space own m.vm p newpd) (hw : m.work = []) (hv : v % 4096 = 0) :
    (m.vm.mm.hasPages (newPageNeeds m.vm newpd v) = true →
        ∃ page m', newPage m newpd v flags true = some (some page, m') ∧ m'.work = [] ∧
          m'.vm.mm = m.vm.mm.takePages (newPageNeeds m.vm newpd v)) ∧
      (m.vm.mm.hasPages (newPageNeeds m.vm newpd v) = false → ∀ page m', newPage m newpd v flags true ≠ some (some page, m')) := by
  constructor
  · intro henough
    obtain ⟨page, mm, hal⟩ : ∃ page mm, mmAllocPage m.vm.mm = (page, mm) := ⟨_, _, rfl⟩
    have htake : m.vm.mm.takePages 1 = mm := by simp only [Mm.takePages, hal]
    have hboth := henough
    unfold newPageNeeds at hboth
    rw [Mm.hasPages_add, Mm.hasPages_one, htake, hal, Bool.and_eq_true, decide_eq_true_eq] at hboth
    obtain ⟨hne, htable⟩ := hboth
    obtain ⟨hpa, -⟩ := mmAllocPage_spec hal hne
    obtain ⟨vm, hmap, -⟩ := (doMap_force_needs (s := { m.vm with mm := mm }) flags hv hpa (hs.ne_kernelPdir ho)).1 htable
    have hnew : newPage m newpd v flags true = some (some page, { m with vm := vm }) := by
      simp only [newPage, hal, if_neg hne, hmap, Option.bind_some, Machine.kernelWork, hw, Option.map_some]
    exact ⟨page, _, hnew, (newPage_takes hw hnew).2⟩
  · intro hfew page m' hnew
    rw [(newPage_takes hw hnew).1] at hfew
    cases hfew

/-- The tables of the directory after a new page. -/
theorem newPage_tables {m' : Machine} {page : Nat} {flags : Entry} {force : Bool} (hk : KernelOk own m) (hs : Space own m.vm p newpd)
    (hw : m.work = []) (hv : v < 4294967296) (hpf : present flags = true) (hf : flags.toNat < 4096) (hlow : force = true → 4096 ≤ v)
    (h : newPage m newpd v flags force = some (some page, m')) (i : Nat) :
    present (m'.vm.tabs newpd i) = (decide (i = pdirIndex v) || present (m.vm.tabs newpd i)) := by
  rcases newPage_cases hk hs hv hpf hf hlow h with ⟨hno, -⟩ | ⟨page, vm₁, own₁, hr, hnew, hwork⟩
  · cases hno
  · simp only [Machine.kernelWork, hw, Option.some.injEq] at hwork
    subst hwork
    obtain ⟨mm, own₂, own₃, ptab, -, -, -, hs₁, hstep, hptab⟩ := hnew.step hk hs hv hf
    by_cases hi : i = pdirIndex v
    · subst hi
      simp only [decide_true, Bool.true_or]
      exact hnew.mapped.pde
    · rw [show decide (i = pdirIndex v) = false from decide_eq_false hi, Bool.false_or]
      rw [hstep.dir_eq hs₁.dir (hstep.dir_ne hs₁ hptab) hi]

end

/-! ## The copies -/

/-- The pages for the copies at these addresses, in the directory `newpd`. -/
def entriesNeed (vm : Vm) (pdir newpd : Nat) (addrs : List Nat) : Nat :=
  pagesNeeded (getPtabEntry vm pdir) (fun i => present (vm.tabs newpd i)) addrs

/-- Before the copies at the addresses `addrs` are made, for the parent `q` and the child `p`: no address is looked at twice, unless it is
in user space, and the kernel does nothing for itself. -/
structure CanCopy (own : Owners) (m : Machine) (q pdir p newpd : Nat) (addrs : List Nat) : Prop where
  kernelOk : KernelOk own m
  parentSpace : Space own m.vm q pdir
  childSpace : Space own m.vm p newpd
  ne : p ≠ q
  calm : m.work = []
  bounds : ∀ v ∈ addrs, 4096 ≤ v ∧ v < 4294967296 ∧ v % 4096 = 0
  once : addrs.Pairwise fun v w => w / 4096 ≠ v / 4096 ∨ UserPage (w / 4096)

section

variable {own : Owners} {m : Machine} {q pdir p newpd v : Nat} {addrs : List Nat}

theorem CanCopy.skip (h : CanCopy own m q pdir p newpd (v :: addrs)) : CanCopy own m q pdir p newpd addrs :=
  ⟨h.kernelOk, h.parentSpace, h.childSpace, h.ne, h.calm, fun w hw => h.bounds w (List.mem_cons_of_mem v hw),
    (List.pairwise_cons.mp h.once).2⟩

/-- A copy does not change what is needed for the others. -/
theorem CanCopy.step (h : CanCopy own m q pdir p newpd (v :: addrs)) (hne : getPtabEntry m.vm pdir v ≠ 0#32) {page : Nat}
    {m' : Machine} (hc : cloneEntry m newpd v (getPtabEntry m.vm pdir v) = some (some page, m')) (hw : m'.work = []) :
    (∃ own', CanCopy own' m' q pdir p newpd addrs) ∧
      entriesNeed m.vm pdir newpd (v :: addrs) = newPageNeeds m.vm newpd v + entriesNeed m'.vm pdir newpd addrs := by
  obtain ⟨hlow, hv, hal⟩ := h.bounds v List.mem_cons_self
  have hpf : present (getflags (getPtabEntry m.vm pdir v)) = true := by
    rw [present_getflags]
    exact present_getPtabEntry hne
  have hf := getflags_toNat_lt (getPtabEntry m.vm pdir v)
  have hqp : some p ≠ some q := fun he => h.ne (Option.some.inj he)
  unfold cloneEntry at hc
  obtain ⟨own', hmoves, hchild, -⟩ := newPage_moves h.kernelOk h.childSpace hv hpf hf (fun _ => hlow) hc
  have hspare : ∀ n, m.Spares n := fun n actions hmem => by
    rw [h.calm] at hmem
    cases hmem
  refine ⟨⟨own', hmoves.kernelOk, hmoves.change.space hqp h.parentSpace, hchild, h.ne, hw, h.skip.bounds, h.skip.once⟩, ?_⟩
  unfold entriesNeed newPageNeeds tableNeeds
  rw [pagesNeeded, if_neg hne]
  congr 1
  · split <;> rfl
  · refine pagesNeeded_congr (fun w hmem => ?_) fun w _ => ?_
    · obtain ⟨-, hw, -⟩ := h.skip.bounds w hmem
      rw [getPtabEntry_eq, getPtabEntry_eq, newPage_pageEntry_other h.kernelOk h.childSpace h.parentSpace h.ne hv hpf hf (fun _ => hlow) hc
        (by omega) ((List.pairwise_cons.mp h.once).1 w hmem) (.inl (hspare _))]
    · rw [newPage_tables h.kernelOk h.childSpace h.calm hv hpf hf (fun _ => hlow) hc]
      by_cases heq : pdirIndex w = pdirIndex v
      · simp only [heq, Function.update_self, decide_true, Bool.true_or]
      · simp only [Function.update_of_ne heq, heq, decide_false, Bool.false_or]

/-- All copies are made exactly when there are enough pages. -/
theorem cloneEntries_needs (h : CanCopy own m q pdir p newpd addrs) :
    (m.vm.mm.hasPages (entriesNeed m.vm pdir newpd addrs) = true → ∃ m', cloneEntries pdir newpd addrs m = some (true, m') ∧
        m'.work = [] ∧ m'.vm.mm = m.vm.mm.takePages (entriesNeed m.vm pdir newpd addrs)) ∧
      (m.vm.mm.hasPages (entriesNeed m.vm pdir newpd addrs) = false → ∀ m', cloneEntries pdir newpd addrs m ≠ some (true, m')) := by
  induction addrs generalizing own m with
  | nil => exact ⟨fun _ => ⟨m, rfl, h.calm, rfl⟩, fun h => by cases h⟩
  | cons v addrs ih =>
    rw [cloneEntries]
    by_cases hzero : getPtabEntry m.vm pdir v = 0#32
    · have hneed : entriesNeed m.vm pdir newpd (v :: addrs) = entriesNeed m.vm pdir newpd addrs := by
        unfold entriesNeed
        rw [pagesNeeded, if_pos hzero]
      rw [if_pos hzero, hneed]
      exact ih h.skip
    · obtain ⟨-, -, hal⟩ := h.bounds v List.mem_cons_self
      obtain ⟨hsome, hnone⟩ := newPage_needs (getflags (getPtabEntry m.vm pdir v)) h.kernelOk.owned h.childSpace h.calm hal
      rw [if_neg hzero]
      cases hfirst : m.vm.mm.hasPages (newPageNeeds m.vm newpd v) with
      | true =>
        obtain ⟨page, m₁, hclone, hcalm, hmm⟩ := hsome hfirst
        obtain ⟨⟨own₁, h₁⟩, hneed⟩ := h.step hzero hclone hcalm
        rw [hneed, Mm.hasPages_add, Mm.takePages_add, hfirst, Bool.true_and, ← hmm, cloneEntry, hclone]
        exact ih h₁
      | false =>
        -- the first copy already fails, whatever the others need
        obtain ⟨k, hk⟩ : ∃ k, entriesNeed m.vm pdir newpd (v :: addrs) = newPageNeeds m.vm newpd v + k := by
          unfold entriesNeed newPageNeeds tableNeeds
          rw [pagesNeeded, if_neg hzero]
          split
          · exact ⟨_, rfl⟩
          · exact ⟨_, rfl⟩
        rw [hk, Mm.hasPages_add, hfirst, Bool.false_and]
        refine ⟨fun h => absurd h Bool.false_ne_true, fun _ m' he => ?_⟩
        obtain ⟨⟨r, m₁⟩, hclone, he⟩ := Option.bind_eq_some_iff.mp he
        cases r with
        | some page => exact hnone hfirst page m₁ hclone
        | none => cases he

end

/-! ## The whole copy -/

theorem vmCreateAddrspace_calm {m : Machine} (hw : m.work = []) : vmCreateAddrspace m =
    if (mmAllocPage m.vm.mm).1 = noPage then none
    else some ((mmAllocPage m.vm.mm).1, { m with vm := { m.vm with
      mm := m.vm.mm.takePages 1
      tabs := Function.update m.vm.tabs (mmAllocPage m.vm.mm).1 (m.vm.tabs m.vm.kernelPdir) } }) := by
  simp only [vmCreateAddrspace, Machine.kernelWork, hw, Option.bind_some, Option.map_some, Mm.takePages]

/-- The new page directory needs a page, and has the kernel's tables. The parent's pages are as they were. -/
theorem vmCreateAddrspace_needs {own : Owners} {m : Machine} {q pdir : Nat} (hk : KernelOk own m) (hs : Space own m.vm q pdir)
    (hw : m.work = []) :
    (m.vm.mm.hasPages 1 = true → ∃ newpd m', vmCreateAddrspace m = some (newpd, m') ∧ m'.work = [] ∧
        m'.vm.mm = m.vm.mm.takePages 1 ∧ (∀ i, m'.vm.tabs newpd i = m.vm.tabs m.vm.kernelPdir i) ∧
        ∀ v < 4294967296, getPtabEntry m'.vm pdir v = getPtabEntry m.vm pdir v) ∧
      (m.vm.mm.hasPages 1 = false → vmCreateAddrspace m = none) := by
  obtain ⟨phys, mm, hal⟩ : ∃ page mm, mmAllocPage m.vm.mm = (page, mm) := ⟨_, _, rfl⟩
  have htake : m.vm.mm.takePages 1 = mm := by simp only [Mm.takePages, hal]
  rw [vmCreateAddrspace_calm hw, Mm.hasPages_one, hal, htake]
  by_cases hno : phys = noPage
  · simp [hno]
  · rw [if_neg hno]
    refine ⟨fun _ => ⟨phys, _, rfl, hw, rfl, fun i => by simp only [Function.update_self], fun v hv => ?_⟩, fun hfew => by simp [hno] at hfew⟩
    obtain ⟨hnone, -⟩ := mmAllocPage_fresh hk.owned.toInUse hal hno
    have hne : ∀ {f o}, own f = some o → f ≠ phys := by
      rintro f o hf rfl
      rw [hnone] at hf
      cases hf
    have hentry : pageEntry { m.vm with mm := mm, tabs := Function.update m.vm.tabs phys (m.vm.tabs m.vm.kernelPdir) } pdir (v / 4096) =
        pageEntry m.vm pdir (v / 4096) := by
      refine pageEntry_congr (by simp only [Function.update_of_ne (hne hs.dir)]) fun hpde => ?_
      simp only [Function.update_of_ne (hne (hs.table _ (by omega) hpde))]
    rw [getPtabEntry_eq, getPtabEntry_eq, hentry]

theorem clonedPages_once (brkPage : Nat) :
    (clonedPages brkPage ++ [userStackPage]).Pairwise fun v w => w / 4096 ≠ v / 4096 ∨ UserPage (w / 4096) := by
  refine List.pairwise_append.mpr ⟨?_, List.pairwise_singleton _ _, ?_⟩
  · unfold clonedPages
    refine List.pairwise_map.mpr (List.pairwise_lt_range.imp fun {a b} hlt => .inl ?_)
    simp only [kernSpaceEnd, pageSize]
    omega
  · intro v _ w hw
    rw [List.mem_singleton.mp hw]
    exact .inr userPage_stack

/-- The address space after it was created, before its pages are copied. -/
theorem canCopy_created {own : Owners} {m m' : Machine} {q pdir brkPage newpd : Nat} (hk : KernelOk own m) (hs : Space own m.vm q pdir)
    (hb : brkPage < 4294967296) (hcreate : vmCreateAddrspace m = some (newpd, m')) (hw : m'.work = []) :
    ∃ own', CanCopy own' m' q pdir (q + 1) newpd (clonedPages brkPage ++ [userStackPage]) := by
  obtain ⟨own', hmoves, hchild⟩ := vmCreateAddrspace_moves hk hcreate (q + 1)
  have hpq : q + 1 ≠ q := Nat.succ_ne_self q
  exact ⟨own', hmoves.kernelOk, hmoves.change.space (fun he => hpq (Option.some.inj he)) hs, hchild, hpq, hw, clonedPages_aligned hb,
    clonedPages_once brkPage⟩

/-- With the kernel doing nothing for itself, the copy takes these pages, and is not complete without them. -/
theorem cloneAddrspace_needs {own : Owners} {m : Machine} (memory : Memory) {q pdir brkPage : Nat} (hk : KernelOk own m)
    (hs : Space own m.vm q pdir) (hw : m.work = []) (hb : brkPage < 4294967296) :
    (m.vm.mm.hasPages (cloneNeeds m.vm pdir brkPage) = true →
        ∃ newpd s', Copier.cloneAddrspace ⟨m, memory⟩ brkPage pdir = some (newpd, true, s') ∧ s'.m.work = [] ∧
          s'.m.vm.mm = m.vm.mm.takePages (cloneNeeds m.vm pdir brkPage)) ∧
      (m.vm.mm.hasPages (cloneNeeds m.vm pdir brkPage) = false →
        ∀ newpd s', Copier.cloneAddrspace ⟨m, memory⟩ brkPage pdir ≠ some (newpd, true, s')) := by
  obtain ⟨hsome, hnone⟩ := vmCreateAddrspace_needs hk hs hw
  unfold cloneNeeds
  rw [Mm.hasPages_add, Mm.takePages_add]
  cases hfirst : m.vm.mm.hasPages 1 with
  | false =>
    refine ⟨fun h => absurd h Bool.false_ne_true, fun _ newpd s' h => ?_⟩
    obtain ⟨m₁, hcreate, -⟩ := Copier.cloneAddrspace_complete.mp h
    rw [hnone hfirst] at hcreate
    cases hcreate
  | true =>
    obtain ⟨newpd, m₁, hcreate, hcalm, hmm, htabs, hentry⟩ := hsome hfirst
    obtain ⟨own₁, hcan⟩ := canCopy_created hk hs hb hcreate hcalm
    have hneed : pagesNeeded (getPtabEntry m.vm pdir) (fun i => present (m.vm.tabs m.vm.kernelPdir i)) (clonedPages brkPage ++ [userStackPage]) =
        entriesNeed m₁.vm pdir newpd (clonedPages brkPage ++ [userStackPage]) :=
      pagesNeeded_congr (fun v hv => (hentry v (hcan.bounds v hv).2.1).symm) fun v _ => by rw [htabs]
    obtain ⟨hall, hfew⟩ := cloneEntries_needs hcan
    rw [Bool.true_and, hneed, ← hmm]
    have hproj := Copier.cloneEntries_machine pdir newpd (clonedPages brkPage ++ [userStackPage]) ⟨m₁, memory⟩
    constructor
    · intro henough
      obtain ⟨m', hentries, hcalm', hmm'⟩ := hall henough
      rw [show (Copier.mk m₁ memory).m = m₁ from rfl, hentries] at hproj
      obtain ⟨⟨ok, s'⟩, hcopy, heq⟩ := Option.map_eq_some_iff.mp hproj
      simp only [Prod.mk.injEq] at heq
      obtain ⟨rfl, rfl⟩ := heq
      exact ⟨newpd, s', Copier.cloneAddrspace_complete.mpr ⟨m₁, hcreate, hcopy⟩, hcalm', hmm'⟩
    · intro hno newpd' s' h
      obtain ⟨m₁', hcreate', hentries⟩ := Copier.cloneAddrspace_complete.mp h
      obtain ⟨rfl, rfl⟩ := Prod.mk.inj (Option.some.inj (hcreate.symm.trans hcreate'))
      rw [hentries] at hproj
      exact hfew hno s'.m hproj.symm

theorem cloneAddrspace_iff {own : Owners} {m : Machine} (memory : Memory) {q pdir brkPage : Nat} (hk : KernelOk own m)
    (hs : Space own m.vm q pdir) (hw : m.work = []) (hb : brkPage < 4294967296) :
    (∃ newpd s', Copier.cloneAddrspace ⟨m, memory⟩ brkPage pdir = some (newpd, true, s')) ↔
      m.vm.mm.hasPages (cloneNeeds m.vm pdir brkPage) = true := by
  obtain ⟨hsome, hnone⟩ := cloneAddrspace_needs memory hk hs hw hb
  constructor
  · rintro ⟨newpd, s', h⟩
    by_contra hno
    exact hnone (Bool.not_eq_true _ ▸ hno) newpd s' h
  · intro henough
    obtain ⟨newpd, s', h, -⟩ := hsome henough
    exact ⟨newpd, s', h⟩

end Kos
