import Kos.Lemmas.SpacePages
import Kos.Pm.Clone

/-!
# Copying an address space

What holds between two steps of `vm_clone_addrspace` (`Cloning`): the parent's user space is as it was, and of the pages that were looked at
the child has copies, in frames that were free before the call.
-/

namespace Kos

open SpaceAux PageMapAux

/-! ## Free pages -/

/-- The kernel gives no page back. -/
def KernelAction.Keeps : KernelAction → Prop
  | .release _ => False
  | _ => True

/-- What the kernel will do for itself gives no page back. -/
def Machine.KeepsPages (m : Machine) : Prop := ∀ actions ∈ m.work, ∀ action ∈ actions, action.Keeps

theorem doMap_free {s s' : Vm} {pdir paddr v f : Nat} {flags : Entry} {force : Bool} (h : doMap s pdir paddr v flags force = some s')
    (hf : isFree s'.mm.mmap f = true) : isFree s.mm.mmap f = true := by
  obtain ⟨-, -, ptab, s₁, ht, hc⟩ := doMap_cases h
  have hmm : s'.mm = s₁.mm := by
    rcases hc with ⟨-, -, -, -, rfl⟩ | ⟨-, hmm, -⟩
    · rfl
    · exact hmm
  rw [hmm] at hf
  rcases tableFor_cases ht with ⟨-, -, rfl⟩ | ⟨-, -, -, -, hmap, -⟩
  · exact hf
  · rw [hmap, Bool.and_eq_true] at hf
    exact hf.1

theorem mmAllocPage_free {s s' : Mm} {page f : Nat} (h : mmAllocPage s = (page, s')) (hf : isFree s'.mmap f = true) :
    isFree s.mmap f = true := by
  by_cases hne : page = noPage
  · subst hne
    rwa [(mmAllocPage_noPage h).1] at hf
  · obtain ⟨-, -, -, hmap⟩ := mmAllocPage_spec h hne
    rw [hmap, Bool.and_eq_true] at hf
    exact hf.1

theorem KernelAction.exec_free {m m' : Machine} {action : KernelAction} {f : Nat} (hk : action.Keeps) (h : action.exec m = some m')
    (hf : isFree m'.vm.mm.mmap f = true) : isFree m.vm.mm.mmap f = true := by
  rcases KernelAction.exec_cases h with ⟨page, -, -, -, rfl⟩ | ⟨page, rfl, -⟩ | ⟨paddr, v, flags, force, vm, -, -, -, -, -, hmap, rfl⟩
  · simp only [Mm.markUsed, isFree_markUsed, Bool.and_eq_true] at hf
    exact hf.1
  · exact hk.elim
  · exact doMap_free hmap hf

theorem Machine.KeepsPages.congr {m m' : Machine} (h : m.KeepsPages) (hw : m'.work = m.work ∨ m'.work = m.work.tail) :
    m'.KeepsPages := by
  intro actions hmem
  rcases hw with hw | hw
  · rw [hw] at hmem
    exact h actions hmem
  · rw [hw] at hmem
    exact h actions (List.mem_of_mem_tail hmem)

theorem kernelWork_free {m m' : Machine} {f : Nat} (hk : m.KeepsPages) (h : m.kernelWork = some m')
    (hf : isFree m'.vm.mm.mmap f = true) : isFree m.vm.mm.mmap f = true := by
  refine kernelWork_induct (P := fun m₁ => isFree m₁.vm.mm.mmap f = true → isFree m.vm.mm.mmap f = true) h id
    (fun actions hactions action haction m₁ m₂ hm₁ hexec hf => ?_) hf
  exact hm₁ (KernelAction.exec_free (hk actions hactions action haction) hexec hf)

/-- A new page is taken from the free ones, and so are the tables. -/
theorem newPage_free {m m' : Machine} {pdir v f : Nat} {flags : Entry} {force : Bool} {r : Option Nat} (hk : m.KeepsPages)
    (h : newPage m pdir v flags force = some (r, m')) (hf : isFree m'.vm.mm.mmap f = true) : isFree m.vm.mm.mmap f = true := by
  rcases newPage_returns h with ⟨-, mm, hal, rfl⟩ | ⟨page, mm, vm, -, hal, -, hmap, hwork⟩
  · exact mmAllocPage_free hal hf
  · exact mmAllocPage_free hal (doMap_free hmap (kernelWork_free (m := { m with vm := vm }) hk hwork hf))

/-! ## A new address space -/

/-- A new address space takes free pages only, and has no page in user space. -/
theorem vmCreateAddrspace_spec {own : Owners} {m m' : Machine} {pdir : Nat} (hk : KernelOk own m) (hkeep : m.KeepsPages)
    (h : vmCreateAddrspace m = some (pdir, m')) :
    m'.KeepsPages ∧ (∀ f, isFree m'.vm.mm.mmap f = true → isFree m.vm.mm.mmap f = true) ∧
      ∀ n, UserPage n → pageMap m'.vm pdir n = none := by
  obtain ⟨own', hmoves, -⟩ := vmCreateAddrspace_moves hk h 0
  obtain ⟨m₁, mm, m₂, hwork₁, hal, -, hwork₂, rfl⟩ := vmCreateAddrspace_returns h
  have hkeep₁ := hkeep.congr (.inr (kernelWork_work hwork₁))
  have hkeep₁' : Machine.KeepsPages { m₁ with vm := { m₁.vm with mm := mm } } := hkeep₁
  refine ⟨fun actions => hkeep₁'.congr (.inr (kernelWork_work hwork₂)) actions, fun f hf => ?_, fun n hn => ?_⟩
  · exact kernelWork_free hkeep hwork₁ (mmAllocPage_free hal (kernelWork_free hkeep₁' hwork₂ hf))
  · -- the directory is a copy of the kernel's, which has no table for user space
    have hdir : Function.update m₂.vm.tabs pdir (m₂.vm.tabs m₂.vm.kernelPdir) m₂.vm.kernelPdir = m₂.vm.tabs m₂.vm.kernelPdir := by
      by_cases he : m₂.vm.kernelPdir = pdir
      · rw [he, Function.update_self]
      · rw [Function.update_of_ne he]
    have hno : present (m₂.vm.tabs m₂.vm.kernelPdir (n / 1024)) = false := by
      rw [← Bool.not_eq_true]
      intro hp
      obtain ⟨hge, hlt⟩ := hn
      have := (hmoves.kernelOk.owned.kernelTab (n / 1024) (by omega) (by simp only [hdir]; exact hp)).1
      omega
    rw [pageMap, pageEntry_eq_none (by simp only [Function.update_self]; exact hno)]
    rfl

/-! ## The pages that were looked at -/

/-- A page of the child is a copy of the parent's page: it has the same flags and the same bytes, in a frame that was free. Where the
parent has no page the child has none. -/
def PageCopied (m₀ : Machine) (memory₀ : Memory) (pdir : Nat) (s : Copier) (newpd n : Nat) : Prop :=
  match pageMap m₀.vm pdir n with
  | some (f, flags) => ∃ f', pageMap s.m.vm newpd n = some (f', flags) ∧ isFree m₀.vm.mm.mmap f' = true ∧
      ∀ j < pageSize, s.memory (f' + j) = memory₀ (f + j)
  | none => pageMap s.m.vm newpd n = none

/-- Between two steps, for the parent `q` and the child `p`; the pages in `done` were looked at. -/
structure Cloning (m₀ : Machine) (memory₀ : Memory) (q pdir p newpd : Nat) (done : Nat → Prop) (own : Owners) (s : Copier) : Prop where
  kernelOk : KernelOk own s.m
  parentSpace : Space own s.m.vm q pdir
  childSpace : Space own s.m.vm p newpd
  parent : ∀ n, UserPage n → pageEntry s.m.vm pdir n = pageEntry m₀.vm pdir n
  keeps : s.m.KeepsPages
  taken : ∀ f, isFree s.m.vm.mm.mmap f = true → isFree m₀.vm.mm.mmap f = true
  bytes : ∀ a, isFree m₀.vm.mm.mmap a = false → s.memory a = memory₀ a
  copied : ∀ n, UserPage n → done n → PageCopied m₀ memory₀ pdir s newpd n
  absent : ∀ n, UserPage n → ¬done n → pageMap s.m.vm newpd n = none

theorem mapped_of_pageMap {vm : Vm} {pdir n f : Nat} {flags : Entry} (h : pageMap vm pdir n = some (f, flags)) : Mapped vm pdir n f := by
  obtain ⟨pte, hpte, heq⟩ := Option.map_eq_some_iff.mp h
  simp only [Prod.mk.injEq] at heq
  simp only [pageEntry] at hpte
  split at hpte
  · rename_i hboth
    cases hpte
    obtain ⟨hpde, hpte⟩ := Bool.and_eq_true_iff.mp hboth
    exact ⟨hpde, hpte, heq.1⟩
  · cases hpte

/-- A page in user space is in a frame in use. -/
theorem Space.used {own : Owners} {vm : Vm} {p pdir n f : Nat} {flags : Entry} (hs : Space own vm p pdir) (hu : InUse own vm)
    (hn : UserPage n) (h : pageMap vm pdir n = some (f, flags)) : isFree vm.mm.mmap f = false ∧ f % 4096 = 0 := by
  obtain ⟨hused, hmod, -⟩ := hu.used f _ (hs.own_of_mapped hn (mapped_of_pageMap h))
  exact ⟨hused, hmod⟩

/-- All bytes of a page are free or in use with it. -/
theorem isFree_add {m : Mmap} {f j : Nat} (hmod : f % 4096 = 0) (hj : j < 4096) : isFree m f = isFree m (f + j) :=
  isFree_congr m (by omega)

/-- Copying to a free page leaves the bytes of pages in use alone. -/
theorem copy_of_used {memory : Memory} {m : Mmap} {page src a : Nat} (hfree : isFree m page = true) (hal : page % 4096 = 0)
    (hused : isFree m a = false) : memory.copy page src pageSize a = memory a := by
  rw [Memory.copy, if_neg]
  rintro ⟨hle, hlt⟩
  rw [isFree_congr m (show a / 4096 = page / 4096 by simp only [pageSize] at hlt; omega), hfree] at hused
  cases hused

section Step

variable {m₀ : Machine} {memory₀ : Memory} {q pdir p newpd : Nat} {done : Nat → Prop} {own : Owners} {s : Copier}

theorem Cloning.pageMap_parent (h : Cloning m₀ memory₀ q pdir p newpd done own s) {n : Nat} (hn : UserPage n) :
    pageMap s.m.vm pdir n = pageMap m₀.vm pdir n := pageMap_congr (h.parent n hn)

/-- A page that the parent does not have. -/
theorem Cloning.skip (h : Cloning m₀ memory₀ q pdir p newpd done own s) {v : Nat}
    (hno : UserPage (v / 4096) → getPtabEntry s.m.vm pdir v = 0#32) :
    Cloning m₀ memory₀ q pdir p newpd (fun n => done n ∨ n = v / 4096) own s := by
  refine ⟨h.kernelOk, h.parentSpace, h.childSpace, h.parent, h.keeps, h.taken, h.bytes, ?_, ?_⟩
  · intro n hn hor
    by_cases hdone : done n
    · exact h.copied n hn hdone
    · have hnv := hor.resolve_left hdone
      subst hnv
      have hentry : pageEntry m₀.vm pdir (v / 4096) = none := by
        rw [← h.parent _ hn]
        exact (getPtabEntry_eq_zero_iff s.m.vm pdir v).mp (hno hn)
      unfold PageCopied
      rw [pageMap, hentry]
      exact h.absent _ hn hdone
  · intro n hn hnot
    exact h.absent n hn fun hdone => hnot (.inl hdone)

/-- A page that the parent has, and there is a page for the copy. -/
theorem Cloning.clone (h : Cloning m₀ memory₀ q pdir p newpd done own s) {own₀ : Owners} (hu₀ : InUse own₀ m₀.vm)
    (hs₀ : Space own₀ m₀.vm q pdir) (hpq : p ≠ q) {v : Nat} (hv : 4096 ≤ v) (hv' : v < 4294967296)
    (hne : getPtabEntry s.m.vm pdir v ≠ 0#32) {s' : Copier}
    (hc : s.cloneEntry newpd v (getPtabEntry s.m.vm pdir v) = some (true, s')) :
    ∃ own', Cloning m₀ memory₀ q pdir p newpd (fun n => done n ∨ n = v / 4096) own' s' := by
  obtain ⟨⟨r, m'⟩, hnew, heq⟩ := Option.map_eq_some_iff.mp hc
  cases r with
  | none => cases heq
  | some page =>
    obtain ⟨-, rfl⟩ := Prod.mk.inj heq
    have hpf : present (getflags (getPtabEntry s.m.vm pdir v)) = true := by
      rw [present_getflags]
      exact present_getPtabEntry hne
    have hf := getflags_toNat_lt (getPtabEntry s.m.vm pdir v)
    unfold cloneEntry at hnew
    obtain ⟨own', hmoves, hchild, -⟩ := newPage_moves h.kernelOk h.childSpace hv' hpf hf (fun _ => hv) hnew
    have hqp : some p ≠ some q := fun he => hpq (Option.some.inj he)
    obtain ⟨-, hal, -, hfree⟩ := newPage_page hnew
    have hmap {n : Nat} (hn : UserPage n) :=
      newPage_pageMap h.kernelOk h.childSpace hv' hpf hf (fun _ => hv) hnew hn.2 (.inr hn)
    refine ⟨own', hmoves.kernelOk, hmoves.change.space hqp h.parentSpace, hchild, ?_, h.keeps.congr (newPage_work hnew), ?_, ?_, ?_, ?_⟩
    · intro n hn
      rw [hmoves.change.pageEntry_eq hqp h.parentSpace hn, h.parent n hn]
    · intro f hf
      exact h.taken f (newPage_free h.keeps hnew hf)
    · intro a ha
      exact (copy_of_used (h.taken page hfree) hal ha).trans (h.bytes a ha)
    · intro n hn hor
      unfold PageCopied
      by_cases hnv : n = v / 4096
      · have hpage := ((hmap hn).2 page rfl hnv).2 rfl
        have hparent : pageMap m₀.vm pdir n =
            some (getaddr (getPtabEntry s.m.vm pdir v), getflags (getPtabEntry s.m.vm pdir v)) := by
          rw [← h.pageMap_parent hn, hnv]
          exact pageMap_of_getPtabEntry hne
        obtain ⟨hused, hmod⟩ := hs₀.used hu₀ hn hparent
        rw [hparent]
        refine ⟨page, hpage, h.taken page hfree, fun j hj => ?_⟩
        simp only [pageSize] at hj ⊢
        rw [Memory.copy, if_pos (by omega), Nat.add_sub_cancel_left]
        exact h.bytes _ (isFree_add hmod hj ▸ hused)
      · have hcopied := h.copied n hn (hor.resolve_right hnv)
        unfold PageCopied at hcopied
        rw [(hmap hn).1 (.inl hnv)]
        split
        · rename_i f flags hparent
          rw [hparent] at hcopied
          obtain ⟨f', hf', hfree', hbytes⟩ := hcopied
          obtain ⟨hused, hmod⟩ := h.childSpace.used h.kernelOk.owned.toInUse hn hf'
          refine ⟨f', hf', hfree', fun j hj => ?_⟩
          exact (copy_of_used hfree hal (isFree_add hmod hj ▸ hused)).trans (hbytes j hj)
        · rename_i hparent
          rw [hparent] at hcopied
          exact hcopied
    · intro n hn hnot
      rw [(hmap hn).1 (.inl fun hnv => hnot (.inr hnv))]
      exact h.absent n hn fun hdone => hnot (.inl hdone)

theorem Cloning.congr {done' : Nat → Prop} (h : Cloning m₀ memory₀ q pdir p newpd done own s) (hd : ∀ n, done' n ↔ done n) :
    Cloning m₀ memory₀ q pdir p newpd done' own s :=
  ⟨h.kernelOk, h.parentSpace, h.childSpace, h.parent, h.keeps, h.taken, h.bytes, fun n hn hdone => h.copied n hn ((hd n).mp hdone),
    fun n hn hnot => h.absent n hn fun hdone => hnot ((hd n).mpr hdone)⟩

/-- The loop, when there are enough pages. -/
theorem Cloning.entries (h : Cloning m₀ memory₀ q pdir p newpd done own s) {own₀ : Owners} (hu₀ : InUse own₀ m₀.vm)
    (hs₀ : Space own₀ m₀.vm q pdir) (hpq : p ≠ q) {addrs : List Nat} (ha : ∀ v ∈ addrs, 4096 ≤ v ∧ v < 4294967296) {s' : Copier}
    (hc : Copier.cloneEntries pdir newpd addrs s = some (true, s')) :
    ∃ own', Cloning m₀ memory₀ q pdir p newpd (fun n => done n ∨ ∃ v ∈ addrs, n = v / 4096) own' s' := by
  induction addrs generalizing done own s with
  | nil =>
    cases hc
    exact ⟨own, h.congr (by simp)⟩
  | cons v addrs ih =>
    have hrest : ∀ w ∈ addrs, 4096 ≤ w ∧ w < 4294967296 := fun w hw => ha w (List.mem_cons_of_mem v hw)
    obtain ⟨hv, hv'⟩ := ha v List.mem_cons_self
    rw [Copier.cloneEntries] at hc
    split at hc
    · rename_i hzero
      obtain ⟨own', h'⟩ := ih (h.skip fun _ => hzero) hrest hc
      exact ⟨own', h'.congr fun n => by simp [or_assoc]⟩
    · rename_i hne
      obtain ⟨⟨ok, s₁⟩, hclone, hc⟩ := Option.bind_eq_some_iff.mp hc
      cases ok with
      | false => cases hc
      | true =>
        obtain ⟨own₁, h₁⟩ := h.clone hu₀ hs₀ hpq hv hv' hne hclone
        obtain ⟨own', h'⟩ := ih h₁ hrest hc
        exact ⟨own', h'.congr fun n => by simp [or_assoc]⟩

end Step

/-! ## The whole copy -/

theorem clonedPages_aligned {brkPage : Nat} (hb : brkPage < 4294967296) :
    ∀ v ∈ clonedPages brkPage ++ [userStackPage], 4096 ≤ v ∧ v < 4294967296 ∧ v % 4096 = 0 := by
  intro v hv
  rcases List.mem_append.mp hv with hv | hv
  · obtain ⟨hlow, hlt⟩ := clonedPages_bounds hb v hv
    obtain ⟨k, -, rfl⟩ := List.mem_map.mp hv
    refine ⟨hlow, hlt, ?_⟩
    simp only [kernSpaceEnd, pageSize]
    omega
  · rw [List.mem_singleton.mp hv]
    decide

/-- The copies at two lists of addresses, one after the other. -/
theorem Copier.cloneEntries_append (pdir newpd : Nat) (as bs : List Nat) (s : Copier) :
    Copier.cloneEntries pdir newpd (as ++ bs) s =
      (Copier.cloneEntries pdir newpd as s).bind fun (ok, s) => if ok then Copier.cloneEntries pdir newpd bs s else some (false, s) := by
  induction as generalizing s with
  | nil => rfl
  | cons v as ih =>
    rw [List.cons_append, Copier.cloneEntries, Copier.cloneEntries]
    split
    · exact ih s
    · rw [Option.bind_assoc]
      congr 1
      funext r
      obtain ⟨ok, s⟩ := r
      cases ok with
      | true => exact ih s
      | false => rfl

/-- What `vm_clone_addrspace` does after it has created the address space is to copy the stack after the other pages. -/
theorem Copier.cloneRest_complete {s s' : Copier} {pdir newpd newpd' stack : Nat} (addrs : List Nat) :
    ((Copier.cloneEntries pdir newpd addrs s).bind fun (ok, s) =>
      if !ok then none
      else if getPtabEntry s.m.vm pdir stack = 0#32 then some (newpd, true, s)
      else (s.cloneEntry newpd stack (getPtabEntry s.m.vm pdir stack)).map fun (ok, s) => (newpd, ok, s)) = some (newpd', true, s') ↔
      newpd = newpd' ∧ Copier.cloneEntries pdir newpd (addrs ++ [stack]) s = some (true, s') := by
  rw [Copier.cloneEntries_append]
  cases Copier.cloneEntries pdir newpd addrs s with
  | none => simp
  | some r =>
    obtain ⟨ok, s₁⟩ := r
    cases ok with
    | false => simp
    | true =>
      simp only [Option.bind_some, Bool.not_true, Bool.false_eq_true, if_false, if_true, Copier.cloneEntries]
      split
      · simp
      · cases s₁.cloneEntry newpd stack (getPtabEntry s₁.m.vm pdir stack) with
        | none => simp
        | some r =>
          obtain ⟨ok, s₂⟩ := r
          cases ok <;> simp

theorem Copier.cloneAddrspace_complete {s s' : Copier} {brkPage pdir newpd : Nat} :
    s.cloneAddrspace brkPage pdir = some (newpd, true, s') ↔ ∃ m, vmCreateAddrspace s.m = some (newpd, m) ∧
      Copier.cloneEntries pdir newpd (clonedPages brkPage ++ [userStackPage]) ⟨m, s.memory⟩ = some (true, s') := by
  unfold Copier.cloneAddrspace
  constructor
  · intro h
    obtain ⟨⟨newpd', m⟩, hcreate, h⟩ := Option.bind_eq_some_iff.mp h
    obtain ⟨rfl, hentries⟩ := (Copier.cloneRest_complete _).mp h
    exact ⟨m, hcreate, hentries⟩
  · rintro ⟨m, hcreate, hentries⟩
    exact Option.bind_eq_some_iff.mpr ⟨(newpd, m), hcreate, (Copier.cloneRest_complete _).mpr ⟨rfl, hentries⟩⟩

/-- `vm_clone_addrspace`, when there are enough pages. -/
theorem cloneAddrspace_cloning {own : Owners} {m : Machine} {memory : Memory} {q pdir brkPage newpd : Nat} {s' : Copier}
    (hk : KernelOk own m) (hs : Space own m.vm q pdir) (hkeep : m.KeepsPages) (hb : brkPage < 4294967296)
    (h : Copier.cloneAddrspace ⟨m, memory⟩ brkPage pdir = some (newpd, true, s')) :
    ∃ own', Cloning m memory q pdir (q + 1) newpd (fun n => ∃ v ∈ clonedPages brkPage ++ [userStackPage], n = v / 4096) own' s' := by
  obtain ⟨m₁, hcreate, hentries⟩ := Copier.cloneAddrspace_complete.mp h
  obtain ⟨own₁, hmoves, hchild⟩ := vmCreateAddrspace_moves hk hcreate (q + 1)
  obtain ⟨hkeep₁, hfree₁, hnone₁⟩ := vmCreateAddrspace_spec hk hkeep hcreate
  have hpq : q + 1 ≠ q := Nat.succ_ne_self q
  have hqp : some (q + 1) ≠ some q := fun he => hpq (Option.some.inj he)
  have h₁ : Cloning m memory q pdir (q + 1) newpd (fun _ => False) own₁ ⟨m₁, memory⟩ :=
    ⟨hmoves.kernelOk, hmoves.change.space hqp hs, hchild, fun n hn => hmoves.change.pageEntry_eq hqp hs hn, hkeep₁, hfree₁,
      fun _ _ => rfl, fun _ _ hno => hno.elim, fun n hn _ => hnone₁ n hn⟩
  have hbounds : ∀ v ∈ clonedPages brkPage ++ [userStackPage], 4096 ≤ v ∧ v < 4294967296 := by
    intro v hv
    obtain ⟨hlow, hlt, -⟩ := clonedPages_aligned hb v hv
    exact ⟨hlow, hlt⟩
  obtain ⟨own', h'⟩ := h₁.entries hk.owned.toInUse hs hpq hbounds hentries
  exact ⟨own', h'.congr fun n => by rw [false_or]⟩

end Kos
