import Kos.Lemmas.Virt
import Kos.Pm.Space

/-!
# Who owns which frame

Every frame in use has at most one owner: a map from frames to owners is kept beside the state, and says of each page directory, page
table and page whose it is. An address space is well-formed when what it points to is owned in this way (`Space`); that two
addresses never share a frame then follows from the owners alone. A step of the kernel or of a process leaves what belongs to other
processes as it is (`Change`), and so their address spaces stay well-formed.
-/

namespace Kos

/-! ## Owners -/

/-- What a frame is used for, and by which process; pages are numbered. -/
inductive Owner where
  | kernelPdir
  | kernelTab (i : Nat)
  | kernelPage
  | pdir (p : Nat)
  | table (p i : Nat)
  | page (p n : Nat)
  deriving DecidableEq, Repr

/-- The owner of each frame. -/
abbrev Owners := Nat → Option Owner

/-- The frame belongs to the process `p`. -/
def Owner.Of (p : Nat) : Owner → Prop
  | .pdir q => q = p
  | .table q _ => q = p
  | .page q _ => q = p
  | _ => False

/-- The owner of the table that a process's page directory has for a part of the address space: below user space the tables are
the kernel's. -/
def Owner.tab (p i : Nat) : Owner := if i < 256 then .kernelTab i else .table p i

/-- An owned frame is in use, and it is a page other than page 0. -/
structure InUse (own : Owners) (vm : Vm) : Prop where
  memEnd : 131072 ≤ vm.mm.memEnd
  used : ∀ f o, own f = some o → isFree vm.mm.mmap f = false ∧ f % 4096 = 0 ∧ 0 < f

/-- The kernel's page directory has tables for kernel space only, and maps page 0 to itself. -/
structure Owned (own : Owners) (vm : Vm) : Prop extends InUse own vm where
  kernelPdir : own vm.kernelPdir = some .kernelPdir
  kernelTab : ∀ i < 1024, present (vm.tabs vm.kernelPdir i) = true →
    i < 256 ∧ own (getaddr (vm.tabs vm.kernelPdir i)) = some (.kernelTab i)
  low : present (vm.tabs vm.kernelPdir 0) = true
  lowPage : present (vm.tabs (getaddr (vm.tabs vm.kernelPdir 0)) 0) = true ∧
    getaddr (vm.tabs (getaddr (vm.tabs vm.kernelPdir 0)) 0) = 0

/-- An address space of the process `p` with the page directory `pdir`: the directory, its tables, and in user space its pages
belong to `p`. -/
structure Space (own : Owners) (vm : Vm) (p pdir : Nat) : Prop where
  dir : own pdir = some (.pdir p)
  table : ∀ i < 1024, present (vm.tabs pdir i) = true → own (getaddr (vm.tabs pdir i)) = some (.tab p i)
  page : ∀ i < 1024, 256 ≤ i → present (vm.tabs pdir i) = true →
    ∀ j < 1024, present (vm.tabs (getaddr (vm.tabs pdir i)) j) = true →
      own (getaddr (vm.tabs (getaddr (vm.tabs pdir i)) j)) = some (.page p (i * 1024 + j))
  low : vm.tabs pdir 0 = vm.tabs vm.kernelPdir 0

/-- The page with the number `n` is mapped to the frame `f`. -/
structure Mapped (vm : Vm) (pdir n f : Nat) : Prop where
  pde : present (vm.tabs pdir (n / 1024)) = true
  pte : present (vm.tabs (getaddr (vm.tabs pdir (n / 1024))) (n % 1024)) = true
  addr : getaddr (vm.tabs (getaddr (vm.tabs pdir (n / 1024))) (n % 1024)) = f

/-- The number of a page in user space. -/
def UserPage (n : Nat) : Prop := 262144 ≤ n ∧ n < 1048576

instance (n : Nat) : Decidable (UserPage n) := inferInstanceAs (Decidable (_ ∧ _))

theorem InUse.none_of_free {own : Owners} {vm : Vm} (h : InUse own vm) {f : Nat} (hf : isFree vm.mm.mmap f = true) : own f = none := by
  cases ho : own f with
  | none => rfl
  | some o => rw [(h.used f o ho).1] at hf; cases hf

/-- A page that a process has in user space is its own. -/
theorem Space.own_of_mapped {own : Owners} {vm : Vm} {p pdir n f : Nat} (h : Space own vm p pdir) (hn : UserPage n)
    (hm : Mapped vm pdir n f) : own f = some (.page p n) := by
  have hpage := h.page (n / 1024) (by have := hn.2; omega) (by have := hn.1; omega) hm.pde (n % 1024) (Nat.mod_lt _ (by decide)) hm.pte
  rwa [hm.addr, show n / 1024 * 1024 + n % 1024 = n by omega] at hpage

/-! ## What a step leaves alone -/

/-- A step of the process `a`, or of the kernel when this is `none`. Page tables of the kernel may change, and its own pages may
go; what belongs to other processes stays. -/
structure Change (own own' : Owners) (vm vm' : Vm) (a : Option Nat) : Prop where
  kernelPdir : vm'.kernelPdir = vm.kernelPdir
  low : vm'.tabs vm.kernelPdir 0 = vm.tabs vm.kernelPdir 0
  kernelTab : ∀ f i, own f = some (.kernelTab i) → own' f = some (.kernelTab i)
  owner : ∀ f o q, own f = some o → o.Of q → a ≠ some q → own' f = some o
  tabs : ∀ f o q, own f = some o → o.Of q → a ≠ some q → vm'.tabs f = vm.tabs f

theorem Change.refl (own : Owners) (vm : Vm) (a : Option Nat) : Change own own vm vm a :=
  ⟨rfl, rfl, fun _ _ h => h, fun _ _ _ h _ _ => h, fun _ _ _ _ _ _ => rfl⟩

theorem Change.trans {own own' own'' : Owners} {vm vm' vm'' : Vm} {a : Option Nat} (h : Change own own' vm vm' a)
    (h' : Change own' own'' vm' vm'' a) : Change own own'' vm vm'' a := by
  refine ⟨h'.kernelPdir.trans h.kernelPdir, ?_, fun f i hf => h'.kernelTab f i (h.kernelTab f i hf),
    fun f o q hf ho hq => h'.owner f o q (h.owner f o q hf ho hq) ho hq, fun f o q hf ho hq => ?_⟩
  · have := h'.low
    rwa [h.kernelPdir, h.low] at this
  · rw [h'.tabs f o q (h.owner f o q hf ho hq) ho hq, h.tabs f o q hf ho hq]

/-- What the kernel does for itself can be part of a process's step. -/
theorem Change.weaken {own own' : Owners} {vm vm' : Vm} (h : Change own own' vm vm' none) (a : Option Nat) :
    Change own own' vm vm' a :=
  ⟨h.kernelPdir, h.low, h.kernelTab, fun f o q hf ho _ => h.owner f o q hf ho nofun, fun f o q hf ho _ => h.tabs f o q hf ho nofun⟩

section

variable {own own' : Owners} {vm vm' : Vm} {a : Option Nat} {p pdir : Nat}

theorem Change.dir_eq (h : Change own own' vm vm' a) (hp : a ≠ some p) (hs : Space own vm p pdir) : vm'.tabs pdir = vm.tabs pdir :=
  h.tabs pdir _ p hs.dir rfl hp

theorem Change.table_eq (h : Change own own' vm vm' a) (hp : a ≠ some p) (hs : Space own vm p pdir) {i : Nat} (hi : i < 1024)
    (hu : 256 ≤ i) (hpde : present (vm.tabs pdir i) = true) :
    vm'.tabs (getaddr (vm.tabs pdir i)) = vm.tabs (getaddr (vm.tabs pdir i)) := by
  have htab := hs.table i hi hpde
  rw [Owner.tab, if_neg (by omega)] at htab
  exact h.tabs _ _ p htab rfl hp

/-- The address spaces of other processes stay well-formed. -/
theorem Change.space (h : Change own own' vm vm' a) (hp : a ≠ some p) (hs : Space own vm p pdir) : Space own' vm' p pdir := by
  have hdir := h.dir_eq hp hs
  refine ⟨h.owner _ _ p hs.dir rfl hp, fun i hi hpde => ?_, fun i hi hu hpde j hj hpte => ?_, ?_⟩
  · rw [hdir] at hpde ⊢
    have htab := hs.table i hi hpde
    by_cases hk : i < 256
    · rw [Owner.tab, if_pos hk] at htab ⊢
      exact h.kernelTab _ i htab
    · rw [Owner.tab, if_neg hk] at htab ⊢
      exact h.owner _ _ p htab rfl hp
  · rw [hdir] at hpde hpte ⊢
    rw [h.table_eq hp hs hi hu hpde] at hpte ⊢
    exact h.owner _ _ p (hs.page i hi hu hpde j hj hpte) rfl hp
  · rw [hdir, h.kernelPdir, h.low]
    exact hs.low

/-- So do their mappings. -/
theorem Change.mapped (h : Change own own' vm vm' a) (hp : a ≠ some p) (hs : Space own vm p pdir) {n f : Nat} (hn : UserPage n)
    (hm : Mapped vm pdir n f) : Mapped vm' pdir n f := by
  have hdir := h.dir_eq hp hs
  have htab := h.table_eq hp hs (i := n / 1024) (by have := hn.2; omega) (by have := hn.1; omega) hm.pde
  refine ⟨?_, ?_, ?_⟩
  · rw [hdir]
    exact hm.pde
  · rw [hdir, htab]
    exact hm.pte
  · rw [hdir, htab]
    exact hm.addr

/-- And they get no others. -/
theorem Change.mapped_only (h : Change own own' vm vm' a) (hp : a ≠ some p) (hs : Space own vm p pdir) {n f : Nat} (hn : UserPage n)
    (hm : Mapped vm' pdir n f) : Mapped vm pdir n f := by
  obtain ⟨hpde, hpte, haddr⟩ := hm
  rw [h.dir_eq hp hs] at hpde hpte haddr
  rw [h.table_eq hp hs (i := n / 1024) (by have := hn.2; omega) (by have := hn.1; omega) hpde] at hpte haddr
  exact ⟨hpde, hpte, haddr⟩

end

/-! ## A new frame -/

namespace SpaceAux

/-- A frame that had no owner gets one. -/
theorem update_some {own : Owners} {f : Nat} (hf : own f = none) (o : Owner) {g : Nat} {o' : Owner} (hg : own g = some o') :
    Function.update own f (some o) g = some o' := by
  rw [Function.update_of_ne, hg]
  rintro rfl
  rw [hf] at hg
  cases hg

/-- A page that is free gets an owner when it is marked as used. -/
theorem inUse_take {own : Owners} {vm : Vm} (vm' : Vm) (h : InUse own vm) {page : Nat} (ha : page % 4096 = 0) (hpos : 0 < page)
    (hmap : ∀ b, isFree vm'.mm.mmap b = (isFree vm.mm.mmap b && !decide (b / 4096 = page / 4096)))
    (hend : vm'.mm.memEnd = vm.mm.memEnd) (o : Owner) : InUse (Function.update own page (some o)) vm' := by
  refine ⟨by rw [hend]; exact h.memEnd, fun f o' hf => ?_⟩
  by_cases he : f = page
  · subst he
    exact ⟨by simp [hmap], ha, hpos⟩
  · rw [Function.update_of_ne he] at hf
    obtain ⟨hused, hmod, hf0⟩ := h.used f o' hf
    exact ⟨by simp [hmap, hused], hmod, hf0⟩

/-- The page that `mm_alloc_page` gives had no owner. -/
theorem mmAllocPage_fresh {own : Owners} {vm : Vm} (h : InUse own vm) {page : Nat} {mm : Mm} (ha : mmAllocPage vm.mm = (page, mm))
    (hne : page ≠ noPage) :
    own page = none ∧ page % 4096 = 0 ∧ page < 4294967296 ∧ 0 < page ∧
      ∀ o, InUse (Function.update own page (some o)) { vm with mm := mm } := by
  obtain ⟨hmod, hlt, hfree, hmap⟩ := mmAllocPage_spec ha hne
  have hpos := mmAllocPage_pos ha hne h.memEnd
  have hend : mm.memEnd = vm.mm.memEnd := by
    have := mmAllocPage_memEnd vm.mm
    rwa [ha] at this
  exact ⟨h.none_of_free hfree, hmod, hlt, hpos, inUse_take _ h hmod hpos hmap hend⟩

theorem mmAllocPage_noPage {s s' : Mm} (h : mmAllocPage s = (noPage, s')) : s'.mmap = s.mmap ∧ s'.memEnd = s.memEnd := by
  rcases mmAllocPage_cases s with he | ⟨p, -, hne, he⟩
  · rw [he] at h
    cases h
    exact ⟨rfl, rfl⟩
  · rw [he] at h
    cases h
    exact absurd rfl hne

theorem tableFor_memEnd {s s' : Vm} {pdir vaddr ptab : Nat} {flags : Entry} (h : tableFor s pdir vaddr flags = some (ptab, s')) :
    s'.mm.memEnd = s.mm.memEnd ∧
      (present (s.tabs pdir (pdirIndex vaddr)) = false → 131072 ≤ s.mm.memEnd → 0 < ptab) := by
  cases hp : present (s.tabs pdir (pdirIndex vaddr)) with
  | true =>
    rw [tableFor_of_present flags hp] at h
    cases h
    exact ⟨rfl, fun hno => by cases hno⟩
  | false =>
    rw [tableFor_of_absent flags hp] at h
    split at h
    next => cases h
    next hne =>
      cases h
      exact ⟨mmAllocPage_memEnd s.mm, fun _ hm => mmAllocPage_pos rfl hne hm⟩

end SpaceAux

open SpaceAux

/-! ## Mapping a page -/

/-- What mapping a page does to the tables, and that a new table gets its owner: the table `ptab` for the page was there, or it is a
frame without an owner and becomes an empty table; in it, the entry for the page is written. -/
structure MapStep (own own' : Owners) (vm vm' : Vm) (pdir v paddr ptab : Nat) (flags : Entry) (force : Bool) : Prop where
  inUse : InUse own' vm'
  kernelPdir : vm'.kernelPdir = vm.kernelPdir
  owner : ∀ f o, own f = some o → own' f = some o
  tabs : ∀ f j, own f ≠ none → f ≠ ptab → ¬(f = pdir ∧ j = pdirIndex v) → vm'.tabs f j = vm.tabs f j
  table : (present (vm.tabs pdir (pdirIndex v)) = true ∧ ptab = getaddr (vm.tabs pdir (pdirIndex v)) ∧
      vm'.tabs pdir (pdirIndex v) = vm.tabs pdir (pdirIndex v) ∧ ∀ j ≠ ptabIndex v, vm'.tabs ptab j = vm.tabs ptab j) ∨
    (present (vm.tabs pdir (pdirIndex v)) = false ∧ own ptab = none ∧ ptab % 4096 = 0 ∧ ptab < 4294967296 ∧
      vm'.tabs pdir (pdirIndex v) = mkEntry ptab flags ∧ ∀ j ≠ ptabIndex v, vm'.tabs ptab j = 0#32)
  entry : (vm'.tabs ptab (ptabIndex v) = mkEntry paddr flags ∧
      (force = true ∨ present flags = false ∨ present (vm.tabs pdir (pdirIndex v)) = false ∨
        present (vm.tabs ptab (ptabIndex v)) = false)) ∨
    (force = false ∧ present (vm.tabs pdir (pdirIndex v)) = true ∧ present (vm.tabs ptab (ptabIndex v)) = true ∧
      getaddr (vm.tabs ptab (ptabIndex v)) = paddr ∧ vm'.tabs ptab (ptabIndex v) = vm.tabs ptab (ptabIndex v))

/-- In a directory whose tables have their owners `T`, a new table gets its owner, too. -/
theorem doMap_step {own : Owners} {vm vm' : Vm} {pdir paddr v : Nat} {flags : Entry} {force : Bool} (hu : InUse own vm) {d : Owner}
    (hdir : own pdir = some d) (T : Nat → Owner) (hd : ∀ i, d ≠ T i)
    (htab : ∀ i < 1024, present (vm.tabs pdir i) = true → own (getaddr (vm.tabs pdir i)) = some (T i))
    (hv : v < 4294967296) (hp : paddr < 4294967296) (hf : flags.toNat < 4096)
    (h : doMap vm pdir paddr v flags force = some vm') :
    ∃ own' ptab, MapStep own own' vm vm' pdir v paddr ptab flags force ∧ own' ptab = some (T (pdirIndex v)) := by
  obtain ⟨-, ha, ptab, vm₁, ht, hc⟩ := doMap_cases h
  obtain ⟨hend, hpos⟩ := tableFor_memEnd ht
  have hi := pdirIndex_lt hv
  rcases tableFor_cases ht with ⟨hpde, hptab, rfl⟩ | ⟨hpde, hmod, hlt, hfree, hmap, hk, htabs⟩
  · have hown := htab _ hi hpde
    rw [← hptab] at hown
    have hne : ptab ≠ pdir := by
      rintro rfl
      rw [hdir] at hown
      exact hd _ (Option.some.inj hown)
    refine ⟨own, ptab, ?_, hown⟩
    rcases hc with ⟨hforce, hpte, hpf, hsame, rfl⟩ | ⟨hwhy, hmm, hk, hset⟩
    · exact ⟨hu, rfl, fun _ _ hf => hf, fun _ _ _ _ _ => rfl, .inl ⟨hpde, hptab, rfl, fun _ _ => rfl⟩,
        .inr ⟨hforce, hpde, hpte, getaddr_of_same ha hp hf hsame, rfl⟩⟩
    · refine ⟨⟨by rw [hmm]; exact hu.memEnd, by rw [hmm]; exact hu.used⟩, hk, fun _ _ hf => hf, fun f j _ hfp _ => ?_,
        .inl ⟨hpde, hptab, ?_, fun j hj => ?_⟩, .inl ⟨?_, by tauto⟩⟩
      · rw [hset, if_neg fun he => hfp he.1]
      · rw [hset, if_neg fun he => hne he.1.symm]
      · rw [hset, if_neg fun he => hj he.2]
      · rw [hset, if_pos ⟨rfl, rfl⟩]
  · have hnone := hu.none_of_free hfree
    have hne : ptab ≠ pdir := by
      rintro rfl
      rw [hdir] at hnone
      cases hnone
    have hempty : ∀ j, vm₁.tabs ptab j = 0#32 := fun j => by rw [htabs, if_pos rfl]
    refine ⟨Function.update own ptab (some (T (pdirIndex v))), ptab, ?_, Function.update_self ..⟩
    rcases hc with ⟨-, hpte, -, -, -⟩ | ⟨-, hmm, hk', hset⟩
    · rw [hempty] at hpte
      cases hpte
    · have hin := inUse_take vm₁ hu hmod (hpos hpde hu.memEnd) hmap hend (T (pdirIndex v))
      refine ⟨⟨by rw [hmm]; exact hin.memEnd, by rw [hmm]; exact hin.used⟩, hk'.trans hk, fun f o hf => update_some hnone _ hf,
        fun f j _ hfp hfj => ?_, .inr ⟨hpde, hnone, hmod, hlt, ?_, fun j hj => ?_⟩, .inl ⟨?_, .inr (.inr (.inl hpde))⟩⟩
      · rw [hset, if_neg fun he => hfp he.1, htabs, if_neg hfp, if_neg hfj]
      · rw [hset, if_neg fun he => hne he.1.symm, htabs, if_neg hne.symm, if_pos ⟨rfl, rfl⟩]
      · rw [hset, if_neg fun he => hj he.2, hempty]
      · rw [hset, if_pos ⟨rfl, rfl⟩]

namespace MapStep

variable {own own' : Owners} {vm vm' : Vm} {pdir v paddr ptab : Nat} {flags : Entry} {force : Bool}

/-- Other frames that have an owner are not touched. -/
theorem tabs_eq (h : MapStep own own' vm vm' pdir v paddr ptab flags force) {f : Nat} {o : Owner} (hf : own f = some o)
    (hp : f ≠ ptab) (hd : f ≠ pdir) : vm'.tabs f = vm.tabs f := by
  funext j
  exact h.tabs f j (by rw [hf]; exact Option.some_ne_none o) hp fun he => hd he.1

/-- Neither are the other entries of the directory. -/
theorem dir_eq (h : MapStep own own' vm vm' pdir v paddr ptab flags force) {o : Owner} (hd : own pdir = some o) (hp : pdir ≠ ptab)
    {i : Nat} (hi : i ≠ pdirIndex v) : vm'.tabs pdir i = vm.tabs pdir i :=
  h.tabs pdir i (by rw [hd]; exact Option.some_ne_none o) hp fun he => hi he.2

/-- An entry of the directory that is present stays. -/
theorem pde_eq (h : MapStep own own' vm vm' pdir v paddr ptab flags force) {o : Owner} (hd : own pdir = some o) (hp : pdir ≠ ptab)
    {i : Nat} (hi : present (vm.tabs pdir i) = true) : vm'.tabs pdir i = vm.tabs pdir i := by
  by_cases he : i = pdirIndex v
  · subst he
    rcases h.table with ⟨-, -, heq, -⟩ | ⟨hnp, -⟩
    · exact heq
    · rw [hnp] at hi
      cases hi
  · exact h.dir_eq hd hp he

/-- The directory's entry for the page leads to the table. -/
theorem getaddr_pde (h : MapStep own own' vm vm' pdir v paddr ptab flags force) (hf : flags.toNat < 4096) :
    getaddr (vm'.tabs pdir (pdirIndex v)) = ptab := by
  rcases h.table with ⟨-, hp, heq, -⟩ | ⟨-, -, ha, hl, heq, -⟩
  · rw [heq, hp]
  · rw [heq, getaddr_mkEntry ha hl hf]

/-- The other present entries of the table were there before. -/
theorem pte_eq (h : MapStep own own' vm vm' pdir v paddr ptab flags force) {j : Nat} (hj : j ≠ ptabIndex v)
    (hp : present (vm'.tabs ptab j) = true) :
    present (vm.tabs pdir (pdirIndex v)) = true ∧ ptab = getaddr (vm.tabs pdir (pdirIndex v)) ∧
      vm'.tabs ptab j = vm.tabs ptab j := by
  rcases h.table with ⟨hpde, hptab, -, heq⟩ | ⟨-, -, -, -, -, hempty⟩
  · exact ⟨hpde, hptab, heq j hj⟩
  · rw [hempty j hj] at hp
    cases hp

/-- A table that had an owner keeps its other entries. -/
theorem owned_pte_eq (h : MapStep own own' vm vm' pdir v paddr ptab flags force) {o : Owner} (hf : own ptab = some o) {j : Nat}
    (hj : j ≠ ptabIndex v) : vm'.tabs ptab j = vm.tabs ptab j := by
  rcases h.table with ⟨-, -, -, heq⟩ | ⟨-, hnone, -⟩
  · exact heq j hj
  · rw [hf] at hnone
    cases hnone

end MapStep

/-- What the kernel maps for itself. -/
theorem doMap_kernel {own : Owners} {vm vm' : Vm} {paddr v : Nat} {flags : Entry} {force : Bool} (ho : Owned own vm)
    (hp : paddr < 4294967296) (hv : pageSize ≤ v) (hv' : v < userSpaceStart) (hf : flags.toNat < 4096)
    (h : doMap vm vm.kernelPdir paddr v flags force = some vm') :
    ∃ own', Owned own' vm' ∧ Change own own' vm vm' none ∧ ∀ f o, own f = some o → own' f = some o := by
  simp only [pageSize, userSpaceStart] at hv hv'
  obtain ⟨own', ptab, hstep, hptab⟩ := doMap_step ho.toInUse ho.kernelPdir .kernelTab nofun (fun i hi hpde => (ho.kernelTab i hi hpde).2)
    (by omega) hp hf h
  have hi : pdirIndex v < 256 := by
    simp only [pdirIndex, pageSize]
    omega
  have hne : ∀ {f o}, own f = some o → (∀ i, o ≠ .kernelTab i) → f ≠ ptab := by
    rintro f o hfo hno rfl
    rw [hstep.owner _ _ hfo] at hptab
    exact hno _ (Option.some.inj hptab)
  have hK : vm.kernelPdir ≠ ptab := hne ho.kernelPdir nofun
  have hlow := hstep.pde_eq ho.kernelPdir hK ho.low
  have hlowtab := (ho.kernelTab 0 (by decide) ho.low).2
  have hlowpage : vm'.tabs (getaddr (vm.tabs vm.kernelPdir 0)) 0 = vm.tabs (getaddr (vm.tabs vm.kernelPdir 0)) 0 := by
    by_cases he : getaddr (vm.tabs vm.kernelPdir 0) = ptab
    · have h0 : pdirIndex v = 0 := by
        have := hstep.owner _ _ hlowtab
        rw [he, hptab] at this
        simpa using this
      rw [he] at hlowtab ⊢
      refine hstep.owned_pte_eq hlowtab fun hj => ?_
      simp only [pdirIndex, ptabIndex, pageSize] at h0 hj
      omega
    · rw [hstep.tabs_eq hlowtab he fun hd => by rw [hd, ho.kernelPdir] at hlowtab; cases hlowtab]
  refine ⟨own', ⟨hstep.inUse, ?_, fun i hi' hpde => ?_, ?_, ?_⟩, ⟨hstep.kernelPdir, hlow, fun f i => hstep.owner f _,
    fun f o q hfo _ _ => hstep.owner f o hfo, fun f o q hfo hoq _ => ?_⟩, hstep.owner⟩
  · rw [hstep.kernelPdir]
    exact hstep.owner _ _ ho.kernelPdir
  · rw [hstep.kernelPdir] at hpde ⊢
    by_cases he : i = pdirIndex v
    · subst he
      rw [hstep.getaddr_pde hf]
      exact ⟨hi, hptab⟩
    · rw [hstep.dir_eq ho.kernelPdir hK he] at hpde ⊢
      obtain ⟨hlt, hown⟩ := ho.kernelTab i hi' hpde
      exact ⟨hlt, hstep.owner _ _ hown⟩
  · rw [hstep.kernelPdir, hlow]
    exact ho.low
  · rw [hstep.kernelPdir, hlow, hlowpage]
    exact ho.lowPage
  · refine hstep.tabs_eq hfo (hne hfo ?_) ?_
    · rintro i rfl
      exact hoq
    · rintro rfl
      rw [ho.kernelPdir] at hfo
      cases hfo
      exact hoq

theorem Owner.tab_ne_of {p i : Nat} {o : Owner} (ho : o.Of p ∨ o = .kernelPdir) (hn : ∀ i, o ≠ .table p i) : o ≠ .tab p i := by
  rintro rfl
  unfold Owner.tab at ho hn
  split at ho
  · rcases ho with ho | ho <;> cases ho
  · rename_i h
    exact hn i (by rw [if_neg h])

section

variable {own own' : Owners} {vm vm' : Vm} {p pdir paddr v ptab : Nat} {flags : Entry} {force : Bool} (ho : Owned own vm)
  (hs : Space own vm p pdir) (hstep : MapStep own own' vm vm' pdir v paddr ptab flags force)
  (hptab : own' ptab = some (.tab p (pdirIndex v)))

namespace MapStep

include hstep hptab in
theorem ne_ptab {f : Nat} {o : Owner} (hf : own f = some o) (hno : o ≠ .tab p (pdirIndex v)) : f ≠ ptab := by
  rintro rfl
  rw [hstep.owner _ _ hf] at hptab
  exact hno (Option.some.inj hptab)

include hs hstep hptab in
theorem dir_ne : pdir ≠ ptab := hstep.ne_ptab hptab hs.dir (Owner.tab_ne_of (.inl rfl) nofun)

include ho hs in
theorem kernelPdir_ne : vm.kernelPdir ≠ pdir := fun he => by
  have := ho.kernelPdir
  rw [he, hs.dir] at this
  cases this

include ho hs hstep hptab in
theorem kernel_eq : vm'.tabs vm.kernelPdir = vm.tabs vm.kernelPdir :=
  hstep.tabs_eq ho.kernelPdir (hstep.ne_ptab hptab ho.kernelPdir (Owner.tab_ne_of (.inr rfl) nofun)) (kernelPdir_ne ho hs)

include ho hs hstep in
/-- Page 0 is mapped already, and not to the page of a process. -/
theorem pos (hpf : present flags = true) (hpaddr : 0 < paddr) (hforce : force = true → 4096 ≤ v) (hva : v % 4096 = 0) :
    0 < v / 4096 := by
  by_contra h0
  have hv : v = 0 := by omega
  subst hv
  have hpde : present (vm.tabs pdir 0) = true := by rw [hs.low]; exact ho.low
  have hnf : force = false := by
    cases force with
    | false => rfl
    | true => exact absurd (hforce rfl) (by decide)
  rcases hstep.table with ⟨-, ht, -, -⟩ | ⟨hn, -⟩
  · have hlow := ho.lowPage
    rw [← hs.low] at hlow
    change ptab = getaddr (vm.tabs pdir 0) at ht
    rw [← ht] at hlow
    rcases hstep.entry with ⟨-, hw | hw | hw | hw⟩ | ⟨-, -, -, ha, -⟩
    · rw [hnf] at hw
      cases hw
    · rw [hpf] at hw
      cases hw
    · exact absurd hw (by rw [show pdirIndex 0 = 0 from rfl, hpde]; decide)
    · exact absurd hw (by rw [show ptabIndex 0 = 0 from rfl, hlow.1]; decide)
    · rw [show ptabIndex 0 = 0 from rfl, hlow.2] at ha
      omega
  · exact absurd hn (by rw [show pdirIndex 0 = 0 from rfl, hpde]; decide)

include ho hs hstep hptab in
/-- The kernel's part stays as it was. -/
theorem owned (hpos : 0 < v / 4096) : Owned own' vm' := by
  have hK := hstep.kernel_eq ho hs hptab
  have hlowtab := (ho.kernelTab 0 (by decide) ho.low).2
  have hlowpage : vm'.tabs (getaddr (vm.tabs vm.kernelPdir 0)) 0 = vm.tabs (getaddr (vm.tabs vm.kernelPdir 0)) 0 := by
    by_cases he : getaddr (vm.tabs vm.kernelPdir 0) = ptab
    · have htab := hstep.owner _ _ hlowtab
      rw [he, hptab, Owner.tab] at htab
      split at htab
      · rw [he] at hlowtab ⊢
        refine hstep.owned_pte_eq hlowtab fun hj => ?_
        have h0 : pdirIndex v = 0 := by simpa using htab
        simp only [pdirIndex, ptabIndex, pageSize] at h0 hj
        omega
      · cases htab
    · rw [hstep.tabs_eq hlowtab he fun hd => by rw [hd, hs.dir] at hlowtab; cases hlowtab]
  refine ⟨hstep.inUse, ?_, fun i hi hpde => ?_, ?_, ?_⟩
  · rw [hstep.kernelPdir]
    exact hstep.owner _ _ ho.kernelPdir
  · rw [hstep.kernelPdir, hK] at hpde ⊢
    obtain ⟨hlt, hown⟩ := ho.kernelTab i hi hpde
    exact ⟨hlt, hstep.owner _ _ hown⟩
  · rw [hstep.kernelPdir, hK]
    exact ho.low
  · rw [hstep.kernelPdir, hK, hlowpage]
    exact ho.lowPage

include ho hs hstep hptab in
/-- What belongs to other processes is not touched. -/
theorem change : Change own own' vm vm' (some p) := by
  refine ⟨hstep.kernelPdir, by rw [hstep.kernel_eq ho hs hptab], fun f i => hstep.owner f _, fun f o q hfo _ _ => hstep.owner f o hfo,
    fun f o q hfo hoq hq => ?_⟩
  refine hstep.tabs_eq hfo (hstep.ne_ptab hptab hfo ?_) ?_
  · rintro rfl
    unfold Owner.tab at hoq
    split at hoq
    · exact hoq
    · exact hq (by rw [show p = q from hoq])
  · rintro rfl
    rw [hs.dir] at hfo
    cases hfo
    exact hq (by rw [show p = q from hoq])

include hs hstep hptab in
/-- A user table of another part of the address space is not touched. -/
theorem table_eq {i : Nat} (hi : i < 1024) (hu : 256 ≤ i) (hne : i ≠ pdirIndex v) (hpde : present (vm.tabs pdir i) = true) :
    vm'.tabs (getaddr (vm.tabs pdir i)) = vm.tabs (getaddr (vm.tabs pdir i)) := by
  have htab := hs.table i hi hpde
  rw [Owner.tab, if_neg (by omega)] at htab
  refine hstep.tabs_eq htab (hstep.ne_ptab hptab htab ?_) fun hd => ?_
  · unfold Owner.tab
    split
    · nofun
    · intro he
      cases he
      exact hne rfl
  · rw [hd, hs.dir] at htab
    cases htab

include ho hs hstep hptab in
/-- The address space stays well-formed when the page is the process's own. -/
theorem space (hpage : own paddr = some (.page p (v / 4096))) (hpa : paddr % 4096 = 0) (hp : paddr < 4294967296)
    (hf : flags.toNat < 4096) : Space own' vm' p pdir := by
  have hdir := hstep.dir_ne hs hptab
  have hK := hstep.kernel_eq ho hs hptab
  refine ⟨hstep.owner _ _ hs.dir, fun i hi hpde => ?_, fun i hi hu hpde j hj hpte => ?_, ?_⟩
  · by_cases he : i = pdirIndex v
    · rw [he, hstep.getaddr_pde hf]
      exact hptab
    · rw [hstep.dir_eq hs.dir hdir he] at hpde ⊢
      exact hstep.owner _ _ (hs.table i hi hpde)
  · by_cases he : i = pdirIndex v
    · rw [he, hstep.getaddr_pde hf] at hpte ⊢
      by_cases hj' : j = ptabIndex v
      · have hn : pdirIndex v * 1024 + j = v / 4096 := by
          simp only [hj', pdirIndex, ptabIndex, pageSize]
          omega
        rw [hn, hj']
        rcases hstep.entry with ⟨heq, -⟩ | ⟨-, -, -, ha, heq⟩
        · rw [heq, getaddr_mkEntry hpa hp hf]
          exact hstep.owner _ _ hpage
        · rw [heq, ha]
          exact hstep.owner _ _ hpage
      · obtain ⟨hpde', hptab', heq⟩ := hstep.pte_eq hj' hpte
        rw [heq] at hpte ⊢
        rw [hptab'] at hpte ⊢
        exact hstep.owner _ _ (hs.page _ (he ▸ hi) (he ▸ hu) hpde' j hj hpte)
    · rw [hstep.dir_eq hs.dir hdir he] at hpde hpte ⊢
      rw [hstep.table_eq hs hptab hi hu he hpde] at hpte ⊢
      exact hstep.owner _ _ (hs.page i hi hu hpde j hj hpte)
  · rw [hstep.kernelPdir, hK, ← hs.low]
    exact hstep.pde_eq hs.dir hdir (by rw [hs.low]; exact ho.low)

include hstep in
/-- The page is mapped. -/
theorem mapped (hpa : paddr % 4096 = 0) (hp : paddr < 4294967296) (hpf : present flags = true) (hf : flags.toNat < 4096) :
    Mapped vm' pdir (v / 4096) paddr := by
  have hpde : present (vm'.tabs pdir (pdirIndex v)) = true := by
    rcases hstep.table with ⟨hpde, -, heq, -⟩ | ⟨-, -, ha, -, heq, -⟩
    · rw [heq]
      exact hpde
    · rw [heq, present_mkEntry ha]
      exact hpf
  have haddr := hstep.getaddr_pde hf
  refine ⟨hpde, ?_, ?_⟩
  · change present (vm'.tabs (getaddr (vm'.tabs pdir (pdirIndex v))) (ptabIndex v)) = true
    rw [haddr]
    rcases hstep.entry with ⟨heq, -⟩ | ⟨-, -, hpte, -, heq⟩
    · rw [heq, present_mkEntry hpa]
      exact hpf
    · rw [heq]
      exact hpte
  · change getaddr (vm'.tabs (getaddr (vm'.tabs pdir (pdirIndex v))) (ptabIndex v)) = paddr
    rw [haddr]
    rcases hstep.entry with ⟨heq, -⟩ | ⟨-, -, -, ha, heq⟩
    · rw [heq, getaddr_mkEntry hpa hp hf]
    · rw [heq, ha]

include hstep in
/-- A page that is mapped without force was mapped to the same frame before, if it was. -/
theorem mapped_before (hpf : present flags = true) (hnf : force = false) {f : Nat} (hm : Mapped vm pdir (v / 4096) f) : f = paddr := by
  have hpde : present (vm.tabs pdir (pdirIndex v)) = true := hm.pde
  have hpte : present (vm.tabs (getaddr (vm.tabs pdir (pdirIndex v))) (ptabIndex v)) = true := hm.pte
  have haddr : getaddr (vm.tabs (getaddr (vm.tabs pdir (pdirIndex v))) (ptabIndex v)) = f := hm.addr
  rcases hstep.table with ⟨-, ht, -, -⟩ | ⟨hn, -⟩
  · rw [← ht] at hpte haddr
    rcases hstep.entry with ⟨-, hw | hw | hw | hw⟩ | ⟨-, -, -, ha, -⟩
    · rw [hnf] at hw
      cases hw
    · rw [hpf] at hw
      cases hw
    · rw [hpde] at hw
      cases hw
    · rw [hpte] at hw
      cases hw
    · rw [← haddr, ha]
  · rw [hpde] at hn
    cases hn

include hs hstep hptab in
/-- Other pages stay mapped as they are. -/
theorem keeps_mapped (hpf : present flags = true) {n f : Nat} (hn : UserPage n) (hm : Mapped vm pdir n f)
    (hne : n ≠ v / 4096 ∨ force = false) (hpa : paddr % 4096 = 0) (hp : paddr < 4294967296) (hf : flags.toNat < 4096) :
    Mapped vm' pdir n f := by
  by_cases hnv : n = v / 4096
  · have hnf : force = false := hne.resolve_left fun h => h hnv
    subst hnv
    rw [hstep.mapped_before hpf hnf hm]
    exact hstep.mapped hpa hp hpf hf
  · have hlt := hn.2
    have hge := hn.1
    have hpde := hstep.pde_eq hs.dir (hstep.dir_ne hs hptab) hm.pde
    have htab : vm'.tabs (getaddr (vm.tabs pdir (n / 1024))) (n % 1024) = vm.tabs (getaddr (vm.tabs pdir (n / 1024))) (n % 1024) := by
      by_cases he : n / 1024 = pdirIndex v
      · rcases hstep.table with ⟨-, ht, -, heq⟩ | ⟨hnp, -⟩
        · rw [he, ← ht]
          refine heq _ fun hj => hnv ?_
          simp only [pdirIndex, ptabIndex, pageSize] at he hj
          omega
        · have := hm.pde
          rw [he, hnp] at this
          cases this
      · rw [hstep.table_eq hs hptab (by omega) (by omega) he hm.pde]
    refine ⟨?_, ?_, ?_⟩
    · rw [hpde]
      exact hm.pde
    · rw [hpde, htab]
      exact hm.pte
    · rw [hpde, htab]
      exact hm.addr

include hs hstep hptab in
/-- No other page is mapped. -/
theorem mapped_only (hf : flags.toNat < 4096) {n f : Nat} (hn : UserPage n) (hne : n ≠ v / 4096) (hm : Mapped vm' pdir n f) :
    Mapped vm pdir n f := by
  have hlt := hn.2
  have hge := hn.1
  obtain ⟨hpde, hpte, haddr⟩ := hm
  by_cases he : n / 1024 = pdirIndex v
  · rw [he, hstep.getaddr_pde hf] at hpte haddr
    have hj : n % 1024 ≠ ptabIndex v := fun hj => hne (by simp only [pdirIndex, ptabIndex, pageSize] at he hj; omega)
    obtain ⟨hpde', hptab', heq⟩ := hstep.pte_eq hj hpte
    rw [heq] at hpte haddr
    rw [hptab', ← he] at hpte haddr
    exact ⟨by rw [he]; exact hpde', hpte, haddr⟩
  · rw [hstep.dir_eq hs.dir (hstep.dir_ne hs hptab) he] at hpde hpte haddr
    rw [hstep.table_eq hs hptab (by omega) (by omega) he hpde] at hpte haddr
    exact ⟨hpde, hpte, haddr⟩

end MapStep

end

/-! ## Steps of the machine -/

/-- The kernel's part of the state: its tables, and the pages that it has taken. -/
structure KernelOk (own : Owners) (m : Machine) : Prop where
  owned : Owned own m.vm
  kernelPages : ∀ f ∈ m.kernelPages, own f = some .kernelPage

/-- A step of the process `a`, or of the kernel, that keeps the kernel's part; the processes' records stay as they are. -/
structure Moves (own own' : Owners) (m m' : Machine) (a : Option Nat) : Prop where
  kernelOk : KernelOk own' m'
  change : Change own own' m.vm m'.vm a
  procs : m'.procs = m.procs

theorem Moves.trans {own own' own'' : Owners} {m m' m'' : Machine} {a : Option Nat} (h : Moves own own' m m' a)
    (h' : Moves own' own'' m' m'' a) : Moves own own'' m m'' a :=
  ⟨h'.kernelOk, h.change.trans h'.change, h'.procs.trans h.procs⟩

theorem Moves.weaken {own own' : Owners} {m m' : Machine} (h : Moves own own' m m' none) (a : Option Nat) : Moves own own' m m' a :=
  ⟨h.kernelOk, h.change.weaken a, h.procs⟩

theorem KernelOk.refl {own : Owners} {m : Machine} (h : KernelOk own m) (a : Option Nat) : Moves own own m m a :=
  ⟨h, .refl own m.vm a, rfl⟩

/-- A frame that had no owner gets one, and the tables stay as they are. -/
theorem Owned.take {own : Owners} {vm vm' : Vm} (h : Owned own vm) {page : Nat} (hnone : own page = none) {o : Owner}
    (hin : InUse (Function.update own page (some o)) vm') (ht : vm'.tabs = vm.tabs) (hk : vm'.kernelPdir = vm.kernelPdir) :
    Owned (Function.update own page (some o)) vm' ∧ ∀ a, Change own (Function.update own page (some o)) vm vm' a := by
  refine ⟨⟨hin, ?_, fun i hi hpde => ?_, ?_, ?_⟩, fun a => ⟨hk, by rw [ht], fun f i => update_some hnone o,
    fun f o q hfo _ _ => update_some hnone _ hfo, fun f o q _ _ _ => by rw [ht]⟩⟩
  · rw [hk]
    exact update_some hnone o h.kernelPdir
  · rw [ht, hk] at hpde ⊢
    obtain ⟨hlt, hown⟩ := h.kernelTab i hi hpde
    exact ⟨hlt, update_some hnone o hown⟩
  · rw [ht, hk]
    exact h.low
  · rw [ht, hk]
    exact h.lowPage

theorem mmFreePage_isFree {s : Mm} {page : Nat} (ha : page % 4096 = 0) (b : Nat) :
    isFree (mmFreePage s page).mmap b = (isFree s.mmap b || decide (page / 4096 = b / 4096)) := by
  have hal : isPageAligned page = true := (isPageAligned_iff page).mpr ha
  have hne : page ≠ noPage := fun he => by rw [he] at ha; cases ha
  simp only [mmFreePage, if_neg hne, hal, Bool.not_true, Bool.false_eq_true, if_false]
  exact isFree_markFree _ _ _

theorem mmFreePage_memEnd (s : Mm) (page : Nat) : (mmFreePage s page).memEnd = s.memEnd := by
  unfold mmFreePage
  split
  · rfl
  · split <;> rfl

/-- A frame is given back by its owner. -/
theorem Owned.drop {own : Owners} {vm : Vm} (h : Owned own vm) {page : Nat} {o : Owner} (ho : own page = some o)
    (hd : o ≠ .kernelPdir) (ht : ∀ i, o ≠ .kernelTab i) :
    Owned (Function.update own page none) { vm with mm := mmFreePage vm.mm page } := by
  obtain ⟨-, ha, -⟩ := h.used page o ho
  have hkeep : ∀ {f o'}, own f = some o' → o' ≠ o → Function.update own page none f = some o' := by
    intro f o' hf hne
    rw [Function.update_of_ne, hf]
    rintro rfl
    exact hne (Option.some.inj (hf.symm.trans ho))
  refine ⟨⟨by rw [mmFreePage_memEnd]; exact h.memEnd, fun f o' hf => ?_⟩, hkeep h.kernelPdir hd.symm, fun i hi hpde => ?_, h.low,
    h.lowPage⟩
  · by_cases he : f = page
    · rw [he, Function.update_self] at hf
      cases hf
    · rw [Function.update_of_ne he] at hf
      obtain ⟨hused, hmod, hpos⟩ := h.used f o' hf
      refine ⟨?_, hmod, hpos⟩
      rw [mmFreePage_isFree ha, hused, Bool.false_or, decide_eq_false_iff_not]
      omega
  · obtain ⟨hlt, hown⟩ := h.kernelTab i hi hpde
    exact ⟨hlt, hkeep hown (ht i).symm⟩

/-- What the kernel does for itself: it takes a page, gives back one that it has taken, or maps something in its own directory. -/
theorem KernelAction.exec_cases {m m' : Machine} {action : KernelAction} (h : action.exec m = some m') :
    (∃ page, action = .use page ∧ page % 4096 = 0 ∧ 0 < page ∧
        m' = { m with
          vm := { m.vm with mm := m.vm.mm.markUsed page }
          kernelPages := if isFree m.vm.mm.mmap page then page :: m.kernelPages else m.kernelPages }) ∨
      (∃ page, action = .release page ∧ page ∈ m.kernelPages ∧
        m' = { m with vm := { m.vm with mm := mmFreePage m.vm.mm page }, kernelPages := m.kernelPages.filter (· ≠ page) }) ∨
      ∃ paddr vaddr flags force vm, action = .map paddr vaddr flags force ∧ paddr < 4294967296 ∧ pageSize ≤ vaddr ∧
        vaddr < userSpaceStart ∧ flags.toNat < pageSize ∧ doMap m.vm m.vm.kernelPdir paddr vaddr flags force = some vm ∧
        m' = { m with vm := vm } := by
  cases action with
  | use page =>
    simp only [KernelAction.exec] at h
    split at h
    · rename_i hc
      cases h
      exact .inl ⟨page, rfl, (isPageAligned_iff page).mp hc.1, hc.2, rfl⟩
    · cases h
  | release page =>
    simp only [KernelAction.exec] at h
    split at h
    · rename_i hmem
      cases h
      exact .inr (.inl ⟨page, rfl, hmem, rfl⟩)
    · cases h
  | map paddr vaddr flags force =>
    simp only [KernelAction.exec] at h
    split at h
    · rename_i hc
      obtain ⟨hp, hv, hv', hf⟩ := hc
      obtain ⟨vm, hmap, rfl⟩ := Option.map_eq_some_iff.mp h
      exact .inr (.inr ⟨paddr, vaddr, flags, force, vm, rfl, hp, hv, hv', hf, hmap, rfl⟩)
    · cases h

theorem actions_induct {m m' : Machine} {actions : List KernelAction} {P : Machine → Prop}
    (h : actions.foldlM KernelAction.exec m = some m') (hstart : P m)
    (hstep : ∀ action ∈ actions, ∀ m₁ m₂, P m₁ → action.exec m₁ = some m₂ → P m₂) : P m' := by
  induction actions generalizing m with
  | nil =>
    cases h
    exact hstart
  | cons action actions ih =>
    obtain ⟨m₁, hexec, h⟩ := Option.bind_eq_some_iff.mp h
    exact ih h (hstep action List.mem_cons_self m m₁ hstart hexec) fun action hmem => hstep action (List.mem_cons_of_mem _ hmem)

/-- What holds before the kernel works for itself and is kept by each of its actions holds afterwards. -/
theorem kernelWork_induct {m m' : Machine} {P : Machine → Prop} (h : m.kernelWork = some m') (hstart : P { m with work := m.work.tail })
    (hstep : ∀ actions ∈ m.work, ∀ action ∈ actions, ∀ m₁ m₂, P m₁ → action.exec m₁ = some m₂ → P m₂) : P m' := by
  obtain ⟨vm, procs, kernelPages, work⟩ := m
  cases work with
  | nil =>
    cases h
    exact hstart
  | cons actions work => exact actions_induct h hstart (hstep actions List.mem_cons_self)

theorem KernelAction.exec_moves {own : Owners} {m m' : Machine} (hk : KernelOk own m) {action : KernelAction}
    (h : action.exec m = some m') : ∃ own', Moves own own' m m' none := by
  rcases KernelAction.exec_cases h with
    ⟨page, -, ha, hpos, rfl⟩ | ⟨page, -, hmem, rfl⟩ | ⟨paddr, v, flags, force, vm, -, hp, hv, hv', hf, hmap, rfl⟩
  · by_cases hfree : isFree m.vm.mm.mmap page = true
    · have hnone := hk.owned.toInUse.none_of_free hfree
      have hmap : ∀ b, isFree (m.vm.mm.markUsed page).mmap b = (isFree m.vm.mm.mmap b && !decide (b / 4096 = page / 4096)) :=
        fun b => by simp only [Mm.markUsed, isFree_markUsed, eq_comm]
      have hin : InUse (Function.update own page (some .kernelPage)) { m.vm with mm := m.vm.mm.markUsed page } :=
        inUse_take { m.vm with mm := m.vm.mm.markUsed page } hk.owned.toInUse ha hpos hmap rfl _
      obtain ⟨howned, hchange⟩ := hk.owned.take hnone hin rfl rfl
      refine ⟨_, ⟨howned, fun f hf => ?_⟩, hchange none, rfl⟩
      simp only [hfree, if_true, List.mem_cons] at hf
      rcases hf with rfl | hf
      · exact Function.update_self ..
      · exact update_some hnone _ (hk.kernelPages f hf)
    · refine ⟨own, ⟨⟨⟨hk.owned.memEnd, fun f o hf => ?_⟩, hk.owned.kernelPdir, hk.owned.kernelTab, hk.owned.low,
        hk.owned.lowPage⟩, fun f hf => ?_⟩, ⟨rfl, rfl, fun _ _ h => h, fun _ _ _ h _ _ => h, fun _ _ _ _ _ _ => rfl⟩, rfl⟩
      · obtain ⟨hused, hmod, hf0⟩ := hk.owned.used f o hf
        refine ⟨?_, hmod, hf0⟩
        simp only [Mm.markUsed, isFree_markUsed, hused, Bool.false_and]
      · simp only [hfree, Bool.false_eq_true, if_false] at hf
        exact hk.kernelPages f hf
  · have hown := hk.kernelPages page hmem
    refine ⟨_, ⟨hk.owned.drop hown (fun ho => by cases ho) (fun _ ho => by cases ho), fun f hf => ?_⟩,
      ⟨rfl, rfl, fun f i hf => ?_, fun f o q hf hoq _ => ?_, fun _ _ _ _ _ _ => rfl⟩, rfl⟩
    · obtain ⟨hf, hne⟩ := List.mem_filter.mp hf
      rw [Function.update_of_ne (by simpa using hne)]
      exact hk.kernelPages f hf
    · rw [Function.update_of_ne, hf]
      rintro rfl
      rw [hown] at hf
      cases hf
    · rw [Function.update_of_ne, hf]
      rintro rfl
      rw [hown] at hf
      cases hf
      exact hoq
  · obtain ⟨own', howned, hchange, hkeep⟩ := doMap_kernel hk.owned hp hv hv' hf hmap
    exact ⟨own', ⟨howned, fun f hf => hkeep f _ (hk.kernelPages f hf)⟩, hchange, rfl⟩

theorem kernelWork_moves {own : Owners} {m m' : Machine} (hk : KernelOk own m) (h : m.kernelWork = some m') :
    ∃ own', Moves own own' m m' none := by
  refine kernelWork_induct (P := fun m₁ => ∃ own', Moves own own' m m₁ none) h ?_ fun _ _ _ _ m₁ m₂ hm₁ hexec => ?_
  · exact ⟨own, ⟨hk.owned, hk.kernelPages⟩, .refl own m.vm none, rfl⟩
  · obtain ⟨own₁, hm₁⟩ := hm₁
    obtain ⟨own₂, hm₂⟩ := KernelAction.exec_moves hm₁.kernelOk hexec
    exact ⟨own₂, hm₁.trans hm₂⟩

theorem kernelWork_calm {m : Machine} (hw : m.work = []) : m.kernelWork = some m := by
  rw [Machine.kernelWork, hw]

/-- A page that the allocator gives belongs to whoever it is given to. -/
theorem KernelOk.take {own : Owners} {m : Machine} {page : Nat} {mm : Mm} (hk : KernelOk own m) (hal : mmAllocPage m.vm.mm = (page, mm))
    (hne : page ≠ noPage) (o : Owner) :
    own page = none ∧ KernelOk (Function.update own page (some o)) { m with vm := { m.vm with mm := mm } } ∧
      ∀ a, Change own (Function.update own page (some o)) m.vm { m.vm with mm := mm } a := by
  obtain ⟨hnone, -, -, -, hin⟩ := mmAllocPage_fresh hk.owned.toInUse hal hne
  obtain ⟨howned, hchange⟩ := hk.owned.take hnone (hin o) rfl rfl
  exact ⟨hnone, ⟨howned, fun f hf => update_some hnone _ (hk.kernelPages f hf)⟩, hchange⟩

theorem kmAllocPage_returns {m m' : Machine} {page : Nat} (h : kmAllocPage m = some (page, m')) :
    ∃ mm, mmAllocPage m.vm.mm = (page, mm) ∧ page ≠ noPage ∧ Machine.kernelWork { m with vm := { m.vm with mm := mm } } = some m' := by
  obtain ⟨page', mm, hal⟩ : ∃ page mm, mmAllocPage m.vm.mm = (page, mm) := ⟨_, _, rfl⟩
  simp only [kmAllocPage, hal] at h
  split at h
  · cases h
  · rename_i hne
    obtain ⟨m₁, hwork, heq⟩ := Option.map_eq_some_iff.mp h
    obtain ⟨rfl, rfl⟩ := Prod.mk.inj heq
    exact ⟨mm, hal, hne, hwork⟩

/-- The kernel takes a page that was free. -/
theorem kmAllocPage_moves {own : Owners} {m m' : Machine} {page : Nat} (hk : KernelOk own m) (h : kmAllocPage m = some (page, m')) :
    ∃ own', Moves own own' m m' none ∧ isFree m.vm.mm.mmap page = true ∧ page % 4096 = 0 := by
  obtain ⟨mm, hal, hne, hwork⟩ := kmAllocPage_returns h
  obtain ⟨hpage, -, hfree, -⟩ := mmAllocPage_spec hal hne
  obtain ⟨-, hk₁, hchange⟩ := hk.take hal hne .kernelPage
  obtain ⟨own₂, hmoves⟩ := kernelWork_moves hk₁ hwork
  exact ⟨own₂, ⟨hmoves.kernelOk, (hchange none).trans hmoves.change, hmoves.procs⟩, hfree, hpage⟩

/-- What happens before the kernel does something for itself: there is no page, or one is mapped. -/
theorem newPage_returns {m m' : Machine} {pdir v : Nat} {flags : Entry} {force : Bool} {r : Option Nat}
    (h : newPage m pdir v flags force = some (r, m')) :
    (r = none ∧ ∃ mm, mmAllocPage m.vm.mm = (noPage, mm) ∧ m' = { m with vm := { m.vm with mm := mm } }) ∨
      ∃ page mm vm, r = some page ∧ mmAllocPage m.vm.mm = (page, mm) ∧ page ≠ noPage ∧
        doMap { m.vm with mm := mm } pdir page v flags force = some vm ∧ Machine.kernelWork { m with vm := vm } = some m' := by
  obtain ⟨page, mm, hal⟩ : ∃ page mm, mmAllocPage m.vm.mm = (page, mm) := ⟨_, _, rfl⟩
  simp only [newPage, hal] at h
  split at h
  · rename_i hno
    subst hno
    cases h
    exact .inl ⟨rfl, mm, hal, rfl⟩
  · rename_i hne
    obtain ⟨vm, hmap, h⟩ := Option.bind_eq_some_iff.mp h
    obtain ⟨m₂, hwork, heq⟩ := Option.map_eq_some_iff.mp h
    obtain ⟨rfl, rfl⟩ := Prod.mk.inj heq
    exact .inr ⟨page, mm, vm, rfl, hal, hne, hmap, hwork⟩

/-- The page that is mapped was free. -/
theorem newPage_page {m m' : Machine} {pdir v page : Nat} {flags : Entry} {force : Bool}
    (h : newPage m pdir v flags force = some (some page, m')) :
    (mmAllocPage m.vm.mm).1 ≠ noPage ∧ page % 4096 = 0 ∧ page < 4294967296 ∧ isFree m.vm.mm.mmap page = true := by
  rcases newPage_returns h with ⟨hr, -⟩ | ⟨page', mm, vm, hr, hal, hne, -⟩
  · cases hr
  · cases hr
    obtain ⟨hmod, hlt, hfree, -⟩ := mmAllocPage_spec hal hne
    exact ⟨by rw [hal]; exact hne, hmod, hlt, hfree⟩

/-- The page `page` was free, belongs to the process `p` now and is mapped in its address space; what the kernel does for itself is still
to come. -/
structure NewPage (own own' : Owners) (m m' : Machine) (p pdir v page : Nat) (flags : Entry) (force : Bool) : Prop where
  free : isFree m.vm.mm.mmap page = true
  aligned : page % 4096 = 0
  lt : page < 4294967296
  pos : 0 < page
  vpos : 0 < v / 4096
  alloc : ∃ mm, mmAllocPage m.vm.mm = (page, mm) ∧ doMap { m.vm with mm := mm } pdir page v flags force = some m'.vm
  moves : Moves own own' m m' (some p)
  space : Space own' m'.vm p pdir
  mapped : Mapped m'.vm pdir (v / 4096) page
  keeps : ∀ n f, UserPage n → Mapped m.vm pdir n f → n ≠ v / 4096 ∨ force = false → Mapped m'.vm pdir n f
  only : ∀ n f, UserPage n → n ≠ v / 4096 → Mapped m'.vm pdir n f → Mapped m.vm pdir n f
  before : force = false → UserPage (v / 4096) → ∀ f, ¬Mapped m.vm pdir (v / 4096) f

theorem NewPage.ne_noPage {own own' : Owners} {m m' : Machine} {p pdir v page : Nat} {flags : Entry} {force : Bool}
    (h : NewPage own own' m m' p pdir v page flags force) : page ≠ noPage := by
  rintro rfl
  exact absurd h.aligned (by decide)

/-- The page before it is mapped, and the mapping. -/
theorem NewPage.step {own own' : Owners} {m m' : Machine} {p pdir v page : Nat} {flags : Entry} {force : Bool}
    (h : NewPage own own' m m' p pdir v page flags force) (hk : KernelOk own m) (hs : Space own m.vm p pdir) (hv : v < 4294967296)
    (hf : flags.toNat < 4096) :
    ∃ mm own₁ own₂ ptab, doMap { m.vm with mm := mm } pdir page v flags force = some m'.vm ∧ Owned own₁ { m.vm with mm := mm } ∧
      Change own own₁ m.vm { m.vm with mm := mm } none ∧ Space own₁ { m.vm with mm := mm } p pdir ∧
      MapStep own₁ own₂ { m.vm with mm := mm } m'.vm pdir v page ptab flags force ∧ own₂ ptab = some (.tab p (pdirIndex v)) := by
  obtain ⟨mm, hal, hmap⟩ := h.alloc
  obtain ⟨-, hk₁, hchange⟩ := hk.take hal h.ne_noPage (.page p (v / 4096))
  have hs₁ := (hchange none).space nofun hs
  obtain ⟨own₂, ptab, hstep, hptab⟩ := doMap_step hk₁.owned.toInUse hs₁.dir (.tab p)
    (fun i => Owner.tab_ne_of (.inl rfl) nofun) hs₁.table hv h.lt hf hmap
  exact ⟨mm, _, own₂, ptab, hmap, hk₁.owned, hchange none, hs₁, hstep, hptab⟩

/-- There is no page left, or one is mapped before the kernel does something for itself. -/
theorem newPage_cases {own : Owners} {m m' : Machine} {p pdir v : Nat} {flags : Entry} {force : Bool} {r : Option Nat}
    (hk : KernelOk own m) (hs : Space own m.vm p pdir) (hv : v < 4294967296) (hpf : present flags = true) (hf : flags.toNat < 4096)
    (hforce : force = true → 4096 ≤ v) (h : newPage m pdir v flags force = some (r, m')) :
    (r = none ∧ ∃ mm, mmAllocPage m.vm.mm = (noPage, mm) ∧ mm.mmap = m.vm.mm.mmap ∧ mm.memEnd = m.vm.mm.memEnd ∧
        m' = { m with vm := { m.vm with mm := mm } }) ∨
      ∃ page vm₁ own₁, r = some page ∧ NewPage own own₁ m { m with vm := vm₁ } p pdir v page flags force ∧
        Machine.kernelWork { m with vm := vm₁ } = some m' := by
  rcases newPage_returns h with ⟨rfl, mm, hal, rfl⟩ | ⟨page, mm, vm₁, rfl, hal, hne, hmap, hwork⟩
  · obtain ⟨hmm, hend⟩ := mmAllocPage_noPage hal
    exact .inl ⟨rfl, mm, hal, hmm, hend, rfl⟩
  · obtain ⟨-, hpa, hlt, hpos, -⟩ := mmAllocPage_fresh hk.owned.toInUse hal hne
    obtain ⟨-, -, hfree, -⟩ := mmAllocPage_spec hal hne
    obtain ⟨hnone, ⟨howned, hpages⟩, hchange⟩ := hk.take hal hne (.page p (v / 4096))
    have hs₁ := (hchange none).space nofun hs
    obtain ⟨own₁, ptab, hstep, hptab⟩ := doMap_step howned.toInUse hs₁.dir (.tab p)
      (fun i => Owner.tab_ne_of (.inl rfl) nofun) hs₁.table hv hlt hf hmap
    obtain ⟨hva, -⟩ := doMap_cases hmap
    have hvpos := hstep.pos howned hs₁ hpf hpos hforce hva
    have hk₁ : KernelOk own₁ { m with vm := vm₁ } :=
      ⟨hstep.owned howned hs₁ hptab hvpos, fun f hf => hstep.owner _ _ (hpages f hf)⟩
    refine .inr ⟨page, vm₁, own₁, rfl, ⟨hfree, hpa, hlt, hpos, hvpos, ⟨mm, hal, hmap⟩,
      ⟨hk₁, (hchange _).trans (hstep.change howned hs₁ hptab), rfl⟩,
      hstep.space howned hs₁ hptab (Function.update_self ..) hpa hlt hf, hstep.mapped hpa hlt hpf hf, fun n f hn hm hnv => ?_,
      fun n f hn hnv hm => ?_, fun hnf hu f hm => ?_⟩, hwork⟩
    · exact hstep.keeps_mapped hs₁ hptab hpf hn ⟨hm.pde, hm.pte, hm.addr⟩ hnv hpa hlt hf
    · have hm₁ := hstep.mapped_only hs₁ hptab hf hn hnv hm
      exact ⟨hm₁.pde, hm₁.pte, hm₁.addr⟩
    · have hfp : f = page := hstep.mapped_before hpf hnf ⟨hm.pde, hm.pte, hm.addr⟩
      have hown := hs.own_of_mapped hu hm
      rw [hfp, hnone] at hown
      cases hown

/-- A new page for the process `p` in its address space: the address space stays well-formed and its other pages stay as they are. If
there is a page, it is not mapped over page 0, and in user space it is mapped where nothing was, unless by force. -/
theorem newPage_moves {own : Owners} {m m' : Machine} {p pdir v : Nat} {flags : Entry} {force : Bool} {r : Option Nat}
    (hk : KernelOk own m) (hs : Space own m.vm p pdir) (hv : v < 4294967296) (hpf : present flags = true) (hf : flags.toNat < 4096)
    (hforce : force = true → 4096 ≤ v) (h : newPage m pdir v flags force = some (r, m')) :
    ∃ own', Moves own own' m m' (some p) ∧ Space own' m'.vm p pdir ∧
      (∀ n f, UserPage n → Mapped m.vm pdir n f → n ≠ v / 4096 ∨ force = false → Mapped m'.vm pdir n f) ∧
      (∀ n f, UserPage n → n ≠ v / 4096 → Mapped m'.vm pdir n f → Mapped m.vm pdir n f) ∧
      ∀ page, r = some page → 0 < page ∧ 0 < v / 4096 ∧ (UserPage (v / 4096) → Mapped m'.vm pdir (v / 4096) page ∧
        (force = false → ∀ f, ¬Mapped m.vm pdir (v / 4096) f)) := by
  rcases newPage_cases hk hs hv hpf hf hforce h with ⟨rfl, mm, -, hmm, hend, rfl⟩ | ⟨page, vm₁, own₁, rfl, hmap, hwork⟩
  · have howned : Owned own { m.vm with mm := mm } :=
      ⟨⟨by rw [hend]; exact hk.owned.memEnd, by rw [hmm]; exact hk.owned.used⟩, hk.owned.kernelPdir, hk.owned.kernelTab, hk.owned.low,
        hk.owned.lowPage⟩
    exact ⟨own, ⟨⟨howned, hk.kernelPages⟩, ⟨rfl, rfl, fun _ _ h => h, fun _ _ _ h _ _ => h, fun _ _ _ _ _ _ => rfl⟩, rfl⟩,
      ⟨hs.dir, hs.table, hs.page, hs.low⟩, fun n f _ hm _ => ⟨hm.pde, hm.pte, hm.addr⟩,
      fun n f _ _ hm => ⟨hm.pde, hm.pte, hm.addr⟩, nofun⟩
  · obtain ⟨own₂, hmoves⟩ := kernelWork_moves hmap.moves.kernelOk hwork
    refine ⟨own₂, hmap.moves.trans (hmoves.weaken _), hmoves.change.space nofun hmap.space, fun n f hn hm hnv => ?_,
      fun n f hn hnv hm => ?_, fun page' hpage' => ?_⟩
    · exact hmoves.change.mapped nofun hmap.space hn (hmap.keeps n f hn hm hnv)
    · exact hmap.only n f hn hnv (hmoves.change.mapped_only nofun hmap.space hn hm)
    · cases hpage'
      exact ⟨hmap.pos, hmap.vpos, fun hu => ⟨hmoves.change.mapped nofun hmap.space hu hmap.mapped, fun hnf => hmap.before hnf hu⟩⟩

end Kos
