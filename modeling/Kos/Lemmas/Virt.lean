import Kos.Mm.Virt
import Kos.Lemmas.Alloc

/-!
# Mapping pages

What `do_map` can do is said once, in `doMap_cases`. From it follow the two facts that the other modules use: mapping without force
leaves every present entry of an allocated table as it is (`Grows`), and afterwards the page is mapped where it was asked to be
(`MapsTo`).
-/

namespace Kos

/-! ## Entries -/

/-- The bit `PE_PRESENT` of an entry. -/
abbrev present (e : Entry) : Bool := bisset e pePresent

theorem bnotset_eq (map bit : Entry) : bnotset map bit = !bisset map bit := (Bool.not_not _).symm

theorem getaddr_eq (e : Entry) : getaddr e = e.toNat / 4096 * 4096 := by
  have hmask : 0xFFFFF000#32 = BitVec.allOnes 32 <<< 12 := rfl
  rw [getaddr, hmask, ← BitVec.shiftLeft_ushiftRight, BitVec.toNat_shiftLeft, BitVec.toNat_ushiftRight, Nat.shiftLeft_eq,
    Nat.shiftRight_eq_div_pow]
  have := e.isLt
  omega

theorem getaddr_mod (e : Entry) : getaddr e % 4096 = 0 := by
  rw [getaddr_eq]
  exact Nat.mul_mod_left _ _

theorem getaddr_lt (e : Entry) : getaddr e < 4294967296 := by
  have := e.isLt
  rw [getaddr_eq]
  omega

theorem getflags_toNat_lt (e : Entry) : (getflags e).toNat < 4096 := by
  rw [getflags, BitVec.toNat_and]
  exact Nat.lt_of_le_of_lt Nat.and_le_right (by decide)

/-- The bits of the entry `(dword)paddr | flags` of an aligned address. -/
theorem toNat_mkEntry {paddr : Nat} {flags : Entry} (ha : paddr % 4096 = 0) (hlt : paddr < 4294967296)
    (hf : flags.toNat < 4096) : (mkEntry paddr flags).toNat = paddr + flags.toNat := by
  obtain ⟨q, rfl⟩ := Nat.dvd_of_mod_eq_zero ha
  rw [mkEntry, BitVec.toNat_or, BitVec.toNat_ofNat, Nat.mod_eq_of_lt hlt]
  exact (Nat.two_pow_add_eq_or_of_lt (i := 12) hf q).symm

theorem getaddr_mkEntry {paddr : Nat} {flags : Entry} (ha : paddr % 4096 = 0) (hlt : paddr < 4294967296)
    (hf : flags.toNat < 4096) : getaddr (mkEntry paddr flags) = paddr := by
  rw [getaddr_eq, toNat_mkEntry ha hlt hf]
  omega

theorem present_eq (e : Entry) : present e = e.getLsbD 0 := bissetn_eq (n := 0) e (by decide)

theorem present_mkEntry {paddr : Nat} (ha : paddr % 4096 = 0) (flags : Entry) :
    present (mkEntry paddr flags) = present flags := by
  have hbit : paddr.testBit 0 = false := by
    rw [Nat.testBit_zero, decide_eq_false_iff_not]
    omega
  rw [present_eq, present_eq, mkEntry, BitVec.getLsbD_or, BitVec.getLsbD_ofNat, hbit, Bool.and_false, Bool.false_or]

/-- An entry that equals `(dword)paddr | flags` up to the processor's flags points to `paddr`. -/
theorem getaddr_of_same {pte flags : Entry} {paddr : Nat} (ha : paddr % 4096 = 0) (hlt : paddr < 4294967296)
    (hf : flags.toNat < 4096) (h : pte &&& ~~~(peAccessed ||| ptDirty) = mkEntry paddr flags) : getaddr pte = paddr := by
  rw [← getaddr_mkEntry ha hlt hf, ← h, getaddr, getaddr, BitVec.and_assoc]
  rfl

/-! ## Updates of the tables -/

@[simp] theorem setEntry_mm (s : Vm) (f i : Nat) (e : Entry) : (s.setEntry f i e).mm = s.mm := rfl

@[simp] theorem setEntry_kernelPdir (s : Vm) (f i : Nat) (e : Entry) : (s.setEntry f i e).kernelPdir = s.kernelPdir := rfl

@[simp] theorem clearTab_mm (s : Vm) (f : Nat) : (s.clearTab f).mm = s.mm := rfl

@[simp] theorem clearTab_kernelPdir (s : Vm) (f : Nat) : (s.clearTab f).kernelPdir = s.kernelPdir := rfl

theorem setEntry_tabs (s : Vm) (f i : Nat) (e : Entry) (f' i' : Nat) :
    (s.setEntry f i e).tabs f' i' = if f' = f ∧ i' = i then e else s.tabs f' i' := by
  by_cases hf : f' = f
  · subst hf
    by_cases hi : i' = i <;> simp [Vm.setEntry, hi]
  · simp [Vm.setEntry, hf]

theorem clearTab_tabs (s : Vm) (f f' i' : Nat) : (s.clearTab f).tabs f' i' = if f' = f then 0#32 else s.tabs f' i' := by
  by_cases hf : f' = f <;> simp [Vm.clearTab, hf]

/-! ## What mapping a page does -/

theorem tableFor_of_present {s : Vm} {pdir vaddr : Nat} (flags : Entry) (h : present (s.tabs pdir (pdirIndex vaddr)) = true) :
    tableFor s pdir vaddr flags = some (getaddr (s.tabs pdir (pdirIndex vaddr)), s) := by
  simp only [tableFor, bnotset_eq, h, Bool.not_true, Bool.false_eq_true, if_false]

theorem tableFor_of_absent {s : Vm} {pdir vaddr : Nat} (flags : Entry) (h : present (s.tabs pdir (pdirIndex vaddr)) = false) :
    tableFor s pdir vaddr flags = if (mmAllocPage s.mm).1 = noPage then none
      else some ((mmAllocPage s.mm).1, ({ s with mm := (mmAllocPage s.mm).2 }.setEntry pdir (pdirIndex vaddr)
        (mkEntry (mmAllocPage s.mm).1 flags)).clearTab (mmAllocPage s.mm).1) := by
  simp only [tableFor, bnotset_eq, h, Bool.not_false, if_true]

/-- The page table for an address: it is there, or a free page becomes an empty table. -/
theorem tableFor_cases {s s' : Vm} {pdir vaddr ptab : Nat} {flags : Entry} (h : tableFor s pdir vaddr flags = some (ptab, s')) :
    (present (s.tabs pdir (pdirIndex vaddr)) = true ∧ ptab = getaddr (s.tabs pdir (pdirIndex vaddr)) ∧ s' = s) ∨
    (present (s.tabs pdir (pdirIndex vaddr)) = false ∧ ptab % 4096 = 0 ∧ ptab < 4294967296 ∧
      isFree s.mm.mmap ptab = true ∧
      (∀ a, isFree s'.mm.mmap a = (isFree s.mm.mmap a && !decide (a / 4096 = ptab / 4096))) ∧
      s'.kernelPdir = s.kernelPdir ∧
      ∀ f i, s'.tabs f i = if f = ptab then 0#32
        else if f = pdir ∧ i = pdirIndex vaddr then mkEntry ptab flags else s.tabs f i) := by
  cases hp : present (s.tabs pdir (pdirIndex vaddr)) with
  | true =>
    rw [tableFor_of_present flags hp] at h
    cases h
    exact .inl ⟨rfl, rfl, rfl⟩
  | false =>
    rw [tableFor_of_absent flags hp] at h
    split at h
    next => cases h
    next hne =>
      cases h
      obtain ⟨ha, hlt, hfree, hmap⟩ := mmAllocPage_spec (s := s.mm) rfl hne
      refine .inr ⟨rfl, ha, hlt, hfree, hmap, rfl, fun f i => ?_⟩
      rw [clearTab_tabs, setEntry_tabs]

theorem countRev_some {s s' : Vm} {pdir : Nat} (h : s.countRev pdir = some s') :
    s'.mm = s.mm ∧ s'.tabs = s.tabs ∧ s'.kernelPdir = s.kernelPdir := by
  simp only [Vm.countRev] at h
  split at h
  · split at h
    · cases h
    · cases h
      exact ⟨rfl, rfl, rfl⟩
  · cases h
    exact ⟨rfl, rfl, rfl⟩

/-- What mapping a page does after its table is found: an equal mapping stays, anything else is written. -/
theorem doMap_cases {s s' : Vm} {pdir paddr vaddr : Nat} {flags : Entry} {force : Bool}
    (h : doMap s pdir paddr vaddr flags force = some s') :
    vaddr % 4096 = 0 ∧ paddr % 4096 = 0 ∧ ∃ ptab s₁, tableFor s pdir vaddr flags = some (ptab, s₁) ∧
      ((force = false ∧ present (s₁.tabs ptab (ptabIndex vaddr)) = true ∧ present flags = true ∧
          s₁.tabs ptab (ptabIndex vaddr) &&& ~~~(peAccessed ||| ptDirty) = mkEntry paddr flags ∧ s' = s₁) ∨
        ((force = true ∨ present (s₁.tabs ptab (ptabIndex vaddr)) = false ∨ present flags = false) ∧
          s'.mm = s₁.mm ∧ s'.kernelPdir = s₁.kernelPdir ∧
          ∀ f i, s'.tabs f i = if f = ptab ∧ i = ptabIndex vaddr then mkEntry paddr flags else s₁.tabs f i)) := by
  simp only [doMap] at h
  split at h
  · cases h
  · rename_i hv
    split at h
    · cases h
    · rename_i hp
      simp only [Bool.not_eq_true, Bool.not_eq_false'] at hv hp
      obtain ⟨⟨ptab, s₁⟩, ht, h⟩ := Option.bind_eq_some_iff.mp h
      refine ⟨(isPageAligned_iff _).mp hv, (isPageAligned_iff _).mp hp, ptab, s₁, ht, ?_⟩
      simp only at h
      split at h
      · rename_i hc
        simp only [Bool.and_eq_true, Bool.not_eq_true'] at hc
        split at h
        · cases h
        · rename_i hsame
          cases h
          exact .inl ⟨hc.1.1, hc.1.2, hc.2, Decidable.of_not_not hsame, rfl⟩
      · rename_i hc
        obtain ⟨hmm, htabs, hk⟩ := countRev_some h
        refine .inr ⟨?_, hmm, hk, fun f i => by rw [htabs, setEntry_tabs]⟩
        simp only [Bool.and_eq_true, Bool.not_eq_true', not_and_or] at hc
        rcases hc with (hc | hc) | hc
        · exact .inl (by simpa using hc)
        · exact .inr (.inl (by simpa using hc))
        · exact .inr (.inr (by simpa using hc))

/-! ## Present entries stay -/

/-- A later state in which the used pages are still used and the present entries of their tables are as they were. -/
structure Grows (s s' : Vm) : Prop where
  kernelPdir : s'.kernelPdir = s.kernelPdir
  used : ∀ f, isFree s.mm.mmap f = false → isFree s'.mm.mmap f = false
  entry : ∀ f i, isFree s.mm.mmap f = false → present (s.tabs f i) = true → s'.tabs f i = s.tabs f i

theorem Grows.refl (s : Vm) : Grows s s := ⟨rfl, fun _ h => h, fun _ _ _ _ => rfl⟩

theorem Grows.trans {s s' s'' : Vm} (h : Grows s s') (h' : Grows s' s'') : Grows s s'' := by
  refine ⟨h'.kernelPdir.trans h.kernelPdir, fun f hf => h'.used f (h.used f hf), fun f i hf hp => ?_⟩
  have he := h.entry f i hf hp
  rw [h'.entry f i (h.used f hf) (he ▸ hp), he]

theorem tableFor_grows {s s' : Vm} {pdir vaddr ptab : Nat} {flags : Entry}
    (h : tableFor s pdir vaddr flags = some (ptab, s')) : Grows s s' := by
  rcases tableFor_cases h with ⟨-, -, rfl⟩ | ⟨hnp, -, -, hfree, hmap, hk, htabs⟩
  · exact Grows.refl _
  · refine ⟨hk, fun f hf => by simp [hmap, hf], fun f i hf hp => ?_⟩
    have hne : f ≠ ptab := fun he => by rw [he, hfree] at hf; cases hf
    have hni : ¬(f = pdir ∧ i = pdirIndex vaddr) := by
      rintro ⟨rfl, rfl⟩
      rw [hnp] at hp
      cases hp
    rw [htabs, if_neg hne, if_neg hni]

/-- Mapping without force does not touch a present entry. -/
theorem doMap_grows {s s' : Vm} {pdir paddr vaddr : Nat} {flags : Entry} (hf : present flags = true)
    (h : doMap s pdir paddr vaddr flags false = some s') : Grows s s' := by
  obtain ⟨-, -, ptab, s₁, ht, ⟨-, -, -, -, rfl⟩ | ⟨hc, hmm, hk, htabs⟩⟩ := doMap_cases h
  · exact tableFor_grows ht
  · refine (tableFor_grows ht).trans ⟨hk, fun f hf => by rw [hmm]; exact hf, fun f i _ hp => ?_⟩
    have hnp : present (s₁.tabs ptab (ptabIndex vaddr)) = false := by simpa [hf] using hc
    have hni : ¬(f = ptab ∧ i = ptabIndex vaddr) := by
      rintro ⟨rfl, rfl⟩
      rw [hnp] at hp
      cases hp
    rw [htabs, if_neg hni]

/-! ## The page is mapped -/

/-- A page directory in use: it and its tables lie in used pages, and it is none of its own tables. -/
structure PdirWf (s : Vm) (pdir : Nat) : Prop where
  dir_used : isFree s.mm.mmap pdir = false
  tab_used : ∀ i < 1024, present (s.tabs pdir i) = true → isFree s.mm.mmap (getaddr (s.tabs pdir i)) = false
  tab_ne : ∀ i < 1024, present (s.tabs pdir i) = true → getaddr (s.tabs pdir i) ≠ pdir

theorem PdirWf.congr {s s' : Vm} {pdir : Nat} (h : PdirWf s pdir) (hmm : s'.mm = s.mm) (hdir : s'.tabs pdir = s.tabs pdir) :
    PdirWf s' pdir := by
  refine ⟨?_, ?_, ?_⟩
  · rw [hmm]
    exact h.dir_used
  · rw [hmm, hdir]
    exact h.tab_used
  · rw [hdir]
    exact h.tab_ne

/-- The page at `vaddr` is mapped to the frame `paddr`, through a table in a used page. -/
structure MapsTo (s : Vm) (pdir vaddr paddr : Nat) : Prop where
  dir_used : isFree s.mm.mmap pdir = false
  pde : present (s.tabs pdir (pdirIndex vaddr)) = true
  tab_used : isFree s.mm.mmap (getaddr (s.tabs pdir (pdirIndex vaddr))) = false
  pte : present (s.tabs (getaddr (s.tabs pdir (pdirIndex vaddr))) (ptabIndex vaddr)) = true
  addr : getaddr (s.tabs (getaddr (s.tabs pdir (pdirIndex vaddr))) (ptabIndex vaddr)) = paddr

theorem pdirIndex_lt {vaddr : Nat} (h : vaddr < 4294967296) : pdirIndex vaddr < 1024 := by
  simp only [pdirIndex, pageSize]
  omega

theorem MapsTo.grows {s s' : Vm} {pdir vaddr paddr : Nat} (hg : Grows s s') (h : MapsTo s pdir vaddr paddr) :
    MapsTo s' pdir vaddr paddr := by
  have hpde := hg.entry _ _ h.dir_used h.pde
  have hpte := hg.entry _ _ h.tab_used h.pte
  refine ⟨hg.used _ h.dir_used, hpde ▸ h.pde, ?_, ?_, ?_⟩
  · rw [hpde]
    exact hg.used _ h.tab_used
  · rw [hpde, hpte]
    exact h.pte
  · rw [hpde, hpte]
    exact h.addr

/-- An address on a mapped page resolves to the same offset in the frame. -/
theorem MapsTo.resolve {s : Vm} {pdir vaddr paddr a : Nat} (h : MapsTo s pdir vaddr paddr) (ha : a / 4096 = vaddr / 4096) :
    vmResolveVirt s pdir a = paddr + a % 4096 := by
  have hmod := getaddr_mod (s.tabs (getaddr (s.tabs pdir (pdirIndex vaddr))) (ptabIndex vaddr))
  have hlt := getaddr_lt (s.tabs (getaddr (s.tabs pdir (pdirIndex vaddr))) (ptabIndex vaddr))
  rw [h.addr] at hmod hlt
  have hdi : pdirIndex a = pdirIndex vaddr := by rw [pdirIndex, pdirIndex, pageSize, ha]
  have hti : ptabIndex a = ptabIndex vaddr := by rw [ptabIndex, ptabIndex, pageSize, ha]
  simp only [vmResolveVirt, getPtabEntry, hdi, hti, bnotset_eq, h.pde, h.pte, h.addr, Bool.not_true, Bool.false_eq_true,
    if_false, if_true, pageOffset, pageSize]
  exact w32_of_lt (by omega)

theorem tableFor_wf {s s' : Vm} {pdir vaddr ptab : Nat} {flags : Entry} (hwf : PdirWf s pdir) (hf : present flags = true)
    (hlt : flags.toNat < 4096) (h : tableFor s pdir vaddr flags = some (ptab, s')) :
    PdirWf s' pdir ∧ present (s'.tabs pdir (pdirIndex vaddr)) = true ∧ getaddr (s'.tabs pdir (pdirIndex vaddr)) = ptab := by
  rcases tableFor_cases h with ⟨hp, rfl, rfl⟩ | ⟨-, ha, hl, hfree, hmap, -, htabs⟩
  · exact ⟨hwf, hp, rfl⟩
  · have hne : pdir ≠ ptab := fun he => by
      have := hwf.dir_used
      rw [he, hfree] at this
      cases this
    have hdir : ∀ i, s'.tabs pdir i = if i = pdirIndex vaddr then mkEntry ptab flags else s.tabs pdir i := by
      intro i
      rw [htabs, if_neg hne]
      simp only [true_and]
    have hnew : getaddr (mkEntry ptab flags) = ptab := getaddr_mkEntry ha hl hlt
    refine ⟨⟨by simp [hmap, hwf.dir_used], fun i hi hp => ?_, fun i hi hp => ?_⟩, ?_, ?_⟩
    · rw [hdir] at hp ⊢
      split at hp
      · rename_i he
        simp [he, hnew, hmap]
      · rename_i he
        simp [he, hmap, hwf.tab_used i hi hp]
    · rw [hdir] at hp ⊢
      split at hp
      · rename_i he
        simpa [he, hnew] using hne.symm
      · rename_i he
        simpa [he] using hwf.tab_ne i hi hp
    · rw [hdir, if_pos rfl, present_mkEntry ha]
      exact hf
    · rw [hdir, if_pos rfl, hnew]

/-- Mapping a page without force maps it, and keeps the directory well-formed. -/
theorem doMap_maps {s s' : Vm} {pdir paddr vaddr : Nat} {flags : Entry} (hwf : PdirWf s pdir) (hf : present flags = true)
    (hlt : flags.toNat < 4096) (hp : paddr < 4294967296) (hv : vaddr < 4294967296)
    (h : doMap s pdir paddr vaddr flags false = some s') : PdirWf s' pdir ∧ MapsTo s' pdir vaddr paddr := by
  obtain ⟨-, ha, ptab, s₁, ht, hc⟩ := doMap_cases h
  obtain ⟨hwf₁, hpde, rfl⟩ := tableFor_wf hwf hf hlt ht
  have hused := hwf₁.tab_used _ (pdirIndex_lt hv) hpde
  rcases hc with ⟨-, hpte, -, hsame, rfl⟩ | ⟨-, hmm, -, htabs⟩
  · exact ⟨hwf₁, hwf₁.dir_used, hpde, hused, hpte, getaddr_of_same ha hp hlt hsame⟩
  · have hdir : s'.tabs pdir = s₁.tabs pdir := by
      funext i
      rw [htabs, if_neg (fun he => hwf₁.tab_ne _ (pdirIndex_lt hv) hpde he.1.symm)]
    have hwf' := hwf₁.congr hmm hdir
    refine ⟨hwf', hwf'.dir_used, ?_, ?_, ?_, ?_⟩
    · rw [hdir]
      exact hpde
    · rw [hmm, hdir]
      exact hused
    · rw [hdir, htabs, if_pos ⟨rfl, rfl⟩, present_mkEntry ha]
      exact hf
    · rw [hdir, htabs, if_pos ⟨rfl, rfl⟩]
      exact getaddr_mkEntry ha hp hlt

/-- A range of pages that was mapped without a panic is mapped page by page. -/
theorem mapPages_maps {s s' : Vm} {pdir pstart vstart num : Nat} {flags : Entry} (hwf : PdirWf s pdir)
    (hf : present flags = true) (hlt : flags.toNat < 4096) (h : mapPages s pdir pstart vstart flags num = some s') :
    PdirWf s' pdir ∧ Grows s s' ∧ ∀ i < num, MapsTo s' pdir (pageOf vstart i) (pageOf pstart i) := by
  induction num generalizing s' with
  | zero =>
    cases h
    exact ⟨hwf, Grows.refl _, fun i hi => absurd hi (Nat.not_lt_zero i)⟩
  | succ n ih =>
    simp only [mapPages, List.range_succ, List.foldlM_append, List.foldlM_cons, List.foldlM_nil] at h
    obtain ⟨s₁, h₁, h₂⟩ := Option.bind_eq_some_iff.mp h
    obtain ⟨s₂, h₂, h₃⟩ := Option.bind_eq_some_iff.mp h₂
    cases h₃
    obtain ⟨hwf₁, hg, hmap⟩ := ih h₁
    have hg₁ := doMap_grows hf h₂
    obtain ⟨hwf₂, hlast⟩ := doMap_maps hwf₁ hf hlt (w32_lt _) (w32_lt _) h₂
    refine ⟨hwf₂, hg.trans hg₁, fun i hi => ?_⟩
    rcases Nat.lt_succ_iff_lt_or_eq.mp hi with hi | rfl
    · exact (hmap i hi).grows hg₁
    · exact hlast

end Kos
