import Kos.Lemmas.Find

/-!
# What the allocating functions do

Each of the three either fails, with only `last_error` changed, or grants a range and marks it used. `mmAllocPage_spec` is what the
other modules need of `mm_alloc_page`: the page was free, and it is the only page whose state changes.
-/

namespace Kos

theorem mmAllocPage_cases (s : Mm) :
    (mmAllocPage s = (noPage, s.seterr .noMem)) ∨
      ∃ page, find s.mmap 1 dmaEnd s.memEnd = page ∧ page ≠ noPage ∧ mmAllocPage s = (page, s.markUsed page) := by
  by_cases hp : find s.mmap 1 dmaEnd s.memEnd = noPage
  · exact .inl (by simp [mmAllocPage, hp])
  · exact .inr ⟨_, rfl, hp, by simp [mmAllocPage, hp]⟩

theorem mmAllocRange_cases (s : Mm) (num : Nat) :
    (∃ e, mmAllocRange s num = (noPage, s.seterr e)) ∨
      ∃ start, find s.mmap num dmaEnd s.memEnd = start ∧ start ≠ noPage ∧ 1 ≤ num ∧
        mmAllocRange s num = (start, s.markRangeUsed start num) := by
  by_cases h0 : num = 0
  · exact .inl ⟨.invalid, by simp [mmAllocRange, h0]⟩
  by_cases hp : find s.mmap num dmaEnd s.memEnd = noPage
  · exact .inl ⟨.noMem, by simp [mmAllocRange, h0, hp]⟩
  · exact .inr ⟨_, rfl, hp, Nat.one_le_iff_ne_zero.mpr h0, by simp [mmAllocRange, h0, hp]⟩

theorem mmAllocPhysRange_cases (s : Mm) (start num : Nat) :
    (∃ e, mmAllocPhysRange s start num = (false, s.seterr e)) ∨
      start % 4096 = 0 ∧ 1 ≤ num ∧ (∀ i < num, isFree s.mmap (pageOf start i) = true) ∧
        mmAllocPhysRange s start num = (true, s.markRangeUsed start num) := by
  by_cases ha : isPageAligned start = true
  · by_cases h0 : num = 0
    · exact .inl ⟨.invalid, by simp [mmAllocPhysRange, ha, h0]⟩
    by_cases hf : isRangeFree s.mmap start num = true
    · exact .inr ⟨(isPageAligned_iff start).mp ha, Nat.one_le_iff_ne_zero.mpr h0, (isRangeFree_iff _ _ _).mp hf,
        by simp [mmAllocPhysRange, ha, h0, hf]⟩
    · exact .inl ⟨.noMem, by simp [mmAllocPhysRange, ha, h0, hf]⟩
  · exact .inl ⟨.align, by simp [mmAllocPhysRange, ha]⟩

/-- A page that `mm_alloc_page` returns is a free page, and afterwards it is used; no other page changes. -/
theorem mmAllocPage_spec {s s' : Mm} {page : Nat} (h : mmAllocPage s = (page, s')) (hne : page ≠ noPage) :
    page % 4096 = 0 ∧ page < 4294967296 ∧ isFree s.mmap page = true ∧
      ∀ a, isFree s'.mmap a = (isFree s.mmap a && !decide (a / 4096 = page / 4096)) := by
  rcases mmAllocPage_cases s with he | ⟨p, hf, hp, he⟩
  · rw [he] at h
    cases h
    exact absurd rfl hne
  · rw [he] at h
    cases h
    have hfree := find_free_of_not_glues (Nat.le_refl 1) (by decide) s.memEnd_lt not_glues_one (hf ▸ hne) 0 Nat.one_pos
    obtain ⟨ha, hlt⟩ := find_aligned (Nat.le_refl 1) (by decide) s.memEnd_lt (hf ▸ hne)
    rw [hf] at ha hlt hfree
    refine ⟨ha, hlt, ?_, fun a => ?_⟩
    · rwa [pageOf, Nat.zero_mul, Nat.add_zero, w32_of_lt hlt] at hfree
    · simp only [Mm.markUsed, isFree_markUsed, eq_comm]

/-- The first page of the memory is not given away, when the page map has more than one word. -/
theorem mmAllocPage_pos {s s' : Mm} {page : Nat} (h : mmAllocPage s = (page, s')) (hne : page ≠ noPage) (hm : 131072 ≤ s.memEnd) :
    0 < page := by
  rcases mmAllocPage_cases s with he | ⟨p, hf, hp, he⟩
  · rw [he] at h
    cases h
    exact absurd rfl hne
  · rw [he] at h
    cases h
    have hge := find_one_ge (m := s.mmap) (by decide) s.memEnd_lt (hf ▸ hne)
    rw [hf] at hge
    simp only [dmaEnd, dmaRangeLength, addrToIdx, pageSize] at hge
    omega

theorem mmAllocPage_memEnd (s : Mm) : (mmAllocPage s).2.memEnd = s.memEnd := by
  rcases mmAllocPage_cases s with he | ⟨p, -, -, he⟩ <;> rw [he] <;> rfl

end Kos
