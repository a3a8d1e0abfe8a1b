import Kos.Lemmas.Alloc

/-!
# Ranges at given addresses

`mm_alloc_phys_range` takes all pages of a range or none of them, and `mm_free_phys_range` undoes it, bit by bit
(`mmAllocPhysRange_spec`). `mm_alloc_dma` takes 65536 pages instead of 65536 bytes, so it does what it should only when there is nothing
to be had (`mmAllocDma_iff`).
-/

namespace Kos

namespace PhysRangeAux

/-- A map is what it says about each page. -/
theorem mmap_ext {m m' : Mmap} (h : ∀ a, isFree m a = isFree m' a) : m = m' := by
  funext i
  apply BitVec.eq_of_getLsbD_eq
  intro j hj
  have hbit := h ((32 * i + j) * 4096)
  rw [isFree_eq_freePage, isFree_eq_freePage, Nat.mul_div_cancel _ (by decide), freePage, freePage] at hbit
  rwa [show (32 * i + j) / 32 = i by omega, show (32 * i + j) % 32 = j by omega] at hbit

/-- Pages that were all free are free again after they have been marked used and free. -/
theorem markRangeFree_markRangeUsed {m : Mmap} {start num : Nat} (h : ∀ i < num, isFree m (pageOf start i) = true) :
    markRangeFree (markRangeUsed m start num) start num = m := by
  apply mmap_ext
  intro a
  rw [isFree_markRangeFree, isFree_markRangeUsed]
  by_cases hin : InRange start num a
  · obtain ⟨i, hi, hpage⟩ := hin
    have hfree := h i hi
    rw [isFree_congr m hpage] at hfree
    simp [hfree]
  · simp [hin]

/-- The pages of a range that does not wrap. -/
theorem inRange_iff {start num a : Nat} (h : start + num * 4096 ≤ 4294967296) :
    InRange start num a ↔ start / 4096 ≤ a / 4096 ∧ a / 4096 < start / 4096 + num := by
  constructor
  · rintro ⟨i, hi, hpage⟩
    simp only [pageOf, pageSize] at hpage
    rw [w32_of_lt (by omega)] at hpage
    omega
  · rintro ⟨hlo, hhi⟩
    refine ⟨a / 4096 - start / 4096, by omega, ?_⟩
    simp only [pageOf, pageSize]
    rw [w32_of_lt (by omega)]
    omega

end PhysRangeAux

open PhysRangeAux

/-! ## A range of physical memory -/

/-- The range cannot be had: it is not one of pages, or one of its pages is not free. -/
def Unavailable (m : Mmap) (start num : Nat) : Prop :=
  start % 4096 ≠ 0 ∨ num = 0 ∨ ∃ i < num, isFree m (start + i * 4096) = false

instance (m : Mmap) (start num : Nat) : Decidable (Unavailable m start num) := inferInstanceAs (Decidable (_ ∨ _))

namespace PhysRangeAux

variable {s : Mm} {start num : Nat}

theorem pageOf_inside {i : Nat} (h : start + num * 4096 ≤ 4294967296) (hi : i < num) : pageOf start i = start + i * 4096 :=
  w32_of_lt (by simp only [pageSize]; omega)

theorem mmAllocPhysRange_unavailable (h : start + num * 4096 ≤ 4294967296) (hno : Unavailable s.mmap start num) :
    ∃ e, mmAllocPhysRange s start num = (false, s.seterr e) := by
  rcases mmAllocPhysRange_cases s start num with hfail | ⟨hal, hnum, hfree, -⟩
  · exact hfail
  · rcases hno with hmis | hzero | ⟨i, hi, hused⟩
    · exact absurd hal hmis
    · omega
    · rw [← pageOf_inside h hi, hfree i hi] at hused
      cases hused

theorem mmAllocPhysRange_available (h : start + num * 4096 ≤ 4294967296) (hav : ¬Unavailable s.mmap start num) :
    (∀ i < num, isFree s.mmap (pageOf start i) = true) ∧ isPageAligned start = true ∧ num ≠ 0 ∧
      mmAllocPhysRange s start num = (true, s.markRangeUsed start num) := by
  unfold Unavailable at hav
  push Not at hav
  obtain ⟨hal, hnum, hfree⟩ := hav
  have hal := (isPageAligned_iff start).mpr hal
  have hfree : ∀ i < num, isFree s.mmap (pageOf start i) = true := by
    intro i hi
    rw [pageOf_inside h hi]
    simpa using hfree i hi
  refine ⟨hfree, hal, hnum, ?_⟩
  simp [mmAllocPhysRange, hal, hnum, (isRangeFree_iff s.mmap start num).mpr hfree]

end PhysRangeAux

/-- For every map and every range inside the address space: the range is taken as a whole or the map stays as it is, and freeing the
range gives back the map. -/
theorem mmAllocPhysRange_spec (s : Mm) (start num : Nat) (h : start + num * 4096 ≤ 4294967296) :
    (Unavailable s.mmap start num → (mmAllocPhysRange s start num).1 = false ∧ (mmAllocPhysRange s start num).2.mmap = s.mmap) ∧
      (¬Unavailable s.mmap start num → (mmAllocPhysRange s start num).1 = true ∧
        (∀ p, freePage (mmAllocPhysRange s start num).2.mmap p =
          (freePage s.mmap p && !decide (start / 4096 ≤ p ∧ p < start / 4096 + num))) ∧
        (mmFreePhysRange (mmAllocPhysRange s start num).2 start num).mmap = s.mmap) := by
  refine ⟨fun hno => ?_, fun hav => ?_⟩
  · obtain ⟨e, hfail⟩ := mmAllocPhysRange_unavailable h hno
    rw [hfail]
    exact ⟨rfl, rfl⟩
  · obtain ⟨hfree, hal, hnum, htake⟩ := mmAllocPhysRange_available h hav
    rw [htake]
    refine ⟨rfl, fun p => ?_, ?_⟩
    · have hpage := isFree_markRangeUsed s.mmap start num (p * 4096)
      rw [isFree_eq_freePage, isFree_eq_freePage, Nat.mul_div_cancel _ (by decide)] at hpage
      simp only [Mm.markRangeUsed, hpage, inRange_iff h, Nat.mul_div_cancel p (by decide : 0 < 4096)]
    · simp only [mmFreePhysRange, hal, hnum, Bool.not_true, Bool.false_eq_true, if_false, Mm.markRangeUsed, Mm.markRangeFree]
      exact markRangeFree_markRangeUsed hfree

/-- The map in which the pages 40 to 63 are free. -/
def halfWord : Mm := ⟨fun i => if i = 1 then 0xFFFFFF00#32 else 0#32, 0x100000, .ok, by decide⟩

/-- Four pages in the middle are taken and given back. -/
theorem halfWord_taken : ¬Unavailable halfWord.mmap (50 * 4096) 4 ∧
    freePage (mmAllocPhysRange halfWord (50 * 4096) 4).2.mmap 53 = false ∧
    (mmFreePhysRange (mmAllocPhysRange halfWord (50 * 4096) 4).2 (50 * 4096) 4).mmap = halfWord.mmap := by
  have hav : ¬Unavailable halfWord.mmap (50 * 4096) 4 := by decide
  obtain ⟨-, hbits, hback⟩ := (mmAllocPhysRange_spec halfWord (50 * 4096) 4 (by decide)).2 hav
  exact ⟨hav, by rw [hbits]; decide, hback⟩

/-! ## The DMA areas -/

/-- The pages of a DMA area are all free. -/
def AreaFree (m : Mmap) (start : Nat) : Prop := ∀ i < 16, isFree m (start + i * 4096) = true

instance (m : Mmap) (start : Nat) : Decidable (AreaFree m start) := inferInstanceAs (Decidable (∀ i < 16, _))

/-- `mm_alloc_dma` takes the 64 KiB of an area that is free, fails only if there is none, and `mm_free_dma` undoes it. -/
structure DmaOk (s : Mm) : Prop where
  area : (mmAllocDma s).1 ≠ noPage → (mmAllocDma s).1 ∈ dmaAddrs ∧ AreaFree s.mmap (mmAllocDma s).1
  taken : (mmAllocDma s).1 ≠ noPage → ∀ p, freePage (mmAllocDma s).2.mmap p =
    (freePage s.mmap p && !decide ((mmAllocDma s).1 / 4096 ≤ p ∧ p < (mmAllocDma s).1 / 4096 + 16))
  complete : (mmAllocDma s).1 = noPage → ∀ start ∈ dmaAddrs, ¬AreaFree s.mmap start
  restores : (mmFreeDma (mmAllocDma s).2 (mmAllocDma s).1).mmap = s.mmap

namespace PhysRangeAux

variable {s : Mm} {start : Nat}

theorem dmaAddrs_bounds (h : start ∈ dmaAddrs) : start % 4096 = 0 ∧ 0x10000 ≤ start ∧ start ≤ 0x80000 := by
  revert start
  decide

theorem mmAllocDma_cases (s : Mm) :
    (mmAllocDma s = (noPage, s.seterr .noMem) ∧ ∀ start ∈ dmaAddrs, ∃ i < 65536, isFree s.mmap (start + i * 4096) = false) ∨
      ∃ start ∈ dmaAddrs, (∀ i < 65536, isFree s.mmap (start + i * 4096) = true) ∧
        mmAllocDma s = (start, s.markRangeUsed start dmaRangeLength) := by
  have hpage : ∀ start ∈ dmaAddrs, ∀ i < 65536, pageOf start i = start + i * 4096 := by
    intro start hstart i hi
    have hb := dmaAddrs_bounds hstart
    have hfits : start + 65536 * 4096 ≤ 4294967296 := by omega
    exact pageOf_inside hfits hi
  unfold mmAllocDma
  cases hfind : dmaAddrs.find? (isRangeFree s.mmap · dmaRangeLength) with
  | none =>
    refine .inl ⟨rfl, fun start hstart => ?_⟩
    have hno := List.find?_eq_none.mp hfind start hstart
    rw [isRangeFree_iff] at hno
    push Not at hno
    obtain ⟨i, hi, hused⟩ := hno
    rw [hpage start hstart i hi] at hused
    exact ⟨i, hi, by simpa using hused⟩
  | some start =>
    have hstart := List.mem_of_find?_eq_some hfind
    have hfree := List.find?_some hfind
    rw [isRangeFree_iff] at hfree
    refine .inr ⟨start, hstart, fun i hi => ?_, rfl⟩
    rw [← hpage start hstart i hi]
    exact hfree i hi

/-- When `mm_alloc_dma` succeeds, it takes page 16 of the area's 65536 pages, too. -/
theorem dma_takes_more (hstart : start ∈ dmaAddrs) (hfree : ∀ i < 65536, isFree s.mmap (start + i * 4096) = true)
    (htake : mmAllocDma s = (start, s.markRangeUsed start dmaRangeLength)) : ¬DmaOk s := by
  intro hok
  obtain ⟨hal, hlo, hhi⟩ := dmaAddrs_bounds hstart
  have hne : start ≠ noPage := by simp only [noPage]; omega
  have hpage := hok.taken (by rw [htake]; exact hne) (start / 4096 + 16)
  rw [htake] at hpage
  have hbefore := hfree 16 (by decide)
  rw [isFree_eq_freePage, show (start + 16 * 4096) / 4096 = start / 4096 + 16 by omega] at hbefore
  have hafter := isFree_markRangeUsed s.mmap start 65536 ((start / 4096 + 16) * 4096)
  rw [isFree_eq_freePage, Nat.mul_div_cancel _ (by decide)] at hafter
  have hin : InRange start 65536 ((start / 4096 + 16) * 4096) := by
    rw [inRange_iff (by omega)]
    omega
  simp only [Mm.markRangeUsed, hafter, hin, hbefore, decide_true, Bool.not_true, Bool.and_false, Bool.true_and] at hpage
  simp at hpage

end PhysRangeAux

/-- For every map: `mm_alloc_dma` does what it should exactly when no DMA area is free. -/
theorem mmAllocDma_iff (s : Mm) : DmaOk s ↔ ∀ start ∈ dmaAddrs, ¬AreaFree s.mmap start := by
  rcases mmAllocDma_cases s with ⟨hfail, hused⟩ | ⟨start, hstart, hfree, htake⟩
  · constructor
    · intro hok
      exact hok.complete (by rw [hfail])
    · intro hnone
      refine ⟨?_, ?_, fun _ => hnone, ?_⟩
      · intro hne
        rw [hfail] at hne
        exact absurd rfl hne
      · intro hne
        rw [hfail] at hne
        exact absurd rfl hne
      · rw [hfail]
        rfl
  · refine iff_of_false (dma_takes_more hstart hfree htake) fun hnone => ?_
    exact hnone start hstart fun i hi => hfree i (by omega)

/-- The map in which just the DMA areas are free. -/
def dmaOnly : Mm :=
  ⟨fun i => if i = 0 then 0xFFFF0000#32 else if i < 4 then 0xFFFFFFFF#32 else if i = 4 then 0xFFFF#32 else 0#32, 0xA0000, .ok,
    by decide⟩

/-- All areas are free, and none is found. -/
theorem dmaOnly_not_found : (∀ start ∈ dmaAddrs, AreaFree dmaOnly.mmap start) ∧ (mmAllocDma dmaOnly).1 = noPage ∧
    (mmAllocDma dmaOnly).2.lastError = .noMem ∧ ¬DmaOk dmaOnly := by
  have hareas : ∀ start ∈ dmaAddrs, AreaFree dmaOnly.mmap start := by decide +kernel
  have hfail : mmAllocDma dmaOnly = (noPage, dmaOnly.seterr .noMem) := by
    rcases mmAllocDma_cases dmaOnly with ⟨hfail, -⟩ | ⟨start, hstart, hfree, -⟩
    · exact hfail
    · -- page 256 is among the 65536 pages of every area
      obtain ⟨hal, hlo, hhi⟩ := dmaAddrs_bounds hstart
      have hpage := hfree (256 - start / 4096) (by omega)
      rw [show start + (256 - start / 4096) * 4096 = 256 * 4096 by omega] at hpage
      exact absurd hpage (by decide)
  refine ⟨hareas, by rw [hfail], by rw [hfail]; rfl, fun hok => ?_⟩
  exact hok.complete (by rw [hfail]) 0x10000 (by decide) (hareas 0x10000 (by decide))

end Kos
