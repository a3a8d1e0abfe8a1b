import Kos.Lemmas.FindRange

/-!
# Free pages for a range

`vm_find_range` sets `pdstart` only when it enters an entry of the page directory with a count of 0. When a free range that comes from
the table before ends in a table, and the range that is found begins there, the address returned is made of its index and of an earlier
table. What is returned is free exactly when this does not happen (`vmFindRange_free_iff`).
-/

namespace Kos

/-- The pages from `a` on are not present. -/
def RangeFree (s : Vm) (pdir a num : Nat) : Prop := ∀ i < num, present (getPtabEntry s pdir (pageOf a i)) = false

/-- The lowest range of `num` free pages, from page 1 on, begins in a page table, not the first, that comes after a free page. -/
def RunRestarts (s : Vm) (pdir num : Nat) : Prop :=
  ∃ b, FirstRun (pageFree s pdir) num b ∧ 0 < b / 1024 ∧ pageFree s pdir (1024 * (b / 1024) - 1) = true

namespace FindRangeAux

variable {s : Vm} {pdir num : Nat}

theorem present_getPtabEntry (s : Vm) (pdir page : Nat) :
    present (getPtabEntry s pdir (4096 * page)) = !pageFree s pdir page := by
  rw [PageMapAux.getPtabEntry_eq, show 4096 * page / 4096 = page by omega, pageFree]
  cases he : pageEntry s pdir page with
  | none => rfl
  | some pte => simpa using PageMapAux.present_of_pageEntry he

/-- A range of addresses is free when its page numbers are. -/
theorem rangeFree_iff {b : Nat} (h : b + num ≤ 1048576) : RangeFree s pdir (4096 * b) num ↔ FreeRun (pageFree s pdir) b num := by
  refine forall₂_congr fun i hi => ?_
  have hpage : pageOf (4096 * b) i = 4096 * (b + i) := by
    simp only [pageOf, pageSize]
    rw [w32_of_lt (by omega)]
    omega
  rw [hpage, present_getPtabEntry]
  cases pageFree s pdir (b + i) <;> decide

/-- Whether it happens can be seen at the range that is found. -/
theorem runRestarts_iff {b : Nat} (hb : FirstRun (pageFree s pdir) num b) :
    RunRestarts s pdir num ↔ startTable (pageFree s pdir) (b / 1024) ≠ b / 1024 := by
  rw [ne_eq, startTable_eq_iff, not_not]
  constructor
  · rintro ⟨c, hc, h⟩
    rwa [hc.unique hb] at h
  · intro h
    exact ⟨b, hb, h⟩

/-- If it does not, the address returned is that of the range. -/
theorem vmFindRange_eq (hnum : 1 ≤ num) (hne : vmFindRange s pdir num ≠ 0) (hr : ¬RunRestarts s pdir num) :
    ∃ b, FirstRun (pageFree s pdir) num b ∧ vmFindRange s pdir num = 4096 * b := by
  obtain ⟨b, hb, heq⟩ := vmFindRange_spec hnum hne
  rw [runRestarts_iff hb, ne_eq, not_not] at hr
  refine ⟨b, hb, heq.trans ?_⟩
  rw [hr]
  omega

end FindRangeAux

open FindRangeAux

/-- For every page directory and every number of pages: the address that `vm_find_range` returns is page aligned, not in page 0, and
the start of as many pages that are not present, if and only if the first range of free pages does not begin in a table that comes after
a free page. -/
theorem vmFindRange_free_iff (s : Vm) (pdir num : Nat) (hnum : 1 ≤ num) (hne : vmFindRange s pdir num ≠ 0) :
    (vmFindRange s pdir num % 4096 = 0 ∧ 4096 ≤ vmFindRange s pdir num ∧ RangeFree s pdir (vmFindRange s pdir num) num) ↔
      ¬RunRestarts s pdir num := by
  constructor
  · -- an earlier address would be that of an earlier range of free pages
    rintro ⟨-, hpos, hfree⟩ hrestarts
    obtain ⟨b, hb, heq⟩ := vmFindRange_spec hnum hne
    have hstart := startTable_le (pageFree s pdir) (b / 1024)
    have hle := hb.le
    have hearlier := (runRestarts_iff hb).mp hrestarts
    rw [heq, rangeFree_iff (by omega)] at hfree
    exact hb.first _ (by omega) (by omega) hfree
  · intro hr
    obtain ⟨b, hb, heq⟩ := vmFindRange_eq hnum hne hr
    have hpos := hb.pos
    rw [heq]
    exact ⟨by omega, by omega, (rangeFree_iff hb.le).mpr hb.run⟩

/-- A page directory with two tables. In the first only its last page is free, and in the second all pages, or all but the first. -/
def twoTables (used : Bool) : Vm where
  mm := { mmap := fun _ => 0#32, memEnd := 0x240000, lastError := .ok, memEnd_lt := by decide }
  tabs frame i :=
    if frame = 0x1000 ∧ i = 0 then mkEntry 0x2000 vmCommonFlags
    else if frame = 0x1000 ∧ i = 1 then mkEntry 0x3000 vmCommonFlags
    else if frame = 0x2000 ∧ i < 1023 then mkEntry (4096 * i) vmCommonFlags
    else if frame = 0x3000 ∧ i = 0 ∧ used = true then mkEntry 0x400000 vmCommonFlags
    else 0#32
  kernelPdir := 0x1000
  kpdirRev := 0

/-- Two free pages are found at the border of the two tables. -/
theorem vmFindRange_across_tables : vmFindRange (twoTables false) 0x1000 2 = 0x3FF000 ∧
    RangeFree (twoTables false) 0x1000 0x3FF000 2 := by
  have hfind : vmFindRange (twoTables false) 0x1000 2 = 0x3FF000 := by decide +kernel
  have hfirst : FirstRun (pageFree (twoTables false) 0x1000) 2 1023 :=
    ⟨by decide, by decide, by decide +kernel, by decide +kernel⟩
  have hrestarts : ¬RunRestarts (twoTables false) 0x1000 2 := by
    rintro ⟨b, hb, hpos, -⟩
    rw [hb.unique hfirst] at hpos
    exact absurd hpos (by decide)
  have hfree := ((vmFindRange_free_iff (twoTables false) 0x1000 2 (by decide) (by rw [hfind]; decide)).mpr hrestarts).2.2
  rw [hfind] at hfree
  exact ⟨hfind, hfree⟩

/-- With the first page of the second table in use, the free pages are found behind it, and the address returned is that of the second
page in the first table, which is mapped. -/
theorem vmFindRange_present : vmFindRange (twoTables true) 0x1000 2 = 0x1000 ∧
    present (getPtabEntry (twoTables true) 0x1000 0x1000) = true ∧ RangeFree (twoTables true) 0x1000 0x401000 2 := by
  refine ⟨by decide +kernel, by decide +kernel, ?_⟩
  rw [show 0x401000 = 4096 * 1025 from rfl, rangeFree_iff (by decide)]
  decide +kernel

end Kos
