import Mathlib.Order.Bounds.Basic
import Kos.Theorems.FindRange

/-!
# A free page

`vm_find_addr` and `vm_find_range` for one page are two searches that were written separately. Both find the first free page of the
tables one after the other (`firstFree`), and so they find the same.
-/

namespace Kos

namespace FindAddrAux

open FindRangeAux

variable {s : Vm} {pdir : Nat}

/-- The address of the first free page among these, or 0. -/
def firstFree (s : Vm) (pdir : Nat) (pages : List Nat) : Nat :=
  match pages.find? (pageFree s pdir) with
  | some page => 4096 * page
  | none => 0

theorem createAddr_page {d j : Nat} (hd : d < 1024) (hj : j < 1024) : createAddr d j 0 = 4096 * (1024 * d + j) := by
  rw [createAddr, pageSize, w32_of_lt (by omega)]
  omega

theorem safePti_le (d : Nat) : safePti d ≤ 1 := by
  unfold safePti
  split <;> omega

/-- All pages of a table that is absent are free. -/
theorem find_absent {d : Nat} (h : present (s.tabs pdir d) = false) :
    (tablePages d).find? (pageFree s pdir) = some (1024 * d + safePti d) := by
  have hsafe := safePti_le d
  obtain ⟨n, hn⟩ : ∃ n, 1024 - safePti d = n + 1 := ⟨1023 - safePti d, by omega⟩
  rw [tablePages, hn, List.range'_succ, List.find?_cons_of_pos]
  exact pageFree_of_absent (by omega) h

/-- In a table that is present the free pages are those whose entries are not. -/
theorem find_table {d : Nat} (h : present (s.tabs pdir d) = true) :
    (tablePages d).find? (pageFree s pdir) =
      ((List.range' (safePti d) (1024 - safePti d)).find?
        (fun j => bnotset (s.tabs (getaddr (s.tabs pdir d)) j) pePresent)).map (1024 * d + ·) := by
  have hsafe := safePti_le d
  rw [tablePages, ← List.map_add_range', List.find?_map, ← List.head?_filter, ← List.head?_filter]
  congr 2
  refine List.filter_congr fun j hj => ?_
  rw [List.mem_range'_1] at hj
  exact pageFree_of_table (by omega) h

theorem firstFree_append_of_none {xs ys : List Nat} (h : xs.find? (pageFree s pdir) = none) :
    firstFree s pdir (xs ++ ys) = firstFree s pdir ys := by
  rw [firstFree, List.find?_append, h]
  rfl

theorem firstFree_append_of_some {xs ys : List Nat} {page : Nat} (h : xs.find? (pageFree s pdir) = some page) :
    firstFree s pdir (xs ++ ys) = 4096 * page := by
  rw [firstFree, List.find?_append, h]
  rfl

/-! ## The two searches -/

theorem findAddrFrom_eq (ds : List Nat) (hds : ∀ d ∈ ds, d < 1024) :
    findAddrFrom s pdir ds = firstFree s pdir (ds.flatMap tablePages) := by
  induction ds with
  | nil => rfl
  | cons d ds ih =>
    have hd := hds d (List.mem_cons_self ..)
    have hsafe := safePti_le d
    specialize ih fun i hi => hds i (List.mem_cons_of_mem d hi)
    rw [List.flatMap_cons]
    cases hp : present (s.tabs pdir d) with
    | false =>
      have hpde : bnotset (s.tabs pdir d) pePresent = true := by rw [bnotset_eq]; simpa using hp
      rw [firstFree_append_of_some (find_absent hp), ← createAddr_page hd (by omega)]
      simp only [findAddrFrom, hpde, if_true]
    | true =>
      have hpde : bnotset (s.tabs pdir d) pePresent = false := by rw [bnotset_eq]; simpa using hp
      have htable := find_table hp
      simp only [findAddrFrom, hpde, Bool.false_eq_true, if_false]
      cases hfind : (List.range' (safePti d) (1024 - safePti d)).find?
          (fun j => bnotset (s.tabs (getaddr (s.tabs pdir d)) j) pePresent) with
      | none =>
        rw [hfind] at htable
        rw [firstFree_append_of_none htable]
        exact ih
      | some j =>
        rw [hfind] at htable
        have hj := List.mem_of_find?_eq_some hfind
        rw [List.mem_range'_1] at hj
        rw [firstFree_append_of_some htable]
        exact createAddr_page hd (by omega)

/-- For one page the scan of a table stops at the first entry that is not present, and counts nothing before. -/
theorem scanTable_one (tab : Nat → Entry) (js : List Nat) (r : RangeScan) (hr : r.count = 0) :
    scanTable tab 1 js r =
      match js.find? (fun j => bnotset (tab j) pePresent) with
      | some j => { r with ptstart := j, count := 1 }
      | none => r := by
  induction js with
  | nil => rfl
  | cons j js ih =>
    cases hj : bnotset (tab j) pePresent with
    | true => simp [scanTable, hj, hr]
    | false =>
      have hsame : ({ r with count := 0 } : RangeScan) = r := by rw [← hr]
      simp only [scanTable, hj, Bool.false_eq_true, if_false, hsame, ih, List.find?_cons]

theorem findRangeFrom_one_eq (ds : List Nat) (hds : ∀ d ∈ ds, d < 1024) (r : RangeScan) (hr : r.count = 0) :
    findRangeFrom s pdir 1 ds r = firstFree s pdir (ds.flatMap tablePages) := by
  induction ds generalizing r with
  | nil => rfl
  | cons d ds ih =>
    have hd := hds d (List.mem_cons_self ..)
    have hsafe := safePti_le d
    have hpde : bisset (s.tabs pdir d) pePresent = present (s.tabs pdir d) := rfl
    specialize ih fun i hi => hds i (List.mem_cons_of_mem d hi)
    rw [List.flatMap_cons, findRangeFrom_cons]
    cases hp : present (s.tabs pdir d) with
    | false =>
      have hscan : scanDir s pdir 1 d r = ⟨1024 - safePti d, d, safePti d⟩ := by simp [scanDir, hpde, hp, hr]
      rw [firstFree_append_of_some (find_absent hp), ← createAddr_page hd (by omega), hscan, if_pos (show 1024 - safePti d ≥ 1 by omega)]
    | true =>
      have htable := find_table hp
      have hscan : scanDir s pdir 1 d r = scanTable (s.tabs (getaddr (s.tabs pdir d))) 1
          (List.range' (safePti d) (1024 - safePti d)) { r with pdstart := d } := by simp [scanDir, hpde, hp, hr]
      rw [hscan, scanTable_one _ _ { r with pdstart := d } hr]
      cases hfind : (List.range' (safePti d) (1024 - safePti d)).find?
          (fun j => bnotset (s.tabs (getaddr (s.tabs pdir d)) j) pePresent) with
      | none =>
        rw [hfind] at htable
        rw [firstFree_append_of_none htable, if_neg (by simp only [hr]; omega)]
        exact ih _ hr
      | some j =>
        rw [hfind] at htable
        have hj := List.mem_of_find?_eq_some hfind
        rw [List.mem_range'_1] at hj
        rw [firstFree_append_of_some htable, if_pos (Nat.le_refl 1)]
        exact createAddr_page hd (show j < 1024 by omega)

/-! ## All tables -/

theorem flatMap_tablePages (d : Nat) : (List.range d).flatMap tablePages = List.range' 1 (1024 * d - 1) := by
  induction d with
  | zero => rfl
  | succ d ih => rw [List.range_succ, List.flatMap_append, ih, pages_succ, List.flatMap_singleton]

theorem vmFindAddr_eq (s : Vm) (pdir : Nat) : vmFindAddr s pdir = firstFree s pdir (List.range' 1 1048575) := by
  rw [vmFindAddr, findAddrFrom_eq _ fun d hd => List.mem_range.mp hd, flatMap_tablePages]

theorem vmFindRange_one_eq (s : Vm) (pdir : Nat) : vmFindRange s pdir 1 = firstFree s pdir (List.range' 1 1048575) := by
  rw [vmFindRange, findRangeFrom_one_eq _ (fun d hd => List.mem_range.mp hd) _ rfl, flatMap_tablePages]

end FindAddrAux

open FindAddrAux

/-- The page-aligned addresses above page 0 whose pages are not present. -/
def freeAddrs (s : Vm) (pdir : Nat) : Set Nat :=
  { a | a % 4096 = 0 ∧ 4096 ≤ a ∧ a < 4294967296 ∧ present (getPtabEntry s pdir a) = false }

theorem mem_freeAddrs {s : Vm} {pdir a : Nat} :
    a ∈ freeAddrs s pdir ↔ ∃ page, 1 ≤ page ∧ page < 1048576 ∧ pageFree s pdir page = true ∧ a = 4096 * page := by
  constructor
  · rintro ⟨hmod, hpos, hlt, hfree⟩
    have ha : a = 4096 * (a / 4096) := by omega
    rw [ha, FindRangeAux.present_getPtabEntry] at hfree
    exact ⟨a / 4096, by omega, by omega, by simpa using hfree, ha⟩
  · rintro ⟨page, hpos, hlt, hfree, rfl⟩
    refine ⟨by omega, by omega, by omega, ?_⟩
    rw [FindRangeAux.present_getPtabEntry, hfree]
    rfl

/-- For every page directory: `vm_find_addr` and `vm_find_range` for one page return the same address, which is the lowest page-aligned
one above page 0 whose page is not present, or 0 if every such page is present. -/
theorem vmFindAddr_lowest (s : Vm) (pdir : Nat) :
    vmFindAddr s pdir = vmFindRange s pdir 1 ∧
      (IsLeast (freeAddrs s pdir) (vmFindAddr s pdir) ∨ freeAddrs s pdir = ∅ ∧ vmFindAddr s pdir = 0) := by
  refine ⟨(vmFindAddr_eq s pdir).trans (vmFindRange_one_eq s pdir).symm, ?_⟩
  rw [vmFindAddr_eq, firstFree]
  cases hfind : (List.range' 1 1048575).find? (pageFree s pdir) with
  | some page =>
    rw [List.find?_range'_eq_some, List.mem_range'_1] at hfind
    obtain ⟨hfree, hpage, hfirst⟩ := hfind
    refine .inl ⟨mem_freeAddrs.mpr ⟨page, hpage.1, by omega, hfree, rfl⟩, fun a ha => ?_⟩
    obtain ⟨page', hpos, -, hfree', rfl⟩ := mem_freeAddrs.mp ha
    show 4096 * page ≤ 4096 * page'
    by_contra hlt
    have hused := hfirst page' hpos (by omega)
    rw [hfree'] at hused
    exact absurd hused (by decide)
  | none =>
    rw [List.find?_range'_eq_none] at hfind
    refine .inr ⟨Set.eq_empty_of_forall_notMem fun a ha => ?_, rfl⟩
    obtain ⟨page, hpos, hlt, hfree, -⟩ := mem_freeAddrs.mp ha
    have hused := hfind page hpos (by omega)
    rw [hfree] at hused
    exact absurd hused (by decide)

end Kos
