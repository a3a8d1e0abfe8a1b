import Kos.Lib.Scan
import Kos.Lemmas.PageMap

/-!
# What `vm_find_range` scans

The loops of `vm_find_range` are one scan of the page numbers from 1 on (`findRangeFrom_spec`), and stop in the first range of free
pages. What they carry along as its beginning is the index of its first page in its table, and the index of a table: that of the last
table that was entered with no free page before it (`startTable`).
-/

namespace Kos

/-- The page is not present: its table is absent, or its entry is not present. -/
def pageFree (s : Vm) (pdir page : Nat) : Bool := (pageEntry s pdir page).isNone

/-- The index of a page in its table, which is what the scan notes of the first page of a range. -/
abbrev tableIdx (page : Nat) : Nat := page % 1024

/-- The last table up to `d` that is entered with no free page before it. -/
def startTable (free : Nat → Bool) : Nat → Nat
  | 0 => 0
  | d + 1 => if free (1024 * (d + 1) - 1) then startTable free d else d + 1

/-- The lowest range of `num` free pages, from page 1 on. -/
structure FirstRun (free : Nat → Bool) (num b : Nat) : Prop where
  pos : 1 ≤ b
  le : b + num ≤ 1048576
  run : FreeRun free b num
  first : ∀ c, 1 ≤ c → c < b → ¬FreeRun free c num

theorem FirstRun.unique {free : Nat → Bool} {num b b' : Nat} (h : FirstRun free num b) (h' : FirstRun free num b') : b = b' := by
  rcases Nat.lt_trichotomy b b' with hlt | heq | hlt
  · exact absurd h.run (h'.first b h.pos hlt)
  · exact heq
  · exact absurd h'.run (h.first b' h'.pos hlt)

theorem startTable_le (free : Nat → Bool) (d : Nat) : startTable free d ≤ d := by
  induction d with
  | zero => exact Nat.le_refl 0
  | succ d ih =>
    rw [startTable]
    split
    · omega
    · exact Nat.le_refl _

/-- The table is noted itself, if it is entered with no free page before it. -/
theorem startTable_eq_iff {free : Nat → Bool} {d : Nat} :
    startTable free d = d ↔ ¬(0 < d ∧ free (1024 * d - 1) = true) := by
  cases d with
  | zero => simp [startTable]
  | succ d =>
    rw [startTable]
    cases hfree : free (1024 * (d + 1) - 1) with
    | true =>
      have hle := startTable_le free d
      simp only [if_true, Nat.succ_pos, and_self, not_true_eq_false, iff_false]
      omega
    | false => simp

/-- Tables that are entered in a free range belong to the table where it was entered first. -/
theorem startTable_add {free : Nat → Bool} {d n : Nat} (h : ∀ k < n, free (1024 * (d + k + 1) - 1) = true) :
    startTable free (d + n) = startTable free d := by
  induction n with
  | zero => rfl
  | succ n ih =>
    rw [← Nat.add_assoc, startTable, if_pos (h n (Nat.lt_succ_self n))]
    exact ih fun k hk => h k (Nat.lt_succ_of_lt hk)

namespace FindRangeAux

variable {s : Vm} {pdir num : Nat}

theorem pageFree_of_absent {d j : Nat} (hj : j < 1024) (h : present (s.tabs pdir d) = false) : pageFree s pdir (1024 * d + j) = true := by
  have hd : (1024 * d + j) / 1024 = d := by omega
  rw [pageFree, PageMapAux.pageEntry_eq_none (by rw [hd]; exact h)]
  rfl

theorem pageFree_of_table {d j : Nat} (hj : j < 1024) (h : present (s.tabs pdir d) = true) :
    pageFree s pdir (1024 * d + j) = bnotset (s.tabs (getaddr (s.tabs pdir d)) j) pePresent := by
  have hd : (1024 * d + j) / 1024 = d := by omega
  have hm : (1024 * d + j) % 1024 = j := by omega
  simp only [pageFree, pageEntry, hd, hm, h, Bool.true_and, bnotset_eq]
  cases hp : present (s.tabs (getaddr (s.tabs pdir d)) j) with
  | true =>
    have hp' : bisset (s.tabs (getaddr (s.tabs pdir d)) j) pePresent = true := hp
    simp [hp']
  | false =>
    have hp' : bisset (s.tabs (getaddr (s.tabs pdir d)) j) pePresent = false := hp
    simp [hp']

/-! ## One table -/

/-- The pages of a table that are scanned. -/
def tablePages (d : Nat) : List Nat := List.range' (1024 * d + safePti d) (1024 - safePti d)

/-- What `vm_find_range` does with one entry of the page directory. -/
def scanDir (s : Vm) (pdir num d : Nat) (r : RangeScan) : RangeScan :=
  let r := { r with pdstart := if r.count = 0 then d else r.pdstart }
  let pde := s.tabs pdir d
  if bisset pde pePresent then scanTable (s.tabs (getaddr pde)) num (List.range' (safePti d) (1024 - safePti d)) r
  else { r with ptstart := if r.count = 0 then safePti d else r.ptstart, count := r.count + (1024 - safePti d) }

theorem findRangeFrom_cons (d : Nat) (rest : List Nat) (r : RangeScan) :
    findRangeFrom s pdir num (d :: rest) r =
      if (scanDir s pdir num d r).count ≥ num then createAddr (scanDir s pdir num d r).pdstart (scanDir s pdir num d r).ptstart 0
      else findRangeFrom s pdir num rest (scanDir s pdir num d r) := rfl

/-- The variables of `vm_find_range` where a scan of pages goes on or stops. -/
def Follows (num pdstart : Nat) : Except Nat Scan → RangeScan → Prop
  | .ok sc, r => r = ⟨sc.count, pdstart, sc.result⟩ ∧ sc.count < num
  | .error x, r => num ≤ r.count ∧ r.pdstart = pdstart ∧ r.ptstart = x

theorem scanTable_follows {free : Nat → Bool} {tab : Nat → Entry} {d : Nat} (js : List Nat) (r : RangeScan) (hlt : r.count < num)
    (hjs : ∀ j ∈ js, j < 1024 ∧ free (1024 * d + j) = bnotset (tab j) pePresent) :
    Follows num r.pdstart (Scan.pass free tableIdx num ⟨r.count, r.ptstart⟩ (js.map (1024 * d + ·))) (scanTable tab num js r) := by
  induction js generalizing r with
  | nil => exact ⟨rfl, hlt⟩
  | cons j js ih =>
    obtain ⟨hj, hfree⟩ := hjs j (List.mem_cons_self ..)
    have hrest := fun i hi => hjs i (List.mem_cons_of_mem j hi)
    have hidx : tableIdx (1024 * d + j) = j := by rw [tableIdx]; omega
    simp only [List.map_cons, Scan.pass, List.foldlM_cons, Scan.step, hfree, hidx, scanTable]
    cases bnotset (tab j) pePresent with
    | false =>
      simp only [Bool.false_eq_true, if_false]
      exact ih { r with count := 0 } (by simp only; omega) hrest
    | true =>
      simp only [if_true]
      by_cases hge : r.count + 1 ≥ num
      · simp only [hge, if_true]
        exact ⟨hge, rfl, rfl⟩
      · simp only [hge, if_false]
        exact ih ⟨r.count + 1, r.pdstart, if r.count = 0 then j else r.ptstart⟩ (Nat.lt_of_not_le hge) hrest

theorem scanDir_follows (s : Vm) (pdir d : Nat) (r : RangeScan) (hlt : r.count < num) :
    Follows num (if r.count = 0 then d else r.pdstart)
      (Scan.pass (pageFree s pdir) tableIdx num ⟨r.count, r.ptstart⟩ (tablePages d)) (scanDir s pdir num d r) := by
  have hsafe : safePti d ≤ 1 := by unfold safePti; split <;> omega
  have hpde : bisset (s.tabs pdir d) pePresent = present (s.tabs pdir d) := rfl
  simp only [scanDir, hpde]
  cases hp : present (s.tabs pdir d) with
  | true =>
    have hmap : tablePages d = (List.range' (safePti d) (1024 - safePti d)).map (1024 * d + ·) := by
      rw [List.map_add_range']
      rfl
    rw [hmap, if_pos rfl]
    refine scanTable_follows _ { r with pdstart := if r.count = 0 then d else r.pdstart } hlt ?_
    intro j hj
    rw [List.mem_range'_1] at hj
    exact ⟨by omega, pageFree_of_table (by omega) hp⟩
  | false =>
    simp only [Bool.false_eq_true, if_false]
    have hrun : FreeRun (pageFree s pdir) (1024 * d + safePti d) (1024 - safePti d) := by
      intro i hi
      rw [Nat.add_assoc]
      exact pageFree_of_absent (by omega) hp
    have hidx : tableIdx (1024 * d + safePti d) = safePti d := by rw [tableIdx]; omega
    by_cases hge : num ≤ r.count + (1024 - safePti d)
    · rw [tablePages, Scan.pass_free_error tableIdx hlt (show num - r.count ≤ 1024 - safePti d by omega)
        (hrun.mono (by simp only; omega)), hidx]
      exact ⟨hge, rfl, rfl⟩
    · rw [tablePages, Scan.pass_free_ok tableIdx hrun (show r.count + (1024 - safePti d) < num by omega), hidx]
      have hpos : 0 < 1024 - safePti d := by omega
      simp only [hpos, and_true]
      exact ⟨rfl, by simp only; omega⟩

/-! ## All tables -/

/-- The variables at the beginning of the table `d`: the pages before it have been scanned. -/
structure Before (s : Vm) (pdir num d : Nat) (r : RangeScan) : Prop where
  scanned : Scan.pass (pageFree s pdir) tableIdx num ⟨0, 0⟩ (List.range' 1 (1024 * d - 1)) = .ok ⟨r.count, r.ptstart⟩
  start : ∀ d', d = d' + 1 → r.pdstart = startTable (pageFree s pdir) d'

theorem pages_succ (d : Nat) : List.range' 1 (1024 * (d + 1) - 1) = List.range' 1 (1024 * d - 1) ++ tablePages d := by
  cases d with
  | zero => rfl
  | succ d =>
    have hsafe : safePti (d + 1) = 0 := if_neg (Nat.succ_ne_zero d)
    rw [tablePages, hsafe, show 1024 * (d + 1) + 0 = 1 + (1024 * (d + 1) - 1) by omega, List.range'_append_1]
    congr 1

/-- The table that is noted when the table `d` is entered. -/
theorem Before.pdstart {d : Nat} {r : RangeScan} (hnum : 1 ≤ num) (h : Before s pdir num d r) :
    (if r.count = 0 then d else r.pdstart) = startTable (pageFree s pdir) d := by
  obtain ⟨htail, -, -⟩ := Scan.scan_ok hnum h.scanned
  cases d with
  | zero =>
    have hle := htail.le
    have h0 : r.count = 0 := by simp only at hle; omega
    rw [if_pos h0]
    rfl
  | succ d =>
    have hend : 1 + (1024 * (d + 1) - 1) = 1024 * (d + 1) := by omega
    rw [hend] at htail
    rw [startTable]
    by_cases h0 : r.count = 0
    · have hused : pageFree s pdir (1024 * (d + 1) - 1) = false := by
        have hmax := htail.maximal
        simp only [h0] at hmax
        exact hmax.resolve_left (by omega)
      rw [if_pos h0, hused]
      rfl
    · have hfree : pageFree s pdir (1024 * (d + 1) - 1) = true := by
        have hle := htail.le
        have hrun := htail.run (r.count - 1) (by simp only; omega)
        simp only at hle hrun
        rwa [show 1024 * (d + 1) - r.count + (r.count - 1) = 1024 * (d + 1) - 1 by omega] at hrun
      rw [if_neg h0, hfree, h.start d rfl]
      rfl

/-- Where the scan stops, it has found the first range of free pages, and notes the table that was entered last before it. -/
theorem firstRun_of_stop {d x : Nat} {r : RangeScan} (hnum : 1 ≤ num) (hd : d < 1024) (h : Before s pdir num d r)
    (hstop : Scan.pass (pageFree s pdir) tableIdx num ⟨r.count, r.ptstart⟩ (tablePages d) = .error x) :
    ∃ b, FirstRun (pageFree s pdir) num b ∧ x = b % 1024 ∧
      startTable (pageFree s pdir) d = startTable (pageFree s pdir) (b / 1024) := by
  obtain ⟨-, -, hno⟩ := Scan.scan_ok hnum h.scanned
  have hall : Scan.pass (pageFree s pdir) tableIdx num ⟨0, 0⟩ (List.range' 1 (1024 * (d + 1) - 1)) = .error x := by
    rw [pages_succ, Scan.pass_append, h.scanned]
    exact hstop
  obtain ⟨b, hb, hle, rfl, hrun, hfirst⟩ := Scan.scan_error hnum hall
  refine ⟨b, ⟨hb, by omega, hrun, hfirst⟩, rfl, ?_⟩
  -- the range reaches into the table `d`, so that the tables in between are entered in it
  have hreach : 1024 * d < b + num := by
    by_contra hout
    exact hno b hb (by omega) hrun
  obtain ⟨n, hn⟩ : ∃ n, d = b / 1024 + n := ⟨d - b / 1024, by omega⟩
  rw [hn]
  refine startTable_add fun k hk => ?_
  have hin := hrun (1024 * (b / 1024 + k + 1) - 1 - b) (by omega)
  rwa [show b + (1024 * (b / 1024 + k + 1) - 1 - b) = 1024 * (b / 1024 + k + 1) - 1 by omega] at hin

theorem findRangeFrom_spec (hnum : 1 ≤ num) (n d : Nat) (r : RangeScan) (hd : d + n ≤ 1024) (h : Before s pdir num d r)
    (hne : findRangeFrom s pdir num (List.range' d n) r ≠ 0) :
    ∃ b, FirstRun (pageFree s pdir) num b ∧
      findRangeFrom s pdir num (List.range' d n) r = createAddr (startTable (pageFree s pdir) (b / 1024)) (b % 1024) 0 := by
  induction n generalizing d r with
  | zero => exact absurd rfl hne
  | succ n ih =>
    obtain ⟨-, hlt, -⟩ := Scan.scan_ok hnum h.scanned
    have hfollows := scanDir_follows s pdir d r hlt
    rw [h.pdstart hnum] at hfollows
    rw [List.range'_succ, findRangeFrom_cons] at hne ⊢
    cases hpass : Scan.pass (pageFree s pdir) tableIdx num ⟨r.count, r.ptstart⟩ (tablePages d) with
    | error x =>
      rw [hpass] at hfollows
      obtain ⟨hge, hpd, hpt⟩ := hfollows
      obtain ⟨b, hb, rfl, hstart⟩ := firstRun_of_stop hnum (by omega) h hpass
      rw [if_pos hge, hpd, hpt, hstart]
      exact ⟨b, hb, rfl⟩
    | ok sc =>
      rw [hpass] at hfollows
      obtain ⟨hr, hsc⟩ := hfollows
      rw [hr, if_neg (Nat.not_le.mpr hsc)] at hne ⊢
      refine ih (d + 1) _ (by omega) ⟨?_, ?_⟩ hne
      · rw [pages_succ, Scan.pass_append, h.scanned]
        exact hpass
      · intro d' hd'
        cases hd'
        rfl

end FindRangeAux

open FindRangeAux

/-- `vm_find_range` finds the first range of free pages, and returns the address of the page with the same index in the table that was
entered last with no free page before it. -/
theorem vmFindRange_spec {s : Vm} {pdir num : Nat} (hnum : 1 ≤ num) (hne : vmFindRange s pdir num ≠ 0) :
    ∃ b, FirstRun (pageFree s pdir) num b ∧
      vmFindRange s pdir num = 4096 * (1024 * startTable (pageFree s pdir) (b / 1024) + b % 1024) := by
  have hrange : List.range 1024 = List.range' 0 1024 := List.range_eq_range'
  rw [vmFindRange, hrange] at hne ⊢
  obtain ⟨b, hb, heq⟩ := findRangeFrom_spec hnum 1024 0 ⟨0, 0, 0⟩ (Nat.le_refl _) ⟨rfl, fun d' hd' => by omega⟩ hne
  refine ⟨b, hb, heq.trans ?_⟩
  have hstart := startTable_le (pageFree s pdir) (b / 1024)
  have hle := hb.le
  simp only [createAddr, pageSize]
  rw [w32_of_lt (by omega)]
  omega

end Kos
