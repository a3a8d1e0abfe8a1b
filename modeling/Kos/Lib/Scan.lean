import Mathlib.Tactic.Common

/-!
# Looking for a run of free places

A scan visits places one after another and carries the length of the run of free places that ends at the place visited last,
and a label of the first place of that run. It stops (`error`) with the label as soon as the run is `num` long.

Over one block of consecutive places a scan that starts with an empty run finds a run of `num` free places
(`Scan.scan_error`) or leaves the longest free run at the end of the block (`Scan.scan_ok`). A scan that enters a block with a
run of another block goes on counting it: it stops with the label that it came with if the block begins with the free places that
were missing (`Scan.pass_free_error`), and otherwise the run it came with makes no difference (`Scan.carry_missed`).
-/

namespace Kos

/-- What a scan carries from place to place. -/
structure Scan where
  count : Nat
  result : Nat
  deriving DecidableEq, Repr

/-- The `n` places from `a` on are free. -/
def FreeRun (free : Nat → Bool) (a n : Nat) : Prop := ∀ i < n, free (a + i) = true

instance (free : Nat → Bool) (a n : Nat) : Decidable (FreeRun free a n) :=
  inferInstanceAs (Decidable (∀ i < n, free (a + i) = true))

theorem FreeRun.snoc {free : Nat → Bool} {a n : Nat} (h : FreeRun free a n) (hn : free (a + n) = true) :
    FreeRun free a (n + 1) := by
  intro i hi
  rcases Nat.lt_succ_iff_lt_or_eq.mp hi with hi | rfl
  · exact h i hi
  · exact hn

theorem FreeRun.mono {free : Nat → Bool} {a n m : Nat} (h : FreeRun free a n) (hm : m ≤ n) : FreeRun free a m :=
  fun i hi => h i (Nat.lt_of_lt_of_le hi hm)

/-- The longest run of free places of a block that ends with it. -/
theorem exists_tail (free : Nat → Bool) (a n : Nat) :
    ∃ k ≤ n, FreeRun free (a + n - k) k ∧ (k = n ∨ free (a + n - k - 1) = false) := by
  induction n with
  | zero => exact ⟨0, Nat.le_refl 0, fun i hi => absurd hi (Nat.not_lt_zero i), .inl rfl⟩
  | succ n ih =>
    cases hf : free (a + n) with
    | false => exact ⟨0, Nat.zero_le _, fun i hi => absurd hi (Nat.not_lt_zero i), .inr hf⟩
    | true =>
      obtain ⟨k, hk, hrun, hmax⟩ := ih
      have hfirst : a + (n + 1) - (k + 1) = a + n - k := by omega
      refine ⟨k + 1, by omega, ?_, ?_⟩
      · rw [hfirst]
        refine hrun.snoc ?_
        rwa [show a + n - k + k = a + n by omega]
      · rw [hfirst]
        exact hmax.imp_left fun h => by rw [h]

/-- The longest run of free places that a block begins with. -/
theorem exists_head (free : Nat → Bool) (a n : Nat) : ∃ j ≤ n, FreeRun free a j ∧ (j = n ∨ free (a + j) = false) := by
  induction n with
  | zero => exact ⟨0, Nat.le_refl 0, fun i hi => absurd hi (Nat.not_lt_zero i), .inl rfl⟩
  | succ n ih =>
    obtain ⟨j, hj, hrun, rfl | hused⟩ := ih
    · cases hf : free (a + j) with
      | true => exact ⟨j + 1, Nat.le_refl _, hrun.snoc hf, .inl rfl⟩
      | false => exact ⟨j, Nat.le_succ j, hrun, .inr hf⟩
    · exact ⟨j, by omega, hrun, .inr hused⟩

namespace Scan

variable (free : Nat → Bool) (label : Nat → Nat) (num : Nat)

/-- One place. -/
def step (sc : Scan) (p : Nat) : Except Nat Scan :=
  if free p then
    let result := if sc.count = 0 then label p else sc.result
    let count := sc.count + 1
    if count ≥ num then .error result else .ok ⟨count, result⟩
  else
    .ok ⟨0, sc.result⟩

/-- The places of a list, in its order. -/
def pass (sc : Scan) (ps : List Nat) : Except Nat Scan := ps.foldlM (step free label num) sc

theorem pass_append (sc : Scan) (ps qs : List Nat) :
    pass free label num sc (ps ++ qs) = (pass free label num sc ps).bind (fun sc => pass free label num sc qs) :=
  List.foldlM_append

theorem pass_range'_snoc (sc : Scan) (a n : Nat) :
    pass free label num sc (List.range' a (n + 1)) =
      (pass free label num sc (List.range' a n)).bind (fun sc => step free label num sc (a + n)) := by
  rw [List.range'_concat, pass_append]
  simp [pass]

/-- Places that are not free only end the run. -/
theorem pass_used (sc : Scan) (ps : List Nat) (hne : ps ≠ []) (h : ∀ p ∈ ps, free p = false) :
    pass free label num sc ps = .ok ⟨0, sc.result⟩ := by
  induction ps generalizing sc with
  | nil => exact absurd rfl hne
  | cons p ps ih =>
    have hp : step free label num sc p = .ok ⟨0, sc.result⟩ := by simp [step, h p (by simp)]
    have hc : pass free label num sc (p :: ps) = pass free label num ⟨0, sc.result⟩ ps := by
      simp only [pass, List.foldlM_cons, hp]
      rfl
    rw [hc]
    by_cases hps : ps = []
    · subst hps
      rfl
    · exact ih ⟨0, sc.result⟩ hps (fun q hq => h q (List.mem_cons_of_mem p hq))

/-- The run a scan carries at the end `b` of a block that began at `a`: it lies in the block, is free, is labelled by its first
place, and no free place of the block stands before it. -/
structure Tail (a b : Nat) (sc : Scan) : Prop where
  le : a + sc.count ≤ b
  run : FreeRun free (b - sc.count) sc.count
  labelled : 0 < sc.count → sc.result = label (b - sc.count)
  maximal : a + sc.count = b ∨ free (b - sc.count - 1) = false

variable {free label num}

theorem Tail.empty (a r : Nat) : Tail free label a a ⟨0, r⟩ where
  le := Nat.le_refl _
  run := fun i hi => absurd hi (Nat.not_lt_zero i)
  labelled := fun h => absurd h (Nat.lt_irrefl 0)
  maximal := Or.inl rfl

/-- A place that is not free leaves the empty run. -/
theorem Tail.used {a b : Nat} {sc : Scan} (h : Tail free label a b sc) (hb : free b = false) :
    Tail free label a (b + 1) ⟨0, sc.result⟩ where
  le := by have := h.le; simp only; omega
  run := fun i hi => absurd hi (Nat.not_lt_zero i)
  labelled := fun h => absurd h (Nat.lt_irrefl 0)
  maximal := Or.inr (by simpa using hb)

/-- A free place makes the run one longer. -/
theorem Tail.longer {a b : Nat} {sc : Scan} (h : Tail free label a b sc) (hb : free b = true) :
    Tail free label a (b + 1) ⟨sc.count + 1, if sc.count = 0 then label b else sc.result⟩ := by
  have hle := h.le
  have hfirst : b + 1 - (sc.count + 1) = b - sc.count := by omega
  refine ⟨by simp only; omega, ?_, ?_, ?_⟩
  · rw [hfirst]
    apply h.run.snoc
    rw [show b - sc.count + sc.count = b by omega]
    exact hb
  · intro _
    rw [hfirst]
    by_cases hc : sc.count = 0
    · simp [hc]
    · simp only [hc, if_false]
      exact h.labelled (Nat.pos_of_ne_zero hc)
  · rw [hfirst]
    rcases h.maximal with hm | hm
    · exact Or.inl (by simp only; omega)
    · exact Or.inr hm

/-- No run of `num` free places ends at `b` when the longest one that does is shorter. -/
theorem Tail.no_run {a b : Nat} {sc : Scan} (h : Tail free label a b sc) (hlt : sc.count < num) {c : Nat} (hc : a ≤ c)
    (hb : c + num = b) : ¬FreeRun free c num := by
  intro hrun
  rcases h.maximal with hm | hm
  · omega
  · have := hrun (b - sc.count - 1 - c) (by omega)
    rw [show c + (b - sc.count - 1 - c) = b - sc.count - 1 by omega, hm] at this
    exact absurd this (by decide)

/-- The same for the runs that end before `b`, if there was none without the last place. -/
theorem Tail.no_run_before {a b : Nat} {sc : Scan} (h : Tail free label a (b + 1) sc) (hlt : sc.count < num)
    (hno : ∀ c, a ≤ c → c + num ≤ b → ¬FreeRun free c num) : ∀ c, a ≤ c → c + num ≤ b + 1 → ¬FreeRun free c num := by
  intro c hc hcb
  rcases Nat.lt_or_ge b (c + num) with hend | hend
  · exact h.no_run hlt hc (by omega)
  · exact hno c hc hend

/-- A scan of one block that starts with the empty run and does not stop leaves the longest free run at the end of the block, and
the block holds no run of `num` free places. -/
theorem scan_ok (hnum : 1 ≤ num) {a n r : Nat} {sc : Scan}
    (h : pass free label num ⟨0, r⟩ (List.range' a n) = .ok sc) :
    Tail free label a (a + n) sc ∧ sc.count < num ∧ ∀ c, a ≤ c → c + num ≤ a + n → ¬FreeRun free c num := by
  induction n generalizing sc with
  | zero =>
    simp only [List.range'_zero, pass, List.foldlM_nil] at h
    cases h
    exact ⟨Tail.empty a r, hnum, fun c hc hcn => by omega⟩
  | succ n ih =>
    rw [pass_range'_snoc] at h
    cases hprev : pass free label num ⟨0, r⟩ (List.range' a n) with
    | error x => rw [hprev] at h; cases h
    | ok sc' =>
      rw [hprev] at h
      obtain ⟨ht, hlt, hno⟩ := ih hprev
      simp only [Except.bind, step] at h
      by_cases hf : free (a + n) = true
      · simp only [hf, if_true] at h
        split at h
        · cases h
        · rename_i hnum'
          cases h
          have ht' := ht.longer hf
          have hlt' : sc'.count + 1 < num := by omega
          exact ⟨ht', hlt', ht'.no_run_before hlt' hno⟩
      · have hf' : free (a + n) = false := by simpa using hf
        simp only [hf', Bool.false_eq_true, if_false] at h
        cases h
        have ht' := ht.used hf'
        exact ⟨ht', hnum, ht'.no_run_before hnum hno⟩

/-- A scan of one block that starts with the empty run stops only with the label of a run of `num` free places of the block, the first
one. -/
theorem scan_error (hnum : 1 ≤ num) {a n r x : Nat}
    (h : pass free label num ⟨0, r⟩ (List.range' a n) = .error x) :
    ∃ b, a ≤ b ∧ b + num ≤ a + n ∧ x = label b ∧ FreeRun free b num ∧ ∀ c, a ≤ c → c < b → ¬FreeRun free c num := by
  induction n with
  | zero => simp only [List.range'_zero, pass, List.foldlM_nil] at h; cases h
  | succ n ih =>
    rw [pass_range'_snoc] at h
    cases hprev : pass free label num ⟨0, r⟩ (List.range' a n) with
    | error y =>
      rw [hprev] at h
      obtain ⟨b, hab, hbn, hx, hrun⟩ := ih (hprev.trans h)
      exact ⟨b, hab, by omega, hx, hrun⟩
    | ok sc =>
      rw [hprev] at h
      obtain ⟨ht, hlt, hno⟩ := scan_ok hnum hprev
      simp only [Except.bind, step] at h
      by_cases hf : free (a + n) = true
      · simp only [hf, if_true] at h
        split at h
        · rename_i hnum'
          cases h
          have ht' := ht.longer hf
          have hc : sc.count + 1 = num := by omega
          have hle := ht'.le
          simp only at hle
          refine ⟨a + n + 1 - num, by omega, by omega, ?_, ?_, fun c hac hcb => hno c hac (by omega)⟩
          · rw [← hc]
            exact ht'.labelled (by simp)
          · have := ht'.run
            simp only [hc] at this
            exact this
        · cases h
      · simp only [hf, Bool.false_eq_true, if_false] at h
        cases h

/-- Free places lengthen the run, as long as it is too short. -/
theorem pass_free_ok (label : Nat → Nat) {a n : Nat} {sc : Scan} (hrun : FreeRun free a n) (hlt : sc.count + n < num) :
    pass free label num sc (List.range' a n) = .ok ⟨sc.count + n, if sc.count = 0 ∧ 0 < n then label a else sc.result⟩ := by
  induction n with
  | zero => simp only [List.range'_zero, pass, List.foldlM_nil, Nat.lt_irrefl, and_false, if_false]; rfl
  | succ n ih =>
    have hf : free (a + n) = true := hrun n (Nat.lt_succ_self n)
    have hge : ¬sc.count + n + 1 ≥ num := by omega
    rw [pass_range'_snoc, ih (hrun.mono (Nat.le_succ n)) (by omega)]
    simp only [Except.bind, step, hf, hge, if_true, if_false, Nat.succ_pos, and_true, ← Nat.add_assoc]
    by_cases h0 : sc.count = 0
    · cases n with
      | zero => simp [h0]
      | succ n => simp [h0]
    · simp [h0]

/-- When the block begins with the places that were missing, the scan stops with the label it came with, or with that of the first place
of the block. -/
theorem pass_free_error (label : Nat → Nat) {a n : Nat} {sc : Scan} (hlt : sc.count < num) (hn : num - sc.count ≤ n)
    (hrun : FreeRun free a (num - sc.count)) :
    pass free label num sc (List.range' a n) = .error (if sc.count = 0 then label a else sc.result) := by
  obtain ⟨k, hk⟩ : ∃ k, num - sc.count = k + 1 := ⟨num - sc.count - 1, by omega⟩
  rw [hk] at hn hrun
  -- the places before the last missing one only lengthen the run
  have hpre := pass_free_ok label (hrun.mono (Nat.le_succ k)) (show sc.count + k < num by omega)
  have hsplit : List.range' a n = List.range' a (k + 1) ++ List.range' (a + (k + 1)) (n - (k + 1)) := by
    rw [List.range'_append_1]
    congr 1
    omega
  have hf : free (a + k) = true := hrun k (Nat.lt_succ_self k)
  have hge : sc.count + k + 1 ≥ num := by omega
  rw [hsplit, pass_append, pass_range'_snoc, hpre]
  simp only [Except.bind, step, hf, hge, if_true]
  by_cases h0 : sc.count = 0
  · cases k with
    | zero => simp [h0]
    | succ k => simp [h0]
  · simp [h0]

/-- With an empty run, the label that is left over does not matter. -/
theorem pass_empty_error {r r' x : Nat} {ps : List Nat} (h : pass free label num ⟨0, r⟩ ps = .error x) :
    pass free label num ⟨0, r'⟩ ps = .error x := by
  induction ps generalizing r r' with
  | nil => cases h
  | cons p ps ih =>
    simp only [pass, List.foldlM_cons] at h ⊢
    cases hf : free p with
    | true =>
      simp only [step, hf, if_true] at h ⊢
      exact h
    | false =>
      simp only [step, hf, Bool.false_eq_true, if_false] at h ⊢
      exact ih h

/-- A run that is carried into a block and not completed there makes no difference. -/
theorem carry_missed {a n r x : Nat} {sc : Scan} (hlt : sc.count < num)
    (hno : ¬(num - sc.count ≤ n ∧ FreeRun free a (num - sc.count))) :
    pass free label num sc (List.range' a n) = .error x ↔ pass free label num ⟨0, r⟩ (List.range' a n) = .error x := by
  obtain ⟨j, hj, hrun, hend⟩ := exists_head free a n
  have hshort : sc.count + j < num := by
    by_contra hge
    exact hno ⟨by omega, hrun.mono (by omega)⟩
  -- both scans only lengthen their runs up to place `j`, where both are cut off
  have hcarried := pass_free_ok label hrun hshort
  have hempty : pass free label num ⟨0, r⟩ (List.range' a j) = .ok ⟨0 + j, if 0 = 0 ∧ 0 < j then label a else r⟩ :=
    pass_free_ok label hrun (by show 0 + j < num; omega)
  rcases hend with rfl | hused
  · rw [hcarried, hempty]
    exact iff_of_false (by simp) (by simp)
  · rcases Nat.eq_or_lt_of_le hj with rfl | hj
    · rw [hcarried, hempty]
      exact iff_of_false (by simp) (by simp)
    · have hsplit : List.range' a n = List.range' a (j + 1) ++ List.range' (a + (j + 1)) (n - (j + 1)) := by
        rw [List.range'_append_1]
        congr 1
        omega
      rw [hsplit, pass_append, pass_append, pass_range'_snoc, pass_range'_snoc, hcarried, hempty]
      simp only [Except.bind, step, hused, Bool.false_eq_true, if_false]
      exact ⟨pass_empty_error, pass_empty_error⟩

end Scan

end Kos
