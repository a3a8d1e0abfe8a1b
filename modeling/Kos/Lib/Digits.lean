import Mathlib.Data.Nat.Digits.Lemmas

/-!
# Numbers written out in a base

The digits of a number stand with the most significant one first, as they are read, while those of `Nat.digits` stand the other way
around. The number 0 has one digit. A list of digits without leading zeroes is determined by the number that it stands for
(`spellDigits_readDigits`).
-/

namespace Kos

/-- The digits of a number in a base. -/
def spellDigits (base n : Nat) : List Nat := if n = 0 then [0] else (Nat.digits base n).reverse

/-- The number that digits stand for in a base. -/
def readDigits (base : Nat) (ds : List Nat) : Nat := ds.foldl (fun n d => n * base + d) 0

section

variable {base : Nat}

/-- The last digit, and those before it. -/
theorem spellDigits_eq (hb : 2 ≤ base) (n : Nat) :
    spellDigits base n = (if n / base > 0 then spellDigits base (n / base) else []) ++ [n % base] := by
  rcases Nat.eq_zero_or_pos n with rfl | hn
  · simp [spellDigits]
  · have hdigits := Nat.digits_def' (b := base) (by omega) hn
    rw [spellDigits, if_neg (by omega), hdigits, List.reverse_cons]
    split
    next hpos => rw [spellDigits, if_neg (by omega)]
    next hzero =>
      rw [Nat.eq_zero_of_not_pos hzero]
      simp

theorem spellDigits_ne_nil (hb : 2 ≤ base) (n : Nat) : spellDigits base n ≠ [] := by
  rw [spellDigits_eq hb]
  simp

theorem lt_of_mem_spellDigits (hb : 2 ≤ base) {n d : Nat} (h : d ∈ spellDigits base n) : d < base := by
  unfold spellDigits at h
  split at h
  · rw [List.mem_singleton.mp h]
    omega
  · exact Nat.digits_lt_base hb (List.mem_reverse.mp h)

/-- The digits before the last take one place less. -/
theorem places_left {places n : Nat} (hn : n < base ^ (places + 1)) (hpos : n / base > 0) : n / base < base ^ places ∧ 0 < places := by
  have hlt : n / base < base ^ places := Nat.div_lt_of_lt_mul (by rwa [Nat.pow_succ'] at hn)
  refine ⟨hlt, Nat.pos_of_ne_zero fun hzero => ?_⟩
  rw [hzero, Nat.pow_zero] at hlt
  omega

theorem length_spellDigits_le (hb : 2 ≤ base) {n places : Nat} (hn : n < base ^ places) (hplaces : 0 < places) :
    (spellDigits base n).length ≤ places := by
  unfold spellDigits
  split
  · exact hplaces
  · rw [List.length_reverse]
    exact (Nat.digits_length_le_iff hb n).mpr hn

theorem readDigits_eq_ofDigits (ds : List Nat) : readDigits base ds = Nat.ofDigits base ds.reverse := by
  induction ds using List.reverseRecOn with
  | nil => rfl
  | append_singleton ds d ih =>
    rw [readDigits, List.foldl_append, List.reverse_append, List.reverse_singleton, List.singleton_append, Nat.ofDigits_cons, ← ih,
      Nat.mul_comm base, Nat.add_comm d]
    rfl

variable (base) in
theorem readDigits_spellDigits (n : Nat) : readDigits base (spellDigits base n) = n := by
  unfold spellDigits
  split
  next hn => simp [readDigits, hn]
  next => rw [readDigits_eq_ofDigits, List.reverse_reverse, Nat.ofDigits_digits]

/-- There is no leading zero but that of the number 0. -/
theorem eq_of_head?_spellDigits {n : Nat} (h : (spellDigits base n).head? = some 0) : spellDigits base n = [0] := by
  unfold spellDigits at h ⊢
  split at h
  next hn => rw [if_pos hn]
  next hn =>
    rw [List.head?_reverse, List.getLast?_eq_some_getLast (Nat.digits_ne_nil_iff_ne_zero.mpr hn), Option.some.injEq] at h
    exact absurd h (Nat.getLast_digit_ne_zero base hn)

/-- Digits are those of their number, if they have no leading zero. -/
theorem spellDigits_readDigits (hb : 2 ≤ base) {ds : List Nat} (hlt : ∀ d ∈ ds, d < base) (hne : ds ≠ [])
    (hlead : ds.head? = some 0 → ds = [0]) : spellDigits base (readDigits base ds) = ds := by
  by_cases hzero : ds.head? = some 0
  · rw [hlead hzero]
    simp [readDigits, spellDigits]
  · have hlast : ∀ h : ds.reverse ≠ [], ds.reverse.getLast h ≠ 0 := by
      intro h hlast
      rw [List.getLast_reverse] at hlast
      exact hzero (by rw [List.head?_eq_some_head hne, hlast])
    have hdigits := Nat.digits_ofDigits base hb ds.reverse (fun d hd => hlt d (List.mem_reverse.mp hd)) hlast
    rw [← readDigits_eq_ofDigits] at hdigits
    have hpos : readDigits base ds ≠ 0 := by
      intro hread
      rw [hread, Nat.digits_zero] at hdigits
      exact hne (List.reverse_eq_nil_iff.mp hdigits.symm)
    rw [spellDigits, if_neg hpos, hdigits, List.reverse_reverse]

end

end Kos
