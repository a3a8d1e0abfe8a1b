import Kos.Lemmas.Format

/-!
# Numbers in any base

The table of `numfmt` has no `N`. From 23 on its digits are those of the next number, and for 35 there is the NUL of the table, where
the digits are taken to end. So a number is written as it should be exactly if none of its digits is one of these, and if the width does
not leave the range of an `int` when the digits are subtracted from it (`numfmt_right_iff`).
-/

namespace Kos

/-- The digit that a character stands for. -/
def digitValue (c : UInt8) : Option Nat :=
  if '0'.toUInt8 ≤ c ∧ c ≤ '9'.toUInt8 then some (c.toNat - 48)
  else if 'A'.toUInt8 ≤ c ∧ c ≤ 'Z'.toUInt8 then some (c.toNat - 55)
  else none

/-- The number that is read in a base; `none` if a character is no digit of the base. -/
def readNumeral (base : Nat) (text : List UInt8) : Option Nat :=
  text.foldlM (fun n c => (digitValue c).bind fun d => if d < base then some (n * base + d) else none) 0

/-- The text of a number in a base, without leading zeroes. -/
structure IsNumeral (base num : Nat) (text : List UInt8) : Prop where
  nonempty : text ≠ []
  leading : text.head? = some '0'.toUInt8 → text = ['0'.toUInt8]
  read : readNumeral base text = some num

/-- `numfmt` writes the number behind the characters that it is padded with, and a NUL, and returns the length without it. -/
def NumfmtRight (num base : Nat) (pad : Int) (pc : UInt8) : Prop :=
  ∃ text, IsNumeral base num text ∧
    numfmtCall num base pad pc = some (List.replicate (pad - text.length).toNat pc ++ text ++ [0], max pad text.length)

namespace NumfmtAux

open FormatAux

section

variable {base num : Nat} {text : List UInt8}

/-! ## Reading -/

theorem digitValue_digitChar {d : Nat} (h : d < 36) : digitValue (digitChar d) = some d := by
  have hall : ∀ d : Fin 36, digitValue (digitChar d.1) = some d.1 := by decide
  exact hall ⟨d, h⟩

theorem eq_of_digitValue {c : UInt8} {d : Nat} (h : digitValue c = some d) : c = digitChar d := by
  have hall : ∀ c : BitVec 8, ∀ d ∈ digitValue ⟨c⟩, ⟨c⟩ = digitChar d := by decide +kernel
  exact hall c.toBitVec d h

/-- A text is read as a number, if its characters are those of the digits of this number. -/
theorem readNumeral_eq_some_iff (hb' : base ≤ 36) :
    readNumeral base text = some num ↔ ∃ ds, text = ds.map digitChar ∧ (∀ d ∈ ds, d < base) ∧ readDigits base ds = num := by
  unfold readNumeral readDigits
  generalize 0 = acc
  induction text generalizing acc with
  | nil =>
    constructor
    · intro h
      cases h
      exact ⟨[], rfl, fun d hd => absurd hd List.not_mem_nil, rfl⟩
    · rintro ⟨ds, hds, -, rfl⟩
      rw [List.map_eq_nil_iff.mp hds.symm]
      rfl
  | cons c text ih =>
    rw [List.foldlM_cons]
    constructor
    · intro h
      obtain ⟨n, hn, h⟩ := Option.bind_eq_some_iff.mp h
      obtain ⟨d, hd, hn⟩ := Option.bind_eq_some_iff.mp hn
      split at hn
      next hlt =>
        cases hn
        obtain ⟨ds, rfl, hds, hread⟩ := (ih _).mp h
        exact ⟨d :: ds, by rw [List.map_cons, ← eq_of_digitValue hd], List.forall_mem_cons.mpr ⟨hlt, hds⟩, hread⟩
      next => cases hn
    · rintro ⟨ds, hds, hlt, hread⟩
      obtain ⟨d, ds, rfl, rfl, rfl⟩ := List.map_eq_cons_iff.mp hds.symm
      rw [List.forall_mem_cons] at hlt
      rw [digitValue_digitChar (by omega), Option.bind_some, if_pos hlt.1]
      exact (ih _).mpr ⟨ds, rfl, hlt.2, hread⟩

theorem digitChar_eq_zero_iff {d : Nat} (h : d < 36) : digitChar d = '0'.toUInt8 ↔ d = 0 := by
  have hall : ∀ d : Fin 36, digitChar d.1 = '0'.toUInt8 ↔ d.1 = 0 := by decide
  exact hall ⟨d, h⟩

/-- A number has one text. -/
theorem isNumeral_iff (hb : 2 ≤ base) (hb' : base ≤ 36) : IsNumeral base num text ↔ text = numeral base num := by
  have hlead {ds : List Nat} (hlt : ∀ d ∈ ds, d < base) : (ds.map digitChar).head? = some '0'.toUInt8 ↔ ds.head? = some 0 := by
    cases ds with
    | nil => simp
    | cons d ds =>
      have hd := hlt d List.mem_cons_self
      simp [digitChar_eq_zero_iff (show d < 36 by omega)]
  have hlt : ∀ d ∈ spellDigits base num, d < base := fun d hd => lt_of_mem_spellDigits hb hd
  constructor
  · rintro ⟨hne, hleading, hread⟩
    obtain ⟨ds, rfl, hds, rfl⟩ := (readNumeral_eq_some_iff hb').mp hread
    rw [hlead hds] at hleading
    have hone (hzero : ds.head? = some 0) : ds = [0] := by
      have hlen := congrArg List.length (hleading hzero)
      rw [List.length_map] at hlen
      obtain ⟨d, rfl⟩ := List.length_eq_one_iff.mp hlen
      simpa using hzero
    rw [numeral_eq_map, spellDigits_readDigits hb hds (fun hnil => hne (by rw [hnil]; rfl)) hone]
  · rintro rfl
    refine ⟨numeral_ne_nil hb num, ?_, (readNumeral_eq_some_iff hb').mpr ⟨_, numeral_eq_map base num, hlt, readDigits_spellDigits base num⟩⟩
    rw [numeral_eq_map, hlead hlt]
    intro hzero
    rw [eq_of_head?_spellDigits hzero]
    rfl

theorem numfmtRight_iff_eq (hb : 2 ≤ base) (hb' : base ≤ 36) (pad : Int) (pc : UInt8) :
    NumfmtRight num base pad pc ↔ numfmtCall num base pad pc =
      some (List.replicate (pad - (numeral base num).length).toNat pc ++ numeral base num ++ [0], max pad (numeral base num).length) := by
  simp only [NumfmtRight, isNumeral_iff hb hb', exists_eq_left]

/-! ## Writing -/

/-- A width that leaves the range of an `int` becomes a very large one. -/
theorem int32_of_lt {x : Int} (h : -4294967296 ≤ x) (h' : x < -2147483648) : int32 x = x + 4294967296 := by
  rw [int32, ← Int.add_bmod_right]
  exact int32_of_le (by omega) (by omega)

/-- Digits are only written as they should be, if they are below 23. -/
theorem lt_of_takeWhile_eq {ds : List Nat} (hds : ∀ d ∈ ds, d < 36) (h : (ds.map tableChar).takeWhile (· ≠ 0) = ds.map digitChar) :
    ∀ d ∈ ds, d < 23 := by
  have hlen : ((ds.map tableChar).takeWhile (· ≠ 0)).length = (ds.map tableChar).length := by
    rw [h, List.length_map, List.length_map]
  rw [(List.takeWhile_prefix _).eq_of_length hlen, List.map_inj_left] at h
  intro d hd
  exact (tableChar_eq_iff (hds d hd)).mp (h d hd)

end

end NumfmtAux

open FormatAux NumfmtAux

/-- For every number of 63 bits, every base up to 36, every width and every character to pad with: `numfmt` is right exactly if no digit
of the number is greater than 22, and the width less the number of digits is still an `int`. -/
theorem numfmt_right_iff (num base : Nat) (pad : Int) (pc : UInt8) (hnum : num < 9223372036854775808) (hb : 2 ≤ base) (hb' : base ≤ 36)
    (hpad : -2147483648 ≤ pad) (hpad' : pad < 2147483648) :
    NumfmtRight num base pad pc ↔
      (∀ d ∈ spellDigits base num, d < 23) ∧ -2147483648 ≤ pad - (spellDigits base num).length := by
  have hlen : (spellDigits base num).length ≤ 63 :=
    length_spellDigits_le hb (Nat.lt_of_lt_of_le hnum (Nat.pow_le_pow_left hb 63)) (by decide)
  rw [numfmtRight_iff_eq hb hb', numfmtCall, if_neg (by omega), numfmt_eq_table hnum hb hb', Option.map_some, Option.some.injEq,
    Prod.mk.injEq, length_numeral, List.append_cancel_right_eq]
  constructor
  · rintro ⟨htext, -⟩
    have hwidth : -2147483648 ≤ pad - (spellDigits base num).length := by
      by_contra hlow
      -- Too many characters are written.
      have hlong := congrArg List.length htext
      rw [int32_of_lt (by omega) (by omega), List.length_append, List.length_append, List.length_replicate, List.length_replicate,
        length_numeral] at hlong
      omega
    rw [int32_of_le hwidth (by omega), List.append_cancel_left_eq, numeral_eq_map] at htext
    refine ⟨lt_of_takeWhile_eq (fun d hd => ?_) htext, hwidth⟩
    exact Nat.lt_of_lt_of_le (lt_of_mem_spellDigits hb hd) hb'
  · rintro ⟨hdigits, hwidth⟩
    rw [int32_of_le hwidth (by omega), takeWhile_tableChar hdigits, ← numeral_eq_map]
    refine ⟨rfl, ?_⟩
    rw [List.length_append, List.length_replicate, length_numeral, int32_of_le (by omega) (by omega)]
    omega

/-- `MAIL` in base 36, in a field of six characters. -/
theorem numfmt_mail :
    NumfmtRight 1040061 36 6 '*'.toUInt8 ∧ numeral 36 1040061 = ['M', 'A', 'I', 'L'].map Char.toUInt8 :=
  ⟨(numfmt_right_iff 1040061 36 6 '*'.toUInt8 (by decide) (by decide) (by decide) (by decide) (by decide)).mpr (by decide), by decide⟩

/-- The digit 23 is an `O`, and nothing is written for the digit 35. -/
theorem numfmt_not_right :
    (numfmtCall 23 24 0 ' '.toUInt8 = some (['O'.toUInt8, 0], 1) ∧ ¬NumfmtRight 23 24 0 ' '.toUInt8) ∧
      numfmtCall 35 36 0 ' '.toUInt8 = some ([0], 0) ∧ ¬NumfmtRight 35 36 0 ' '.toUInt8 := by
  refine ⟨⟨by decide, ?_⟩, by decide, ?_⟩
  · rw [numfmtRight_iff_eq (by decide) (by decide)]
    decide
  · rw [numfmtRight_iff_eq (by decide) (by decide)]
    decide

end Kos
