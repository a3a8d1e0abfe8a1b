import Mathlib.Data.Nat.Bitwise
import Mathlib.Tactic.Ring
import Kos.Mm.Bitmap

/-!
# The page map, page by page

The bit operations of `kernel/include/bitop.h` as statements about single bits, and what marking a page or a range does to
`isFree` of every page.
-/

namespace Kos

/-- Whether the page with number `p` is free. -/
def freePage (m : Mmap) (p : Nat) : Bool := (m (p / 32)).getLsbD (p % 32)

/-! ## Single bits -/

theorem bissetn_eq (map : BitVec 32) {n : Nat} (hn : n < 32) : bissetn map n = map.getLsbD n := by
  have hbit : (BitVec.twoPow 32 n).getLsbD n = true := by simp [hn]
  rw [bissetn, ← BitVec.twoPow_eq, BitVec.and_twoPow]
  split
  · rename_i h
    have hne : BitVec.twoPow 32 n ≠ 0#32 := fun h0 => by simp [h0] at hbit
    simp [h, hne]
  · rename_i h
    simp [h]

theorem bissetn_bsetn (map : BitVec 32) {i j : Nat} (hi : i < 32) (hj : j < 32) :
    bissetn (bsetn map i) j = (bissetn map j || decide (i = j)) := by
  rw [bissetn_eq _ hj, bissetn_eq _ hj, bsetn, ← BitVec.twoPow_eq, BitVec.getLsbD_or, BitVec.getLsbD_twoPow]
  simp [hi]

theorem bissetn_bclrn (map : BitVec 32) {i j : Nat} (hi : i < 32) (hj : j < 32) :
    bissetn (bclrn map i) j = (bissetn map j && !decide (i = j)) := by
  rw [bissetn_eq _ hj, bissetn_eq _ hj, bclrn, ← BitVec.twoPow_eq, BitVec.getLsbD_and, BitVec.getLsbD_not,
    BitVec.getLsbD_twoPow]
  simp [hi, hj]

theorem pageToPos_eq (p : Nat) : pageToPos p = p / 4096 % 32 := Nat.and_two_pow_sub_one_eq_mod (p / 4096) 5

theorem pageToPos_lt (p : Nat) : pageToPos p < 32 := by
  rw [pageToPos_eq]
  exact Nat.mod_lt _ (by decide)

theorem isPageAligned_iff (a : Nat) : isPageAligned a = true ↔ a % 4096 = 0 := by
  have h : a &&& 4095 = a % 4096 := Nat.and_two_pow_sub_one_eq_mod a 12
  simp [isPageAligned, h]

/-! ## Single pages -/

/-- A page is in one word at one position. -/
theorem same_bit_iff (p q : Nat) :
    (addrToIdx p = addrToIdx q ∧ pageToPos p = pageToPos q) ↔ p / 4096 = q / 4096 := by
  rw [pageToPos_eq, pageToPos_eq]
  simp only [addrToIdx, pageSize]
  omega

theorem isFree_eq_freePage (m : Mmap) (a : Nat) : isFree m a = freePage m (a / 4096) := by
  rw [isFree, bissetn_eq _ (pageToPos_lt a), pageToPos_eq]
  rfl

theorem isFree_congr (m : Mmap) {p q : Nat} (h : p / 4096 = q / 4096) : isFree m p = isFree m q := by
  rw [isFree_eq_freePage, isFree_eq_freePage, h]

/-- When one word is changed in the bit of a page only, this page changes, and no other. -/
theorem isFree_update (m : Mmap) (p q : Nat) {word : BitVec 32} {b : Bool}
    (hword : ∀ j < 32, bissetn word j = if pageToPos p = j then b else bissetn (m (addrToIdx p)) j) :
    isFree (Function.update m (addrToIdx p) word) q = if p / 4096 = q / 4096 then b else isFree m q := by
  unfold isFree
  by_cases hi : addrToIdx q = addrToIdx p
  · rw [hi, Function.update_self, hword _ (pageToPos_lt q)]
    refine if_congr ?_ rfl rfl
    rw [← same_bit_iff]
    simp [hi]
  · rw [Function.update_of_ne hi, if_neg fun h => hi ((same_bit_iff p q).mpr h).1.symm]

theorem isFree_markFree (m : Mmap) (p q : Nat) :
    isFree (markFree m p) q = (isFree m q || decide (p / 4096 = q / 4096)) := by
  rw [markFree, isFree_update m p q (b := true) fun j hj => ?_]
  · split <;> simp [*]
  · rw [bissetn_bsetn _ (pageToPos_lt p) hj]
    split <;> simp [*]

theorem isFree_markUsed (m : Mmap) (p q : Nat) :
    isFree (markUsed m p) q = (isFree m q && !decide (p / 4096 = q / 4096)) := by
  rw [markUsed, isFree_update m p q (b := false) fun j hj => ?_]
  · split <;> simp [*]
  · rw [bissetn_bclrn _ (pageToPos_lt p) hj]
    split <;> simp [*]

/-! ## Ranges -/

/-- The address `a` lies on a page of the range. -/
def InRange (start num a : Nat) : Prop := ∃ i < num, pageOf start i / 4096 = a / 4096

instance (start num a : Nat) : Decidable (InRange start num a) :=
  inferInstanceAs (Decidable (∃ i < num, pageOf start i / 4096 = a / 4096))

theorem inRange_succ (start num a : Nat) :
    InRange start (num + 1) a ↔ InRange start num a ∨ pageOf start num / 4096 = a / 4096 := by
  constructor
  · rintro ⟨i, hi, h⟩
    rcases Nat.lt_succ_iff_lt_or_eq.mp hi with hi | rfl
    · exact Or.inl ⟨i, hi, h⟩
    · exact Or.inr h
  · rintro (⟨i, hi, h⟩ | h)
    · exact ⟨i, by omega, h⟩
    · exact ⟨num, by omega, h⟩

theorem isFree_markRangeUsed (m : Mmap) (start num q : Nat) :
    isFree (markRangeUsed m start num) q = (isFree m q && !decide (InRange start num q)) := by
  induction num with
  | zero => simp [markRangeUsed, InRange]
  | succ n ih =>
    have hs : markRangeUsed m start (n + 1) = markUsed (markRangeUsed m start n) (pageOf start n) := by
      simp [markRangeUsed, List.range_succ]
    rw [hs, isFree_markUsed, ih]
    simp only [inRange_succ, Bool.decide_or, Bool.not_or, Bool.and_assoc]

theorem isFree_markRangeFree (m : Mmap) (start num q : Nat) :
    isFree (markRangeFree m start num) q = (isFree m q || decide (InRange start num q)) := by
  induction num with
  | zero => simp [markRangeFree, InRange]
  | succ n ih =>
    have hs : markRangeFree m start (n + 1) = markFree (markRangeFree m start n) (pageOf start n) := by
      simp [markRangeFree, List.range_succ]
    rw [hs, isFree_markFree, ih]
    simp only [inRange_succ, Bool.decide_or, Bool.or_assoc]

theorem isRangeFree_iff (m : Mmap) (start num : Nat) :
    isRangeFree m start num = true ↔ ∀ i < num, isFree m (pageOf start i) = true := by
  simp [isRangeFree]

/-- A range of one page is that page. -/
theorem inRange_one {start : Nat} (h : start < 4294967296) (a : Nat) : InRange start 1 a ↔ start / 4096 = a / 4096 := by
  simp [InRange, pageOf, w32_of_lt h]

end Kos
