import Mathlib.Algebra.Ring.Nat
import Kos.User.Shell

/-!
# Quotes in a line

`__split` and `split_cmd` go through a line with the same three flags. They are a state machine over the characters (`Quotes`), which
says where the arguments end (`separators`) and what becomes of the characters in the line (`mark`).
-/

namespace Kos

open CChar

/-- The flags of the two loops. -/
structure Quotes where
  inquot : Bool
  indquot : Bool
  escaped : Bool
  deriving DecidableEq, Repr

namespace Quotes

/-- Outside quotes. -/
def off : Quotes := ⟨false, false, false⟩

def inside (f : Quotes) : Bool := f.inquot || f.indquot

/-- White space that ends an argument. -/
def ends (f : Quotes) (c : CChar) : Bool := isspace c && !f.inside

/-- A quote that counts. -/
def quotes (f : Quotes) (c : CChar) : Bool := (c = dquot || c = quot) && !f.escaped

/-- The flags after a character that does not end an argument. -/
def next (f : Quotes) (c : CChar) : Quotes :=
  if c = dquot ∧ ¬ f.escaped then { f with indquot := !f.indquot }
  else if c = quot ∧ ¬ f.escaped then { f with inquot := !f.inquot }
  else if c = backslash then { f with escaped := !f.escaped }
  else { f with escaped := false }

/-- What stands in the line for a character, once the loop has been there. -/
def mark (f : Quotes) (c : CChar) : CChar := if c = backslash ∧ ¬ f.escaped then esc else c

theorem ends_iff {f : Quotes} {c : CChar} : f.ends c = true ↔ isspace c = true ∧ f.inside = false := by simp [ends]

end Quotes

/-- The characters of a line that end an argument: white space outside of quotes. -/
def separators (f : Quotes) : CString → Nat
  | [] => 0
  | c :: line => if f.ends c then separators f line + 1 else separators (f.next c) line

/-- Storing `n` arguments fills the array at the last but one: the array is not enlarged for the last. -/
def FillsArray (n : Nat) : Prop := ∃ k, n = 8 * 2 ^ k + 1

/-- The flags of a state of `__split` or `split_cmd`. -/
def Split.flags (s : Split) : Quotes := ⟨s.inquot, s.indquot, s.escaped⟩

namespace CmdlineAux

/-! ## Copying without the characters marked -/

theorem esccpy_eq_filter (source : CString) (n : Nat) : esccpy source n = (source.take n).filter (· ≠ esc) := by
  induction source generalizing n with
  | nil => simp [esccpy]
  | cons c source ih =>
    cases n with
    | zero => simp [esccpy]
    | succ n =>
      have hlen : ((n + 1 : Nat) : Int) - 1 = n := by omega
      rw [esccpy, if_neg (by omega), hlen, ih, List.take_succ_cons, List.filter_cons]
      by_cases hc : c = esc
      · simp [hc]
      · simp [hc]

/-- What is extracted from a part of the line. -/
theorem extract_eq_filter {input part r : CString} {start : Nat} (h : input.drop start = part ++ r) :
    extract input start part.length = part.filter (· ≠ esc) := by
  rw [extract, h, esccpy_eq_filter, List.take_left]

theorem length_esccpy_le (source : CString) (n : Nat) : (esccpy source n).length ≤ n := by
  rw [esccpy_eq_filter]
  exact Nat.le_trans (List.length_filter_le _ _) (List.length_take_le n source)

theorem length_esccpy_lt {source : CString} {n : Nat} (h : esc ∈ source.take n) : (esccpy source n).length < n := by
  rw [esccpy_eq_filter]
  refine Nat.lt_of_lt_of_le ?_ (List.length_take_le n source)
  exact List.length_filter_lt_length_iff_exists.mpr ⟨esc, h, by simp⟩

theorem esccpy_eq_take {source : CString} {n : Nat} (h : esc ∉ source.take n) : esccpy source n = source.take n := by
  rw [esccpy_eq_filter, List.filter_eq_self]
  intro c hc
  simpa using ne_of_mem_of_not_mem hc h

/-! ## Room in the array -/

theorem store_eq_some {s s' : Split} {arg : CString} (h : s.store arg = some s') :
    s.argv.length < s.max ∧ s' = { s with argv := s.argv ++ [arg] } := by
  unfold Split.store at h
  split at h
  · exact ⟨‹_›, (Option.some.inj h).symm⟩
  · cases h

/-- `n` arguments are stored in an array that has room for `max`. -/
def Room (n max : Nat) : Prop := ∃ k, max = 8 * 2 ^ k ∧ n ≤ max ∧ (k = 0 ∨ 4 * 2 ^ k < n)

theorem Room.eq_iff {n max : Nat} (h : Room n max) : n = max ↔ FillsArray (n + 1) := by
  obtain ⟨k, rfl, hle, hk⟩ := h
  refine ⟨fun hn => ⟨k, by omega⟩, ?_⟩
  rintro ⟨j, hj⟩
  obtain rfl : n = 8 * 2 ^ j := by omega
  have hjk : j ≤ k := (Nat.pow_le_pow_iff_right (by decide : 1 < 2)).mp (by omega)
  rcases hk with rfl | hk
  · obtain rfl : j = 0 := by omega
    rfl
  · have hkj : 2 ^ k < 2 ^ (j + 1) := by rw [Nat.pow_succ]; omega
    have := (Nat.pow_lt_pow_iff_right (by decide : 1 < 2)).mp hkj
    rw [show j = k by omega]

/-- The loop makes room for one more. -/
theorem Room.grow {s : Split} (h : Room s.argv.length s.max) : s.argv.length < s.grow ∧ Room (s.argv.length + 1) s.grow := by
  obtain ⟨k, hmax, hle, hk⟩ := h
  have hpos : 0 < 2 ^ k := Nat.two_pow_pos k
  unfold Split.grow
  split
  next hfull =>
    rw [if_pos (by omega)]
    refine ⟨by omega, k + 1, by rw [hmax, Nat.pow_succ]; omega, by omega, .inr ?_⟩
    rw [Nat.pow_succ]
    omega
  next hroom => exact ⟨by omega, k, hmax, by omega, hk.imp_right fun _ => by omega⟩

/-! ## One character -/

section

variable {s : Split} {i : Nat} {c : CChar} {rest : CString}

theorem getElem?_of_drop_eq {input : CString} (h : input.drop i = c :: rest) : input[i]? = some c := by
  rw [← List.head?_drop, h]
  rfl

theorem drop_succ_of_drop_eq {input : CString} (h : input.drop i = c :: rest) : input.drop (i + 1) = rest := by
  rw [← List.drop_drop, h]
  rfl

theorem set_of_drop_eq {input : CString} (h : input.drop i = c :: rest) : input.set i c = input := by
  obtain ⟨hi, hc⟩ := List.getElem?_eq_some_iff.mp (getElem?_of_drop_eq h)
  rw [← hc, List.set_getElem_self]

/-- The state after a character that does not end an argument. -/
def scanned (s : Split) (i : Nat) (c : CChar) (omitq : Nat) : Split :=
  { s with
    input := s.input.set i (s.flags.mark c)
    inquot := (s.flags.next c).inquot
    indquot := (s.flags.next c).indquot
    escaped := (s.flags.next c).escaped
    omitq := omitq }

@[simp] theorem flags_scanned (omitq : Nat) : (scanned s i c omitq).flags = s.flags.next c := rfl

theorem drop_scanned (h : s.input.drop i = c :: rest) (omitq : Nat) : (scanned s i c omitq).input.drop (i + 1) = rest := by
  rw [scanned, List.drop_set_of_lt (Nat.lt_succ_self i)]
  exact drop_succ_of_drop_eq h

/-- The body of a loop which, like those of `__split` and `split_cmd`, sets `omitq` to `omitq'` at a quote. -/
def scanChar (s : Split) (i : Nat) (cur : CChar) (space : Option Split) (omitq' : Nat) : Option Split :=
  if isspace cur ∧ ¬ (s.inquot ∨ s.indquot) then space
  else if cur = dquot ∧ ¬ s.escaped then some { s with indquot := !s.indquot, omitq := omitq' }
  else if cur = quot ∧ ¬ s.escaped then some { s with inquot := !s.inquot, omitq := omitq' }
  else if cur = backslash then
    some { s with input := if ¬ s.escaped then s.input.set i esc else s.input, escaped := !s.escaped }
  else some { s with escaped := false }

theorem scanChar_eq (h : s.input.drop i = c :: rest) (space : Option Split) (omitq' : Nat) :
    scanChar s i c space omitq' =
      if s.flags.ends c then space else some (scanned s i c (if s.flags.quotes c then omitq' else s.omitq)) := by
  have hset := set_of_drop_eq h
  have hends : s.flags.ends c = true ↔ isspace c = true ∧ ¬ (s.inquot = true ∨ s.indquot = true) := by
    simp [Quotes.ends_iff, Quotes.inside, Split.flags]
  unfold scanChar
  by_cases hspace : isspace c = true ∧ ¬ (s.inquot = true ∨ s.indquot = true)
  · rw [if_pos hspace, if_pos (hends.mpr hspace)]
  rw [if_neg hspace, if_neg fun h' => hspace (hends.mp h')]
  have hd : ¬ dquot = backslash := by decide
  have hq : ¬ quot = backslash := by decide
  have hdq : ¬ quot = dquot := by decide
  by_cases hesc : s.escaped = true
  · by_cases hback : c = backslash
    · subst hback
      simp [hesc, scanned, Quotes.mark, Quotes.next, Quotes.quotes, Split.flags, hset]
    · simp [hesc, hback, scanned, Quotes.mark, Quotes.next, Quotes.quotes, Split.flags, hset]
  · simp only [Bool.not_eq_true] at hesc
    by_cases hdquot : c = dquot
    · subst hdquot
      simp [hesc, hd, scanned, Quotes.mark, Quotes.next, Quotes.quotes, Split.flags, hset]
    by_cases hquot : c = quot
    · subst hquot
      simp [hesc, hq, hdq, scanned, Quotes.mark, Quotes.next, Quotes.quotes, Split.flags, hset]
    by_cases hback : c = backslash
    · subst hback
      simp [hesc, hdquot, hquot, scanned, Quotes.mark, Quotes.next, Quotes.quotes, Split.flags]
    · simp [hesc, hdquot, hquot, hback, scanned, Quotes.mark, Quotes.next, Quotes.quotes, Split.flags, hset]

theorem splitChar_eq (h : s.input.drop i = c :: rest) :
    s.char i = if s.flags.ends c then s.space i else some (scanned s i c (if s.flags.quotes c then s.omitq + 1 else s.omitq)) := by
  rw [← scanChar_eq h, Split.char, getElem?_of_drop_eq h]
  rfl

theorem shellChar_eq (h : s.input.drop i = c :: rest) :
    Shell.char s i = if s.flags.ends c then Shell.space s i else some (scanned s i c (if s.flags.quotes c then 1 else s.omitq)) := by
  rw [← scanChar_eq h, Shell.char, getElem?_of_drop_eq h]
  rfl

end

/-- The loop of `__split` stores an argument at each separator, and makes room for it. -/
theorem split_separators (rest : CString) {s : Split} {i : Nat} (hrest : s.input.drop i = rest) (hroom : Room s.argv.length s.max) :
    ∃ s', (List.range' i rest.length).foldlM Split.char s = some s' ∧
      s'.argv.length = s.argv.length + separators s.flags rest ∧ Room s'.argv.length s'.max := by
  induction rest generalizing s i with
  | nil => exact ⟨s, rfl, rfl, hroom⟩
  | cons c rest ih =>
    rw [List.length_cons, List.range'_succ, List.foldlM_cons, splitChar_eq hrest, separators]
    split
    next =>
      rw [Split.space, Split.store, if_pos hroom.grow.1]
      simp only [Option.bind_eq_bind, Option.bind_some]
      obtain ⟨s', hs', hlen, hroom'⟩ := ih
        (s := { s with start := i + 1, omitq := 0, max := s.grow, argv := s.argv ++ [_] }) (i := i + 1)
        (drop_succ_of_drop_eq hrest) (by rw [List.length_append]; exact hroom.grow.2)
      refine ⟨s', hs', ?_, hroom'⟩
      rw [hlen, List.length_append, List.length_singleton]
      simp only [Split.flags]
      omega
    next => exact ih (drop_scanned hrest _) hroom

end CmdlineAux

end Kos
