import Kos.Lemmas.Cmdline

/-!
# The loop of the shell over a line

What `split_cmd` stores is a function of the characters that it goes through (`segments`): it cuts the line at its separators, and leaves
out the first and the last character of every part with a quote in it, and the characters marked.
-/

namespace Kos

open CChar

namespace Shell

/-- The argument that is made of a part of the line, `quoted` if there was a quote in it. -/
def content (quoted : Bool) (seg : CString) : CString := (if quoted then seg.tail.dropLast else seg).filter (· ≠ esc)

/-- The arguments of a line when `seg` was read since the last separator. -/
def segments (f : Quotes) (quoted : Bool) (seg : CString) : CString → List CString
  | [] => [content quoted seg]
  | c :: rest =>
    if f.ends c then content quoted seg :: segments f false [] rest
    else segments (f.next c) (quoted || f.quotes c) (seg ++ [f.mark c]) rest

end Shell

namespace ShellAux

open Shell CmdlineAux

theorem inside_next_of_quotes {f : Quotes} {c : CChar} (h : f.quotes c = true) (hin : f.inside = false) : (f.next c).inside = true := by
  obtain ⟨inquot, indquot, escaped⟩ := f
  simp only [Quotes.inside, Bool.or_eq_false_iff] at hin
  simp only [Quotes.quotes, Bool.and_eq_true, Bool.or_eq_true, decide_eq_true_eq, Bool.not_eq_true'] at h
  obtain ⟨rfl, rfl⟩ := hin
  obtain ⟨hc, rfl⟩ := h
  rcases hc with rfl | rfl <;> rfl

/-- The variables of the loop at `i`: `seg` was read since the last separator, `rest` is left. -/
structure Cut (s : Split) (i : Nat) (seg rest : CString) : Prop where
  line : s.input.drop s.start = seg ++ rest
  here : s.start + seg.length = i
  fresh : seg = [] → s.flags.inside = false ∧ s.omitq = 0
  opened : seg.length = 1 → s.omitq ≠ 0 → s.flags.inside = true

section

variable {s : Split} {i : Nat} {c : CChar} {seg rest : CString}

theorem cut_new (input : CString) : Cut (Shell.new input) 0 [] input :=
  ⟨rfl, rfl, fun _ => ⟨rfl, rfl⟩, fun h => by cases h⟩

theorem Cut.drop (h : Cut s i seg rest) : s.input.drop i = rest := by
  rw [← h.here, ← List.drop_drop, h.line, List.drop_left]

/-- A character that does not end an argument. -/
theorem Cut.scanned (h : Cut s i seg (c :: rest)) (omitq : Nat) (homitq : omitq ≠ 0 → s.omitq ≠ 0 ∨ s.flags.quotes c = true) :
    Cut (scanned s i c omitq) (i + 1) (seg ++ [s.flags.mark c]) rest where
  line := by
    have hset : s.input.set i (s.flags.mark c) = s.input.set (s.start + seg.length) (s.flags.mark c) := by rw [h.here]
    simp only [CmdlineAux.scanned]
    rw [hset, List.drop_set, if_neg (by omega), h.line, Nat.add_sub_cancel_left, List.set_append_right _ _ (Nat.le_refl _), Nat.sub_self,
      List.set_cons_zero, List.append_assoc, List.singleton_append]
  here := by
    rw [List.length_append, List.length_singleton, ← Nat.add_assoc]
    exact congrArg (· + 1) h.here
  fresh := fun hnil => by simp at hnil
  opened := fun hone hne => by
    obtain rfl : seg = [] := by simpa using hone
    obtain ⟨hin, hzero⟩ := h.fresh rfl
    exact inside_next_of_quotes ((homitq hne).resolve_left fun hs => hs hzero) hin

/-- What is extracted at a separator, or at the end of the line. -/
theorem Cut.extract (h : Cut s i seg rest) (hend : s.flags.inside = false ∨ rest = []) :
    extract s.input (if s.omitq ≠ 0 then s.start + 1 else s.start)
      ((if s.omitq ≠ 0 then (i : Int) - 1 else i) - (if s.omitq ≠ 0 then s.start + 1 else s.start : Nat)) =
      content (decide (s.omitq ≠ 0)) seg := by
  have hhere := h.here
  by_cases homitq : s.omitq = 0
  · simp only [homitq, ne_eq, not_true_eq_false, if_false, decide_false, content, Bool.false_eq_true]
    rw [show (i : Int) - s.start = seg.length by omega]
    exact extract_eq_filter h.line
  · simp only [homitq, ne_eq, not_false_eq_true, if_true, decide_true, content]
    cases seg with
    | nil => exact absurd (h.fresh rfl).2 homitq
    | cons x seg =>
      have hdrop : s.input.drop (s.start + 1) = seg ++ rest := by rw [← List.drop_drop, h.line]; rfl
      rw [List.length_cons] at hhere
      rcases eq_or_ne seg [] with rfl | hseg
      · -- The quote that was just opened is the end of the line.
        obtain rfl := hend.resolve_left fun hin => by simp [h.opened rfl homitq] at hin
        simp [Kos.extract, hdrop, esccpy]
      · have hlen : 0 < seg.length := List.length_pos_iff.mpr hseg
        rw [show (i : Int) - 1 - (s.start + 1 : Nat) = (seg.dropLast.length : Nat) by rw [List.length_dropLast]; omega, List.tail_cons]
        refine extract_eq_filter (r := [seg.getLast hseg] ++ rest) ?_
        rw [hdrop, ← List.append_assoc, List.dropLast_concat_getLast hseg]

theorem Cut.space (h : Cut s i seg (c :: rest)) (hin : s.flags.inside = false) :
    Cut { s with start := i + 1, omitq := 0, argv := s.argv ++ [content (decide (s.omitq ≠ 0)) seg] } (i + 1) [] rest where
  line := drop_succ_of_drop_eq h.drop
  here := rfl
  fresh := fun _ => ⟨hin, rfl⟩
  opened := fun hone => by cases hone

/-- What the rest of the line adds to the arguments, if there is room for all of them. -/
theorem run_eq (rest : CString) (h : Cut s i seg rest) (hmax : s.max = 256) (hargv : s.argv.length ≤ 256) :
    (((List.range' i rest.length).foldlM Shell.char s).bind (finish · (i + rest.length : Nat))).map (·.argv) =
      if s.argv.length + separators s.flags rest < 256 then some (s.argv ++ segments s.flags (decide (s.omitq ≠ 0)) seg rest) else none := by
  induction rest generalizing s i seg with
  | nil =>
    rw [List.length_nil, List.range'_zero, List.foldlM_nil, separators, segments]
    simp only [Option.pure_def, Option.bind_some, finish, Nat.add_zero, h.extract (.inr rfl), Split.store, hmax]
    split <;> rfl
  | cons c rest ih =>
    rw [List.length_cons, List.range'_succ, List.foldlM_cons, shellChar_eq h.drop, separators, segments]
    rw [show i + (rest.length + 1) = i + 1 + rest.length by omega]
    split
    next hends =>
      have hin : s.flags.inside = false := (Quotes.ends_iff.mp hends).2
      simp only [Shell.space, h.extract (.inl hin), Split.store, hmax]
      split
      next hlt =>
        have hrun := ih (h.space hin) hmax (by rw [List.length_append]; exact hlt)
        simp only [hmax, Option.bind_eq_bind, Option.bind_some] at hrun ⊢
        rw [hrun, List.length_append, List.length_singleton, List.append_assoc, List.singleton_append,
          show s.argv.length + (separators s.flags rest + 1) = s.argv.length + 1 + separators s.flags rest by omega]
        rfl
      next hlt =>
        rw [if_neg (by omega)]
        rfl
    next =>
      have homitq : (if s.flags.quotes c then 1 else s.omitq) ≠ 0 → s.omitq ≠ 0 ∨ s.flags.quotes c = true := by
        split
        next hq => exact fun _ => .inr hq
        next => exact fun h0 => .inl h0
      have hrun := ih (h.scanned _ homitq) hmax hargv
      simp only [Option.bind_eq_bind, Option.bind_some] at hrun ⊢
      rw [hrun]
      have hor : decide ((if s.flags.quotes c then 1 else s.omitq) ≠ 0) = (decide (s.omitq ≠ 0) || s.flags.quotes c) := by
        cases hq : s.flags.quotes c <;> simp
      simp only [flags_scanned]
      rw [← hor]
      rfl

end

/-- The arguments that `split_cmd` makes of a line. -/
theorem splitCmd_eq (line : CString) :
    splitCmd line = if separators .off line < 256 then some (segments .off false [] line) else none := by
  have hrun := run_eq line (cut_new line) rfl (Nat.zero_le _)
  rw [Nat.zero_add] at hrun
  rw [splitCmd, List.range_eq_range', hrun]
  simp only [Shell.new, Split.new, List.length_nil, Nat.zero_add, List.nil_append]
  rfl

end ShellAux

end Kos
