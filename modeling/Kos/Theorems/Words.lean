import Kos.Lemmas.Words

/-!
# The words of a command

`split_cmd` gets the words of the grammar only from simple lines. It makes an argument of every white space character outside quotes,
also of the second of two, and of one that a backslash stands before. Of a part with a quote in it, it leaves out the first and the last
character, whatever they are, and copies all other quotes.
-/

namespace Kos

open CChar Shell ShellAux

theorem trimRightFrom_last {str : CString} {n : Nat} (hn : n ≤ str.length) {c : CChar} (h : (trimRightFrom str n).getLast? = some c) :
    isspace c = false := by
  induction n with
  | zero => cases h
  | succ n ih =>
    rw [trimRightFrom, List.getElem?_eq_getElem hn] at h
    simp only at h
    split at h
    next => exact ih (Nat.le_of_succ_le hn) h
    next hspace =>
      rw [List.take_add_one, List.getElem?_eq_getElem hn, Option.toList_some, List.getLast?_concat] at h
      cases h
      simpa using hspace

/-- A line that `prepare` accepts does not end in white space. -/
theorem prepare_last {input line : CString} (h : prepare input = some line) {c : CChar} (hc : line.getLast? = some c) :
    isspace c = false := by
  unfold prepare at h
  simp only at h
  split at h
  · cases h
    exact trimRightFrom_last (Nat.le_refl _) hc
  · cases h

/-- `split_cmd` makes the words of the grammar of a line with balanced quotes exactly if the line is simple, has no `ESC` in it, and has
room in the array. -/
theorem splitCmd_words_iff {input line : CString} {ws : List CString} (hline : prepare input = some line) (hws : words line = some ws) :
    splitCmd line = some ws ↔ Simple .start line = true ∧ esc ∉ line ∧ separators .off line ≤ 255 := by
  rw [splitCmd_eq]
  by_cases hesc : esc ∈ line
  · -- `ESC` is lost in the arguments.
    obtain ⟨w, hw, hmem⟩ := esc_mem_lex hws (fun k hk => by cases hk) (.inr hesc)
    refine ⟨fun h => ?_, fun h => absurd hesc h.2.1⟩
    split at h
    next =>
      cases h
      exact absurd hmem (esc_not_mem_segments _ _ _ _ w hw)
    next => cases h
  · have hsettled : Settled line ws := settled ⟨hesc, fun c => prepare_last hline⟩ hws
    split
    next hlt => simp [hsettled.symm, hesc, Nat.le_of_lt_succ hlt]
    next hlt =>
      exact ⟨fun h => (by cases h), fun h => (by omega)⟩

/-- `a "b a" 'b\' a'`, with blanks around. -/
def quotedLine : CString :=
  [space, a, space, dquot, b, space, a, dquot, space, quot, b, backslash, quot, space, a, quot, space]

theorem splitCmd_quotedLine :
    ∃ line, prepare quotedLine = some line ∧ splitCmd line = some [[a], [b, space, a], [b, quot, space, a]] :=
  ⟨(quotedLine.drop 1).dropLast, by decide,
    (splitCmd_words_iff (show prepare quotedLine = some (quotedLine.drop 1).dropLast by decide) (by decide)).mpr (by decide)⟩

/-- Two blanks between the words, a quote in a word, and a blank that a backslash stands before. -/
theorem splitCmd_not_words :
    (prepare [a, space, space, b] = some [a, space, space, b] ∧ words [a, space, space, b] = some [[a], [b]] ∧
      splitCmd [a, space, space, b] = some [[a], [], [b]]) ∧
    (prepare [a, dquot, b, dquot] = some [a, dquot, b, dquot] ∧ words [a, dquot, b, dquot] = some [[a, b]] ∧
      splitCmd [a, dquot, b, dquot] = some [[dquot, b]]) ∧
    (prepare [a, backslash, space, b] = some [a, backslash, space, b] ∧ words [a, backslash, space, b] = some [[a, space, b]] ∧
      splitCmd [a, backslash, space, b] = some [[a], [b]]) := by
  decide

end Kos
