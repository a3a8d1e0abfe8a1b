import Kos.Lemmas.Shell

/-!
# The arrays that arguments are stored in

Both `__split` and `split_cmd` store an argument at every separator and one at the end. The array of `__split` grows in the loop, but for
the last argument only to the number of those it holds already, so one is stored behind the end where it is full by then: after 8, 16,
32, … separators. The array of `split_cmd` does not grow at all.
-/

namespace Kos

open CChar CmdlineAux ShellAux

/-- `__split` stays in its array unless the last argument finds it full, and `split_cmd` in the 256 entries of its own if a line has no
more than 255 separators. -/
theorem stores_inside_iff (input : CString) :
    ((split input).isSome ↔ ¬ FillsArray (separators .off input + 1)) ∧ ((splitCmd input).isSome ↔ separators .off input ≤ 255) := by
  constructor
  · obtain ⟨s, hs, hlen, hroom⟩ :=
      split_separators input (s := .new input) (i := 0) rfl ⟨0, rfl, Nat.zero_le _, .inl rfl⟩
    have hlen : s.argv.length = separators .off input := hlen.trans (Nat.zero_add _)
    have hfull := hroom.eq_iff
    obtain ⟨k, -, hle, -⟩ := hroom
    rw [split, List.range_eq_range', hs, Option.bind_some, Option.isSome_map, Split.finish, Split.store, ← hlen, ← hfull]
    simp only
    split_ifs <;> simp <;> omega
  · rw [splitCmd_eq]
    split_ifs <;> simp <;> omega

/-- Nine words, and one blank between each two of them. -/
def nineWords : CString := buildCmd (List.replicate 9 [a])

/-- 257 words. -/
def manyWords : CString := buildCmd (List.replicate 257 [a])

theorem stores_outside : split nineWords = none ∧ manyWords.length ≤ 1023 ∧ splitCmd manyWords = none := by
  refine ⟨by decide, by decide +kernel, ?_⟩
  rw [splitCmd_eq, if_neg (by decide +kernel)]

end Kos
