import Kos.Lemmas.Format

/-!
# Formatted text

`strafmt` swaps `%i` and `%u`: it fetches an unsigned number for the first and a signed one for the second. It writes the sign of a
number before the blanks that fill up its width, does not pad a character, and writes `%p` with eight digits behind `0x`. A format that
ends behind a `%` makes it go on behind the end of the format.
-/

namespace Kos

open FormatAux

/-- The text of a format is the one that it says, and its length is returned, exactly if all its conversions are plain and the text is no
longer than an `int` can say. A format is read only up to its end exactly if it does not end before the character of a conversion. -/
theorem strafmt_iff (str : BitVec 32 → CString) :
    (∀ (ps : List Piece) (rest : List (BitVec 32)),
      strafmt str (Piece.spellAll ps) (Piece.argsAll ps ++ rest) = some (Piece.renderAll str ps, ((Piece.renderAll str ps).length : Int)) ↔
        (∀ q ∈ ps, q.Plain) ∧ (Piece.renderAll str ps).length < 2147483648) ∧
      ∀ (fmt : CString) (args : List (BitVec 32)), (strafmt str fmt args).isSome ↔ Finished false fmt = true := by
  refine ⟨fun ps rest => ?_, fun fmt args => ?_⟩
  · constructor
    · intro h
      have hlen : (Piece.renderAll str ps).length < 2147483648 := by
        obtain ⟨text, -, htext⟩ := Option.map_eq_some_iff.mp h
        obtain ⟨rfl, hret⟩ := Prod.mk.inj htext
        have := Int.bmod_lt (x := ((Piece.renderAll str ps).length : Int)) (m := 4294967296) (by decide)
        simp only [int32] at hret
        omega
      rw [strafmt_spellAll str fun q hq => (narrow_of_length hlen hq).1, Option.some.injEq, Prod.mk.injEq] at h
      exact ⟨(renderAll_eq_iff fun q hq => (narrow_of_length hlen hq).2).mp h.1, hlen⟩
    · rintro ⟨hplain, hlen⟩
      rw [strafmt_spellAll str fun q hq => (narrow_of_length hlen hq).1, (renderAll_eq_iff fun q hq => (narrow_of_length hlen hq).2).mpr hplain, int32_of_le (by omega) (by omega)]
  · rw [strafmt, Option.isSome_map, strafmtFrom_isSome]
    rfl

/-- `-1` as `%u` and as `%i`, `-1` with blanks, and a `%` at the end. -/
theorem strafmt_deviates :
    strafmt (fun _ => []) [.of '%'.toUInt8, .of 'u'.toUInt8] [4294967295] = some (['-', '1'].map Char.toUInt8, 2) ∧
    strafmt (fun _ => []) [.of '%'.toUInt8, .of 'i'.toUInt8] [4294967295] =
      some (['4', '2', '9', '4', '9', '6', '7', '2', '9', '5'].map Char.toUInt8, 10) ∧
    strafmt (fun _ => []) [.of '%'.toUInt8, .of '4'.toUInt8, .of 'd'.toUInt8] [4294967295] =
      some (['-', ' ', ' ', '1'].map Char.toUInt8, 4) ∧
    strafmt (fun _ => []) [.of '%'.toUInt8] [] = none := by
  decide

end Kos
