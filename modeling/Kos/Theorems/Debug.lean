import Kos.Debug
import Kos.Lemmas.Format

/-!
# Debug messages in their buffers

Every message of `vm_map_string` and `sys_open` is short but for the string of the process in it, which has any length. The buffers are
large enough exactly for strings of at most 231 characters, and a little less in `sys_open` if the flags are a long number.
-/

namespace Kos

/-- A message and its NUL fit into the buffer. -/
def DbgCall.Fits (str : BitVec 32 → CString) (call : DbgCall) : Prop :=
  ∃ bytes, call.written str = some bytes ∧ bytes.length ≤ dbgBufferSize

/-- What `%d` writes. -/
def decimal (v : BitVec 32) : List UInt8 := (if v.toInt < 0 then ['-'.toUInt8] else []) ++ numeral 10 v.toInt.natAbs

namespace DebugAux

open FormatAux Piece

theorem space_ne_percent : CChar.space.1 ≠ '%'.toUInt8 := by decide

/-- Text without conversions. -/
def lits (s : CString) : List Piece := s.map fun c => if h : c.1 ≠ '%'.toUInt8 then .lit c h else .lit .space space_ne_percent

/-- A conversion without flag and width. -/
def bareConv (k : Kind) (arg : BitVec 32) : Conv := ⟨k, false, [], arg, fun _ h => by cases h⟩

/-- A message: text, and conversions with the text behind each of them. -/
def message (text : CString) (convs : List (Kind × BitVec 32 × CString)) : List Piece :=
  lits text ++ convs.flatMap fun c => .conv (bareConv c.1 c.2.1) :: lits c.2.2

/-- The number of characters that the conversions of a message and the text behind them take. -/
def convsLength (str : BitVec 32 → CString) : List (Kind × BitVec 32 × CString) → Nat
  | [] => 0
  | (k, arg, rest) :: convs => ((bareConv k arg).written str).length + rest.length + convsLength str convs

section

variable {str : BitVec 32 → CString}

variable (str) in
theorem length_writtenAll_lits (s : CString) : (writtenAll str (lits s)).length = s.length := by
  induction s with
  | nil => rfl
  | cons c s ih =>
    simp only [writtenAll, lits, List.map_cons, List.flatMap_cons, List.length_append, List.length_cons] at ih ⊢
    rw [ih]
    split <;> simp [Piece.written, Nat.add_comm]

theorem length_writtenAll_message (text : CString) (convs : List (Kind × BitVec 32 × CString)) :
    (writtenAll str (message text convs)).length = text.length + convsLength str convs := by
  have hconvs : (writtenAll str (convs.flatMap fun c => .conv (bareConv c.1 c.2.1) :: lits c.2.2)).length = convsLength str convs := by
    induction convs with
    | nil => rfl
    | cons c convs ih =>
      have hlits := length_writtenAll_lits str c.2.2
      simp only [writtenAll] at ih hlits ⊢
      rw [List.flatMap_cons, List.flatMap_append, List.flatMap_cons, List.length_append, List.length_append, ih, hlits]
      rfl
  have hlits := length_writtenAll_lits str text
  simp only [writtenAll, message, List.flatMap_append, List.length_append] at hlits hconvs ⊢
  rw [hlits, hconvs]

theorem narrow_message (text : CString) (convs : List (Kind × BitVec 32 × CString)) : ∀ q ∈ message text convs, Narrow q := by
  have hlits (s : CString) : ∀ q ∈ lits s, Narrow q := by
    intro q hq
    obtain ⟨c, -, rfl⟩ := List.mem_map.mp hq
    split <;> trivial
  intro q hq
  rcases List.mem_append.mp hq with hq | hq
  · exact hlits text q hq
  · obtain ⟨c, -, hq⟩ := List.mem_flatMap.mp hq
    rcases List.mem_cons.mp hq with rfl | hq
    · exact show 0 < 2147483648 by decide
    · exact hlits _ q hq

/-- The length of a message. -/
theorem fits_message_iff {call : DbgCall} (text : CString) (convs : List (Kind × BitVec 32 × CString))
    (hfmt : call.fmt = spellAll (message text convs)) (hargs : call.args = argsAll (message text convs)) :
    call.Fits str ↔ text.length + convsLength str convs ≤ 255 := by
  have hstrafmt := strafmt_spellAll str (narrow_message text convs) []
  rw [List.append_nil, ← hfmt, ← hargs] at hstrafmt
  simp only [DbgCall.Fits, DbgCall.written, hstrafmt, Option.map_some, Option.some.injEq, exists_eq_left', List.length_append,
    List.length_singleton, length_writtenAll_message, dbgBufferSize]
  omega

theorem length_written_p (arg : BitVec 32) : ((bareConv .p arg).written str).length = 10 := by
  have hlen := length_numeral_le (by decide) (show arg.toNat < 16 ^ 8 from arg.isLt) (by decide)
  simp only [Conv.written, bareConv, Conv.padLeft, List.length_cons, List.length_append, List.length_replicate]
  omega

theorem length_written_d (arg : BitVec 32) : ((bareConv .d arg).written str).length = (decimal arg).length := by
  by_cases hneg : arg.toInt < 0
  · simp [Conv.written, bareConv, decimal, Conv.widthNat, Conv.padLeft, hneg]
  · simp [Conv.written, bareConv, decimal, Conv.widthNat, Conv.padLeft, hneg]

theorem length_decimal_le (v : BitVec 32) : (decimal v).length ≤ 11 := by
  have habs : v.toInt.natAbs < 10 ^ 10 := Nat.lt_of_lt_of_le (natAbs_toInt_lt v) (by decide)
  have hlen := length_numeral_le (by decide) habs (by decide)
  rw [decimal, List.length_append]
  split <;> simp only [List.length_singleton, List.length_nil] <;> omega

variable (str) in
/-- A string that fits is written as it is. -/
theorem length_written_s_le_iff (arg : BitVec 32) {n : Nat} (hn : n < 2147483648) :
    ((bareConv .s arg).written str).length ≤ n ↔ (str arg).length ≤ n := by
  have hle : (str arg).length ≤ (bufsp (str arg) 0 ' '.toUInt8).length := by
    rw [bufsp, List.length_append, length_bufs]
    omega
  have heq (h : (str arg).length < 2147483648) : (bufsp (str arg) 0 ' '.toUInt8).length = (str arg).length := by
    have hpad := bufsp_eq h 0 ' '.toUInt8
    simp only [Nat.cast_zero] at hpad
    simp [hpad, Conv.padLeft, length_bufs]
  show (bufsp (str arg) 0 ' '.toUInt8).length ≤ n ↔ (str arg).length ≤ n
  refine ⟨fun h => by omega, fun h => ?_⟩
  rw [heq (by omega)]
  exact h

/-- The message of `vm_map_string` with the string in it. -/
theorem fits_str_iff (m : MapString) :
    DbgCall.Fits str ⟨literal "  str = %p - '%s'\n", [m.str, m.str]⟩ ↔ (str m.str).length ≤ 231 := by
  refine (fits_message_iff (literal "  str = ") [(.p, m.str, literal " - '"), (.s, m.str, literal "'\n")] rfl rfl).trans ?_
  have htext : (literal "  str = ").length = 8 ∧ (literal " - '").length = 4 ∧ (literal "'\n").length = 2 := by decide
  have hs := length_written_s_le_iff str m.str (n := 231) (by omega)
  simp only [convsLength, length_written_p]
  omega

/-- The message of `sys_open` with the name in it. -/
theorem fits_name_iff (flags : BitVec 32) (m : MapString) :
    DbgCall.Fits str ⟨literal "sys_open(\"%s\", %d)\n", [m.str, flags]⟩ ↔ (str m.str).length + (decimal flags).length ≤ 240 := by
  refine (fits_message_iff (literal "sys_open(\"") [(.s, m.str, literal "\", "), (.d, flags, literal ")\n")] rfl rfl).trans ?_
  have htext : (literal "sys_open(\"").length = 10 ∧ (literal "\", ").length = 3 ∧ (literal ")\n").length = 2 := by decide
  have hd := length_decimal_le flags
  have hs := length_written_s_le_iff str m.str (n := 240 - (decimal flags).length) (by omega)
  simp only [convsLength, length_written_d]
  omega

/-- A message without conversions fits if it is short. -/
theorem fits_text {text : CString} (hfmt : text = spellAll (message text [])) (hargs : argsAll (message text []) = [])
    (hlen : text.length ≤ 255) : DbgCall.Fits str ⟨text, []⟩ :=
  (fits_message_iff text [] hfmt hargs.symm).mpr hlen

/-- A message with one pointer or number fits if the text around it is short. -/
theorem fits_number (text rest : CString) {fmt : CString} {k : Kind} {arg : BitVec 32} (hk : k = .p ∨ k = .d)
    (hfmt : fmt = spellAll (message text [(k, arg, rest)])) (hargs : [arg] = argsAll (message text [(k, arg, rest)]))
    (hlen : text.length + rest.length ≤ 244) : DbgCall.Fits str ⟨fmt, [arg]⟩ := by
  rw [fits_message_iff text [(k, arg, rest)] hfmt hargs]
  have hconv : ((bareConv k arg).written str).length ≤ 11 := by
    rcases hk with rfl | rfl
    · rw [length_written_p]
      decide
    · rw [length_written_d]
      exact length_decimal_le arg
  simp only [convsLength]
  omega

/-- The message at the beginning of `sys_open`. -/
theorem fits_call (fname flags : BitVec 32) : DbgCall.Fits str ⟨literal "sys_open(%p, %d) \n", [fname, flags]⟩ := by
  refine (fits_message_iff (literal "sys_open(") [(.p, fname, literal ", "), (.d, flags, literal ") \n")] rfl rfl).mpr ?_
  have htext : (literal "sys_open(").length = 9 ∧ (literal ", ").length = 2 ∧ (literal ") \n").length = 3 := by decide
  have hd := length_decimal_le flags
  simp only [convsLength, length_written_p, length_written_d]
  omega

theorem vmMapString_fits_iff (m : MapString) : (∀ call ∈ vmMapStringMessages m, call.Fits str) ↔ (str m.str).length ≤ 231 := by
  have hlength : ∀ call ∈ if m.length then [(⟨literal "  assigning length + 1\n", []⟩ : DbgCall)] else [], call.Fits str := by
    split
    · rintro call (_ | ⟨_, h⟩)
      · exact fits_text rfl rfl (by decide)
      · cases h
    · exact fun _ h => by cases h
  simp only [vmMapStringMessages, List.forall_mem_append, List.forall_mem_cons]
  constructor
  · rintro ⟨⟨-, -, -, -, -, -, hstr, -⟩, -⟩
    exact (fits_str_iff m).mp hstr
  · intro hstr
    refine ⟨⟨fits_text rfl rfl (by decide), ?_, ?_, ?_, ?_, ?_, (fits_str_iff m).mpr hstr, fun _ h => by cases h⟩, hlength⟩
    · exact fits_number (literal "  vaddr = ") (literal "\n") (.inl rfl) rfl rfl (by decide)
    · exact fits_number (literal "  info_addr = ") (literal "\n") (.inl rfl) rfl rfl (by decide)
    · exact fits_number (literal "  info = ") (literal "\n") (.inl rfl) rfl rfl (by decide)
    · exact fits_number (literal "  info->ptr = ") (literal "\n") (.inl rfl) rfl rfl (by decide)
    · exact fits_number (literal "  info->len = ") (literal "\n") (.inr rfl) rfl rfl (by decide)

end

end DebugAux

end Kos
