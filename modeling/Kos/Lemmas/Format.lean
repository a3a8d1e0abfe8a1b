import Mathlib.Data.List.TakeWhile
import Kos.Lib.Digits
import Kos.Util.Format

/-!
# What a format says and what `strafmt` writes

A format is a list of pieces (`Piece`): characters, and conversions together with their arguments. `Conv.rendering` is what should be
written for a conversion, and `Conv.written` what is written. They differ for some conversions, and where they do, nothing that follows
makes up for it: behind a conversion with too few characters, what is written lacks blanks or zeroes (`Fills`), and it cannot catch up.
-/

namespace Kos

/-- The digit `d` of a base up to 36. -/
def digitChar (d : Nat) : UInt8 := UInt8.ofNat (if d < 10 then 48 + d else 55 + d)

/-- A number in a base, without leading zeroes. -/
def numeral (base n : Nat) : List UInt8 := if n = 0 then [digitChar 0] else ((Nat.digits base n).map digitChar).reverse

/-- A character of a string; it is a blank for NUL. -/
def CChar.of (c : UInt8) : CChar := if h : c ≠ 0 then ⟨c, h⟩ else CChar.space

/-- The conversions. -/
inductive Kind where
  | d | i | u | x | o | b | p | c | s | percent
  deriving DecidableEq, Repr

def Kind.char : Kind → UInt8
  | .d => 'd'.toUInt8
  | .i => 'i'.toUInt8
  | .u => 'u'.toUInt8
  | .x => 'x'.toUInt8
  | .o => 'o'.toUInt8
  | .b => 'b'.toUInt8
  | .p => 'p'.toUInt8
  | .c => 'c'.toUInt8
  | .s => 's'.toUInt8
  | .percent => '%'.toUInt8

/-- A conversion with its flag, its width and its argument. -/
structure Conv where
  kind : Kind
  zero : Bool
  width : List (Fin 10)
  arg : BitVec 32
  /-- A `0` right behind the `%` is the flag. -/
  flag : zero = false → width.head? ≠ some 0

/-- A character of a format that is no `%`, or a conversion. -/
inductive Piece where
  | lit (c : CChar) (h : c.1 ≠ '%'.toUInt8)
  | conv (c : Conv)

namespace Conv

variable (str : BitVec 32 → CString) (c : Conv)

/-- The number that the digits of the width stand for. -/
def widthNat : Nat := c.width.foldl (fun n d => n * 10 + d.1) 0

def padc : UInt8 := if c.zero then '0'.toUInt8 else ' '.toUInt8

/-- The conversion as it stands in the format. -/
def spell : CString :=
  .of '%'.toUInt8 :: ((if c.zero then [.of '0'.toUInt8] else []) ++ c.width.map (fun d => .of (UInt8.ofNat (48 + d.1))) ++ [.of c.kind.char])

/-- The arguments that it takes. -/
def args : List (BitVec 32) := if c.kind = .percent then [] else [c.arg]

/-- The sign, and what stands behind it. -/
def body : List UInt8 × List UInt8 :=
  match c.kind with
  | .d | .i => (if c.arg.toInt < 0 then ['-'.toUInt8] else [], numeral 10 c.arg.toInt.natAbs)
  | .u => ([], numeral 10 c.arg.toNat)
  | .x | .p => ([], numeral 16 c.arg.toNat)
  | .o => ([], numeral 8 c.arg.toNat)
  | .b => ([], numeral 2 c.arg.toNat)
  | .c => ([], [UInt8.ofNat c.arg.toNat])
  | .s => ([], bufs (str c.arg))
  | .percent => ([], ['%'.toUInt8])

/-- What should be written: padded on the left, with zeroes behind the sign or with blanks before it. -/
def rendering : List UInt8 :=
  let (sign, body) := c.body str
  let fill := List.replicate (c.widthNat - (sign.length + body.length)) c.padc
  if c.zero then sign ++ fill ++ body else fill ++ sign ++ body

/-- Text of at least `width` characters. -/
def padLeft (width : Nat) (padc : UInt8) (text : List UInt8) : List UInt8 := List.replicate (width - text.length) padc ++ text

/-- What is written, if the width is that of an `int`. -/
def written : List UInt8 :=
  match c.kind with
  | .d | .u =>
    if c.arg.toInt < 0 then '-'.toUInt8 :: padLeft (c.widthNat - 1) c.padc (numeral 10 c.arg.toInt.natAbs)
    else padLeft c.widthNat c.padc (numeral 10 c.arg.toInt.natAbs)
  | .i => padLeft c.widthNat c.padc (numeral 10 c.arg.toNat)
  | .x => padLeft c.widthNat c.padc (numeral 16 c.arg.toNat)
  | .p => '0'.toUInt8 :: 'x'.toUInt8 :: padLeft 8 '0'.toUInt8 (numeral 16 c.arg.toNat)
  | .o => padLeft c.widthNat c.padc (numeral 8 c.arg.toNat)
  | .b => padLeft c.widthNat c.padc (numeral 2 c.arg.toNat)
  | .c => [UInt8.ofNat c.arg.toNat]
  | .s => bufsp (str c.arg) c.widthNat c.padc
  | .percent => ['%'.toUInt8]

/-- A conversion that is written as it should be. -/
def Plain : Prop :=
  match c.kind with
  | .d => 0 ≤ c.arg.toInt ∨ c.zero = true ∨ c.widthNat ≤ (numeral 10 c.arg.toInt.natAbs).length + 1
  | .i | .u => 0 ≤ c.arg.toInt
  | .p => False
  | .c | .percent => c.widthNat ≤ 1
  | _ => True

end Conv

namespace Piece

def spell : Piece → CString
  | lit c _ => [c]
  | conv c => c.spell

def args : Piece → List (BitVec 32)
  | lit _ _ => []
  | conv c => c.args

def rendering (str : BitVec 32 → CString) : Piece → List UInt8
  | lit c _ => [c.1]
  | conv c => c.rendering str

def written (str : BitVec 32 → CString) : Piece → List UInt8
  | lit c _ => [c.1]
  | conv c => c.written str

def Plain : Piece → Prop
  | lit _ _ => True
  | conv c => c.Plain

/-! The format that pieces make up, its arguments, and the text that should be written and that is written for it. -/

def spellAll (ps : List Piece) : CString := ps.flatMap spell

def argsAll (ps : List Piece) : List (BitVec 32) := ps.flatMap args

def renderAll (str : BitVec 32 → CString) (ps : List Piece) : List UInt8 := ps.flatMap (rendering str)

def writtenAll (str : BitVec 32 → CString) (ps : List Piece) : List UInt8 := ps.flatMap (written str)

end Piece

/-- A format that does not end before the character of a conversion; `inside` behind a `%`. -/
def Finished (inside : Bool) : CString → Bool
  | [] => !inside
  | c :: fmt =>
    if inside then Finished ('0'.toUInt8 ≤ c.1 && c.1 ≤ '9'.toUInt8) fmt else Finished (c.1 = '%'.toUInt8) fmt

namespace FormatAux

open Piece

/-! ## Numbers -/

theorem numeral_eq_map (base n : Nat) : numeral base n = (spellDigits base n).map digitChar := by
  unfold numeral spellDigits
  split
  · rfl
  · rw [List.map_reverse]

theorem length_numeral (base n : Nat) : (numeral base n).length = (spellDigits base n).length := by
  rw [numeral_eq_map, List.length_map]

theorem numeral_ne_nil {base : Nat} (hb : 2 ≤ base) (n : Nat) : numeral base n ≠ [] := by
  rw [numeral_eq_map, ne_eq, List.map_eq_nil_iff]
  exact spellDigits_ne_nil hb n

theorem length_numeral_le {base n places : Nat} (hb : 2 ≤ base) (hn : n < base ^ places) (hplaces : 0 < places) :
    (numeral base n).length ≤ places := by
  rw [length_numeral]
  exact length_spellDigits_le hb hn hplaces

/-- The character that the table has for a digit. -/
def tableChar (d : Nat) : UInt8 := digits.getD d 0

/-- There is no `N` in the table. -/
theorem tableChar_eq_iff {d : Nat} (h : d < 36) : tableChar d = digitChar d ↔ d < 23 := by
  have hall : ∀ d : Fin 36, tableChar d.1 = digitChar d.1 ↔ d.1 < 23 := by decide
  exact hall ⟨d, h⟩

theorem digitLoop_eq {base places num : Nat} (hb : 2 ≤ base) (hb' : base ≤ 36) (hnum : num < base ^ places) (hplaces : 0 < places)
    (tmp : List UInt8) : digitLoop base places num tmp = some ((spellDigits base num).map tableChar ++ tmp) := by
  induction places generalizing num tmp with
  | zero => exact absurd hplaces (Nat.lt_irrefl 0)
  | succ places ih =>
    have hmod : num % base < digits.length := Nat.lt_of_lt_of_le (Nat.mod_lt _ (by omega)) hb'
    have hdigit : digits[num % base]? = some (tableChar (num % base)) := by
      rw [tableChar, List.getD_eq_getElem?_getD, List.getElem?_eq_getElem hmod]
      rfl
    rw [digitLoop, hdigit, Option.bind_some, spellDigits_eq hb num]
    split
    next hpos =>
      obtain ⟨hlt, hpl⟩ := places_left hnum hpos
      rw [ih hlt hpl, List.map_append, List.map_singleton, List.append_assoc, List.singleton_append]
    next => rfl

/-- A digit is not one of the other characters that are written. -/
theorem digitChar_ne {d : Nat} (h : d < 16) :
    digitChar d ≠ 0 ∧ digitChar d ≠ ' '.toUInt8 ∧ digitChar d ≠ '-'.toUInt8 ∧ digitChar d ≠ 'x'.toUInt8 := by
  have hall : ∀ d : Fin 16, digitChar d.1 ≠ 0 ∧ digitChar d.1 ≠ ' '.toUInt8 ∧ digitChar d.1 ≠ '-'.toUInt8 ∧
      digitChar d.1 ≠ 'x'.toUInt8 := by decide
  exact hall ⟨d, h⟩

theorem ne_of_mem_numeral {base n : Nat} (hb : 2 ≤ base) (hb' : base ≤ 16) {c : UInt8} (h : c ∈ numeral base n) :
    c ≠ 0 ∧ c ≠ ' '.toUInt8 ∧ c ≠ '-'.toUInt8 ∧ c ≠ 'x'.toUInt8 := by
  rw [numeral_eq_map] at h
  obtain ⟨d, hd, rfl⟩ := List.mem_map.mp h
  exact digitChar_ne (Nat.lt_of_lt_of_le (lt_of_mem_spellDigits hb hd) hb')

/-- A number but 0 has a digit but 0. -/
theorem exists_ne_zero_mem_numeral {base n : Nat} (hb : 2 ≤ base) (hb' : base ≤ 16) (hn : 0 < n) :
    ∃ c ∈ numeral base n, c ≠ '0'.toUInt8 := by
  have hall : ∀ d : Fin 16, d.1 ≠ 0 → digitChar d.1 ≠ '0'.toUInt8 := by decide
  obtain ⟨d, ds, hds⟩ := List.exists_cons_of_ne_nil (spellDigits_ne_nil hb n)
  have hmem : d ∈ spellDigits base n := by rw [hds]; exact List.mem_cons_self
  have hd : d ≠ 0 := by
    rintro rfl
    have hzero : spellDigits base n = [0] := eq_of_head?_spellDigits (by rw [hds]; rfl)
    have hread := readDigits_spellDigits base n
    rw [hzero] at hread
    simp only [readDigits, List.foldl_cons, List.foldl_nil, Nat.zero_mul] at hread
    omega
  rw [numeral_eq_map]
  exact ⟨digitChar d, List.mem_map_of_mem hmem, hall ⟨d, Nat.lt_of_lt_of_le (lt_of_mem_spellDigits hb hmem) hb'⟩ hd⟩

theorem int32_of_le {x : Int} (h : -2147483648 ≤ x) (h' : x < 2147483648) : int32 x = x := Int.bmod_eq_of_le (by omega) (by omega)

/-- What `numfmt` writes. -/
theorem numfmt_eq_table {num base : Nat} (hnum : num < 9223372036854775808) (hb : 2 ≤ base) (hb' : base ≤ 36) (pad : Int) (pc : UInt8) :
    numfmt num base pad pc = some (List.replicate (int32 (pad - (spellDigits base num).length)).toNat pc ++
      ((spellDigits base num).map tableChar).takeWhile (· ≠ 0)) := by
  have hlt : num < base ^ 64 := Nat.lt_of_lt_of_le (Nat.lt_of_lt_of_le hnum (by decide)) (Nat.pow_le_pow_left hb 64)
  rw [numfmt, if_neg (by omega), digitLoop_eq hb hb' hlt (by decide), Option.map_some, List.append_nil, List.length_map]

/-- Digits below 23 are written as they should be. -/
theorem takeWhile_tableChar {ds : List Nat} (h : ∀ d ∈ ds, d < 23) : (ds.map tableChar).takeWhile (· ≠ 0) = ds.map digitChar := by
  have hall : ∀ d : Fin 23, digitChar d.1 ≠ 0 := by decide
  have hmap : ds.map tableChar = ds.map digitChar :=
    List.map_congr_left fun d hd => (tableChar_eq_iff (Nat.lt_trans (h d hd) (by decide))).mpr (h d hd)
  rw [hmap, List.takeWhile_eq_self_iff]
  intro c hc
  obtain ⟨d, hd, rfl⟩ := List.mem_map.mp hc
  simpa using hall ⟨d, h d hd⟩

/-- `numfmt` of a 32-bit number in one of the bases of the conversions. -/
theorem numfmt_eq {num base : Nat} (hnum : num < 4294967296) (hb : 2 ≤ base) (hb' : base ≤ 16) {pad : Int} (hpad : -1 ≤ pad)
    (hpad' : pad < 2147483648) (pc : UInt8) : numfmt num base pad pc = some (Conv.padLeft pad.toNat pc (numeral base num)) := by
  have hlen : (spellDigits base num).length ≤ 32 :=
    length_spellDigits_le hb (Nat.lt_of_lt_of_le hnum (Nat.pow_le_pow_left hb 32)) (by decide)
  have hsmall : ∀ d ∈ spellDigits base num, d < 23 := by
    intro d hd
    have := lt_of_mem_spellDigits hb hd
    omega
  rw [numfmt_eq_table (by omega) hb (by omega), takeWhile_tableChar hsmall, int32_of_le (by omega) (by omega), ← numeral_eq_map,
    Conv.padLeft, length_numeral]
  congr 3
  omega

/-! ## Going through a format -/

section

variable {str : BitVec 32 → CString}

theorem widthChar_eq (d : Fin 10) :
    (CChar.of (UInt8.ofNat (48 + d.1))).1.toNat = 48 + d.1 ∧ '0'.toUInt8 ≤ (CChar.of (UInt8.ofNat (48 + d.1))).1 ∧
      (CChar.of (UInt8.ofNat (48 + d.1))).1 ≤ '9'.toUInt8 ∧ ((CChar.of (UInt8.ofNat (48 + d.1))).1 = '0'.toUInt8 ↔ d = 0) := by
  revert d
  decide

theorem kindChar_eq (k : Kind) :
    (CChar.of k.char).1 = k.char ∧ k.char ≠ '0'.toUInt8 ∧ ¬ ('0'.toUInt8 ≤ k.char ∧ k.char ≤ '9'.toUInt8) := by
  cases k <;> decide

theorem le_foldl_width (ds : List (Fin 10)) (n : Nat) : n ≤ ds.foldl (fun n d => n * 10 + d.1) n := by
  induction ds generalizing n with
  | nil => exact Nat.le_refl n
  | cons d ds ih => exact Nat.le_trans (by omega) (ih (n * 10 + d.1))

variable (str) in
/-- The digits of a width. -/
theorem strafmtFrom_width {ds : List (Fin 10)} {first : Bool} (hfirst : first = true → ds.head? ≠ some 0) {n : Nat} (hn : first = true → n = 0)
    (hwidth : ds.foldl (fun n d => n * 10 + d.1) n < 2147483648) (padc : UInt8) (fmt : CString) (args : List (BitVec 32)) :
    ∃ first', strafmtFrom str (.conv first n padc) (ds.map (fun d => .of (UInt8.ofNat (48 + d.1))) ++ fmt) args =
      strafmtFrom str (.conv first' (ds.foldl (fun n d => n * 10 + d.1) n : Nat) padc) fmt args := by
  induction ds generalizing first n with
  | nil => exact ⟨first, rfl⟩
  | cons d ds ih =>
    obtain ⟨hval, hge, hle, hzero⟩ := widthChar_eq d
    have hstep := le_foldl_width ds (n * 10 + d.1)
    rw [List.foldl_cons] at hwidth ⊢
    rw [List.map_cons, List.cons_append, strafmtFrom, if_neg, if_pos ⟨hge, hle⟩, hval,
      show (n : Int) * 10 + (48 + d.1 : Nat) - 48 = (n * 10 + d.1 : Nat) by omega, int32_of_le (by omega) (by omega)]
    · exact ih (fun h => by cases h) (fun h => by cases h) hwidth
    · rintro ⟨hf, hc⟩
      exact hfirst hf (by rw [hzero.mp hc]; rfl)

theorem length_bufs (s : CString) : (bufs s).length = s.length := List.length_map ..

theorem bufsp_eq {s : CString} (hs : s.length < 2147483648) (width : Nat) (padc : UInt8) :
    bufsp s width padc = Conv.padLeft width padc (bufs s) := by
  rw [bufsp, int32_of_le (by omega) (by omega), Conv.padLeft, length_bufs, Int.toNat_sub]

theorem natAbs_toInt_lt (v : BitVec 32) : v.toInt.natAbs < 4294967296 := by
  have := v.toInt_lt
  have := v.le_toInt
  omega

theorem convert_unsigned {k : Kind} {base : Nat} (h : (k, base) ∈ [(Kind.i, 10), (.x, 16), (.o, 8), (.b, 2)]) (pad : Int) (padc : UInt8)
    (arg : BitVec 32) (rest : List (BitVec 32)) :
    convert str k.char pad padc (arg :: rest) = (numfmt arg.toNat base pad padc).map fun text => (text, rest) := by
  simp only [List.mem_cons, Prod.mk.injEq, List.not_mem_nil, or_false] at h
  rcases h with ⟨rfl, rfl⟩ | ⟨rfl, rfl⟩ | ⟨rfl, rfl⟩ | ⟨rfl, rfl⟩ <;> rfl

theorem convert_signed {k : Kind} (h : k = .d ∨ k = .u) (pad : Int) (padc : UInt8) (arg : BitVec 32) (rest : List (BitVec 32)) :
    convert str k.char pad padc (arg :: rest) =
      if arg.toInt < 0 then
        (numfmt (-arg.toInt).toNat 10 (int32 (pad - 1)) padc).map fun text => ('-'.toUInt8 :: text, rest)
      else (numfmt arg.toInt.toNat 10 pad padc).map fun text => (text, rest) := by
  have hfetch : fetch k.char pad (arg :: rest) =
      if arg.toInt < 0 then (['-'.toUInt8], int32 (pad - 1), (-arg.toInt).toNat, rest) else ([], pad, arg.toInt.toNat, rest) := by
    rcases h with rfl | rfl <;> rfl
  rw [convert, hfetch]
  by_cases hneg : arg.toInt < 0
  · rw [if_pos hneg, if_pos hneg]
    rcases h with rfl | rfl <;> rfl
  · rw [if_neg hneg, if_neg hneg]
    rcases h with rfl | rfl <;> rfl

theorem convert_eq {c : Conv} (hwidth : c.widthNat < 2147483648) (rest : List (BitVec 32)) :
    convert str c.kind.char c.widthNat c.padc (c.args ++ rest) = some (c.written str, rest) := by
  have harg := c.arg.isLt
  have habs := natAbs_toInt_lt c.arg
  have hnumber {base num : Nat} (hb : 2 ≤ base) (hb' : base ≤ 16) (hnum : num < 4294967296) :
      numfmt num base c.widthNat c.padc = some (Conv.padLeft c.widthNat c.padc (numeral base num)) := by
    rw [numfmt_eq hnum hb hb' (by omega) (by omega), Int.toNat_natCast]
  have hsigned (hkind : c.kind = .d ∨ c.kind = .u) : convert str c.kind.char c.widthNat c.padc (c.arg :: rest) =
      some (if c.arg.toInt < 0 then '-'.toUInt8 :: Conv.padLeft (c.widthNat - 1) c.padc (numeral 10 c.arg.toInt.natAbs)
        else Conv.padLeft c.widthNat c.padc (numeral 10 c.arg.toInt.natAbs), rest) := by
    rw [convert_signed hkind]
    split
    next hneg =>
      rw [show (-c.arg.toInt).toNat = c.arg.toInt.natAbs by omega, int32_of_le (by omega) (by omega),
        numfmt_eq habs (by decide) (by decide) (by omega) (by omega), show ((c.widthNat : Int) - 1).toNat = c.widthNat - 1 by omega]
      rfl
    next hpos =>
      rw [show c.arg.toInt.toNat = c.arg.toInt.natAbs by omega, hnumber (by decide) (by decide) habs]
      rfl
  have hunsigned (k : Kind) (base : Nat) (hk : (k, base) ∈ [(Kind.i, 10), (.x, 16), (.o, 8), (.b, 2)]) (hb : 2 ≤ base) (hb' : base ≤ 16) :
      convert str k.char c.widthNat c.padc (c.arg :: rest) = some (Conv.padLeft c.widthNat c.padc (numeral base c.arg.toNat), rest) := by
    rw [convert_unsigned hk, hnumber hb hb' harg]
    rfl
  unfold Conv.args Conv.written
  cases hkind : c.kind with
  | d =>
    rw [hkind] at hsigned
    exact hsigned (.inl rfl)
  | u =>
    rw [hkind] at hsigned
    exact hsigned (.inr rfl)
  | i => exact hunsigned .i 10 (by decide) (by decide) (by decide)
  | x => exact hunsigned .x 16 (by decide) (by decide) (by decide)
  | o => exact hunsigned .o 8 (by decide) (by decide) (by decide)
  | b => exact hunsigned .b 2 (by decide) (by decide) (by decide)
  | p =>
    have hp : convert str Kind.p.char c.widthNat c.padc (c.arg :: rest) = ((numfmt c.arg.toNat 16 8 '0'.toUInt8).map
        fun text => (text, rest)).map fun r => ('0'.toUInt8 :: 'x'.toUInt8 :: r.1, r.2) := rfl
    rw [if_neg (by decide), List.singleton_append, hp, numfmt_eq harg (by decide) (by decide) (by decide) (by decide)]
    rfl
  | c => rfl
  | s => rfl
  | percent => rfl

/-! ## Whole formats -/

/-- A piece whose width is that of an `int`. -/
def Narrow : Piece → Prop
  | .lit _ _ => True
  | .conv c => c.widthNat < 2147483648

/-- A piece whose string is no longer than an `int` can say. -/
def Short (str : BitVec 32 → CString) : Piece → Prop
  | .lit _ _ => True
  | .conv c => c.kind = .s → (str c.arg).length < 2147483648

theorem strafmtFrom_conv {c : Conv} (h : c.widthNat < 2147483648) (fmt : CString) (rest : List (BitVec 32)) :
    strafmtFrom str .text (c.spell ++ fmt) (c.args ++ rest) = (strafmtFrom str .text fmt rest).map (c.written str ++ ·) := by
  obtain ⟨hchar, hzero, hdigit⟩ := kindChar_eq c.kind
  -- Behind the width stands the character of the conversion, which is no digit.
  have hend (first : Bool) : strafmtFrom str (.conv first c.widthNat c.padc) (.of c.kind.char :: fmt) (c.args ++ rest) =
      (strafmtFrom str .text fmt rest).map (c.written str ++ ·) := by
    rw [strafmtFrom, hchar, if_neg fun hf => hzero hf.2, if_neg hdigit, convert_eq h, Option.bind_some]
  have hdigits (first : Bool) (hfirst : first = true → c.width.head? ≠ some 0) :
      strafmtFrom str (.conv first 0 c.padc) (c.width.map (fun d => .of (UInt8.ofNat (48 + d.1))) ++ .of c.kind.char :: fmt)
        (c.args ++ rest) = (strafmtFrom str .text fmt rest).map (c.written str ++ ·) := by
    obtain ⟨first', hwidth⟩ := strafmtFrom_width str hfirst (n := 0) (fun _ => rfl) h c.padc (.of c.kind.char :: fmt)
      (c.args ++ rest)
    exact hwidth.trans (hend first')
  rw [Conv.spell, List.cons_append, strafmtFrom, if_pos (by decide), List.append_assoc, List.append_assoc, List.singleton_append]
  cases hflag : c.zero with
  | true =>
    have hpadc : c.padc = '0'.toUInt8 := by simp [Conv.padc, hflag]
    rw [if_pos rfl, List.singleton_append, strafmtFrom, if_pos ⟨rfl, by decide⟩, ← hpadc]
    exact hdigits false fun hf => by cases hf
  | false =>
    have hpadc : c.padc = ' '.toUInt8 := by simp [Conv.padc, hflag]
    rw [if_neg (by decide), List.nil_append, ← hpadc]
    exact hdigits true fun _ => c.flag hflag

variable (str) in
theorem strafmtFrom_spellAll {ps : List Piece} (h : ∀ p ∈ ps, Narrow p) (fmt : CString) (rest : List (BitVec 32)) :
    strafmtFrom str .text (spellAll ps ++ fmt) (argsAll ps ++ rest) = (strafmtFrom str .text fmt rest).map (writtenAll str ps ++ ·) := by
  induction ps with
  | nil => simp [spellAll, argsAll, writtenAll]
  | cons p ps ih =>
    rw [List.forall_mem_cons] at h
    have hrest := ih h.2
    simp only [spellAll, argsAll, writtenAll, List.flatMap_cons, List.append_assoc] at hrest ⊢
    cases p with
    | lit c hc =>
      simp only [Piece.spell, Piece.args, Piece.written, List.singleton_append, List.nil_append]
      rw [strafmtFrom, if_neg hc, hrest, Option.map_map]
      rfl
    | conv c =>
      simp only [Piece.spell, Piece.args, Piece.written]
      rw [strafmtFrom_conv h.1, hrest, Option.map_map]
      congr 1

variable (str) in
/-- What is written for a format of pieces. -/
theorem strafmt_spellAll {ps : List Piece} (h : ∀ p ∈ ps, Narrow p) (rest : List (BitVec 32)) :
    strafmt str (spellAll ps) (argsAll ps ++ rest) = some (writtenAll str ps, int32 (writtenAll str ps).length) := by
  have hfrom := strafmtFrom_spellAll str h [] rest
  rw [List.append_nil] at hfrom
  rw [strafmt, hfrom]
  simp [strafmtFrom]

/-! ## Plain conversions -/

theorem natAbs_toInt_of_nonneg {v : BitVec 32} (h : 0 ≤ v.toInt) : v.toInt.natAbs = v.toNat := by
  have := v.toInt_eq_toNat_cond
  have := v.isLt
  split at * <;> omega

section

variable {c : Conv}

/-- Without a sign, the padding is that of `bufsp` and `numfmt`. -/
theorem rendering_of_unsigned {body : List UInt8} (h : c.body str = ([], body)) : c.rendering str = Conv.padLeft c.widthNat c.padc body := by
  simp [Conv.rendering, Conv.padLeft, h]

/-- With one, zeroes stand behind it and blanks before it. -/
theorem rendering_of_signed {body : List UInt8} (h : c.body str = (['-'.toUInt8], body)) :
    c.rendering str =
      if c.zero then '-'.toUInt8 :: Conv.padLeft (c.widthNat - 1) c.padc body
      else List.replicate (c.widthNat - 1 - body.length) c.padc ++ '-'.toUInt8 :: body := by
  have hlen : c.widthNat - (1 + body.length) = c.widthNat - 1 - body.length := by omega
  simp [Conv.rendering, Conv.padLeft, h, hlen]

/-- The argument of a signed conversion. -/
theorem body_of_nonneg (hkind : c.kind = .d ∨ c.kind = .i) (h : 0 ≤ c.arg.toInt) : c.body str = ([], numeral 10 c.arg.toNat) := by
  rcases hkind with hkind | hkind <;> simp [Conv.body, hkind, Int.not_lt.mpr h, natAbs_toInt_of_nonneg h]

theorem body_of_neg (hkind : c.kind = .d ∨ c.kind = .i) (h : c.arg.toInt < 0) :
    c.body str = (['-'.toUInt8], numeral 10 c.arg.toInt.natAbs) := by
  rcases hkind with hkind | hkind <;> simp [Conv.body, hkind, h]

theorem written_of_plain (h : c.Plain) (hs : Short str (.conv c)) : c.written str = c.rendering str := by
  unfold Conv.Plain at h
  cases hkind : c.kind with
  | d =>
    rw [hkind] at h
    by_cases hneg : c.arg.toInt < 0
    · rw [rendering_of_signed (body_of_neg (.inl hkind) hneg)]
      simp only [Conv.written, hkind, if_pos hneg]
      split
      next => rfl
      next hzero =>
        have hfill : c.widthNat - 1 - (numeral 10 c.arg.toInt.natAbs).length = 0 := by
          simp only at h
          have := h.resolve_left (by omega)
          have := this.resolve_left hzero
          omega
        rw [Conv.padLeft, hfill]
        rfl
    · rw [rendering_of_unsigned (body_of_nonneg (.inl hkind) (by omega))]
      simp only [Conv.written, hkind, if_neg hneg, natAbs_toInt_of_nonneg (Int.not_lt.mp hneg)]
  | i =>
    rw [hkind] at h
    rw [rendering_of_unsigned (body_of_nonneg (.inr hkind) h)]
    simp only [Conv.written, hkind]
  | u =>
    rw [hkind] at h
    rw [rendering_of_unsigned (show c.body str = ([], numeral 10 c.arg.toNat) by simp [Conv.body, hkind])]
    simp only [Conv.written, hkind, if_neg (Int.not_lt.mpr h), natAbs_toInt_of_nonneg h]
  | x | o | b =>
    rw [rendering_of_unsigned (by simp only [Conv.body, hkind]; rfl)]
    simp only [Conv.written, hkind]
  | s =>
    rw [rendering_of_unsigned (show c.body str = ([], bufs (str c.arg)) by simp [Conv.body, hkind])]
    simp only [Conv.written, hkind]
    exact bufsp_eq (hs hkind) _ _
  | p =>
    rw [hkind] at h
    exact h.elim
  | c | percent =>
    rw [hkind] at h
    simp only at h
    rw [rendering_of_unsigned (by simp only [Conv.body, hkind]; rfl)]
    simp [Conv.written, hkind, Conv.padLeft, Nat.sub_eq_zero_of_le h]

/-! ## Other conversions -/

/-- Characters that fill up a width. -/
def Fills (text : List UInt8) : Prop := ∀ x ∈ text, x = ' '.toUInt8 ∨ x = '0'.toUInt8

theorem fills_replicate (n : Nat) (c : Conv) : Fills (List.replicate n c.padc) := by
  intro x hx
  rw [List.eq_of_mem_replicate hx, Conv.padc]
  cases c.zero
  · exact .inl rfl
  · exact .inr rfl

theorem Fills.append {p q : List UInt8} (hp : Fills p) (hq : Fills q) : Fills (p ++ q) := by
  intro x hx
  rcases List.mem_append.mp hx with hx | hx
  · exact hp x hx
  · exact hq x hx

theorem minus_not_mem_of_fills {p : List UInt8} (hp : Fills p) : '-'.toUInt8 ∉ p := fun hmem => by
  rcases hp _ hmem with h | h <;> revert h <;> decide

/-- A sign is written where none can be. -/
theorem append_ne_minus_cons {p r s : List UInt8} {x : UInt8} (hx : x ≠ '-'.toUInt8) (hp : Fills p) : p ++ x :: r ≠ '-'.toUInt8 :: s := by
  intro heq
  cases p with
  | nil => exact hx (List.cons.inj heq).1
  | cons y p =>
    obtain rfl : y = '-'.toUInt8 := (List.cons.inj heq).1
    exact minus_not_mem_of_fills hp List.mem_cons_self

/-- A number is written where only blanks and zeroes and a sign can be. -/
theorem append_minus_ne {p r text s : List UInt8} (hp : Fills p) (hminus : '-'.toUInt8 ∉ text) (htext : ¬ Fills text) :
    p ++ '-'.toUInt8 :: r ≠ text ++ s := by
  intro heq
  rcases List.append_eq_append_iff.mp heq with ⟨a, rfl, ha⟩ | ⟨a, rfl, -⟩
  · cases a with
    | nil => exact htext (by rwa [List.append_nil])
    | cons x a =>
      obtain rfl : '-'.toUInt8 = x := (List.cons.inj ha).1
      exact hminus (by simp)
  · exact htext fun x hx => hp x (List.mem_append_left _ hx)

theorem minus_not_mem_padLeft (base n : Nat) (hb : 2 ≤ base) (hb' : base ≤ 16) (width : Nat) (c : Conv) :
    '-'.toUInt8 ∉ Conv.padLeft width c.padc (numeral base n) := by
  intro hmem
  rcases List.mem_append.mp hmem with hmem | hmem
  · exact minus_not_mem_of_fills (fills_replicate _ c) hmem
  · exact (ne_of_mem_numeral hb hb' hmem).2.2.1 rfl

theorem not_fills_padLeft (base : Nat) {n : Nat} (hb : 2 ≤ base) (hb' : base ≤ 16) (hn : 0 < n) (width : Nat) (padc : UInt8) :
    ¬ Fills (Conv.padLeft width padc (numeral base n)) := by
  intro hfills
  obtain ⟨x, hx, hzero⟩ := exists_ne_zero_mem_numeral hb hb' hn
  rcases hfills x (List.mem_append_right _ hx) with h | h
  · exact (ne_of_mem_numeral hb hb' hx).2.1 h
  · exact hzero h

/-- A signed number that is not plain: what should stand there is written nowhere, whatever is missing before it. -/
theorem rendering_ne_written (hkind : c.kind = .d ∨ c.kind = .i ∨ c.kind = .u) (h : ¬ c.Plain) {p r s : List UInt8} (hp : Fills p) :
    p ++ (c.rendering str ++ r) ≠ c.written str ++ s := by
  unfold Conv.Plain at h
  rcases hkind with hkind | hkind | hkind <;> rw [hkind] at h <;> simp only at h
  · rw [not_or, not_or] at h
    have hneg : c.arg.toInt < 0 := Int.not_le.mp h.1
    rw [rendering_of_signed (body_of_neg (.inl hkind) hneg), if_neg h.2.1]
    simp only [Conv.written, hkind, if_pos hneg, List.cons_append]
    obtain ⟨n, hn⟩ := Nat.exists_eq_succ_of_ne_zero
      (show c.widthNat - 1 - (numeral 10 c.arg.toInt.natAbs).length ≠ 0 by omega)
    have hpadc : c.padc = ' '.toUInt8 := by simp [Conv.padc, h.2.1]
    rw [hn, List.replicate_succ, hpadc]
    exact append_ne_minus_cons (by decide) hp
  · have hneg : c.arg.toInt < 0 := Int.not_le.mp h
    have hpos : 0 < c.arg.toNat := by
      have := c.arg.toInt_eq_toNat_cond
      split at this <;> omega
    have hminus := minus_not_mem_padLeft 10 c.arg.toNat (by decide) (by decide) c.widthNat c
    have hfills := not_fills_padLeft 10 (by decide) (by decide) hpos c.widthNat c.padc
    rw [rendering_of_signed (body_of_neg (.inr hkind) hneg)]
    simp only [Conv.written, hkind]
    split
    · rw [List.cons_append]
      exact append_minus_ne hp hminus hfills
    · rw [List.append_assoc, ← List.append_assoc, List.cons_append]
      exact append_minus_ne (hp.append (fills_replicate _ c)) hminus hfills
  · have hneg : c.arg.toInt < 0 := Int.not_le.mp h
    rw [rendering_of_unsigned (show c.body str = ([], numeral 10 c.arg.toNat) by simp [Conv.body, hkind])]
    simp only [Conv.written, hkind, if_pos hneg, List.cons_append]
    have hminus := minus_not_mem_padLeft 10 c.arg.toNat (by decide) (by decide) c.widthNat c
    cases htext : Conv.padLeft c.widthNat c.padc (numeral 10 c.arg.toNat) with
    | nil => simp [Conv.padLeft, numeral_ne_nil] at htext
    | cons x text =>
      rw [htext] at hminus
      exact append_ne_minus_cons (fun hx => hminus (hx ▸ List.mem_cons_self)) hp

/-- One character that should be padded. -/
theorem rendering_of_char (hkind : c.kind = .c ∨ c.kind = .percent) (h : ¬ c.Plain) :
    ∃ n x, c.rendering str = List.replicate (n + 1) c.padc ++ [x] ∧ c.written str = [x] := by
  unfold Conv.Plain at h
  rcases hkind with hkind | hkind <;> rw [hkind] at h <;> simp only at h
  · refine ⟨c.widthNat - 2, UInt8.ofNat c.arg.toNat, ?_, by simp only [Conv.written, hkind]⟩
    rw [rendering_of_unsigned (show c.body str = ([], [UInt8.ofNat c.arg.toNat]) by simp [Conv.body, hkind]), Conv.padLeft,
      List.length_singleton, show c.widthNat - 1 = c.widthNat - 2 + 1 by omega]
  · refine ⟨c.widthNat - 2, '%'.toUInt8, ?_, by simp only [Conv.written, hkind]⟩
    rw [rendering_of_unsigned (show c.body str = ([], ['%'.toUInt8]) by simp [Conv.body, hkind]), Conv.padLeft,
      List.length_singleton, show c.widthNat - 1 = c.widthNat - 2 + 1 by omega]

/-! ## Pointers

`%p` writes an `x` that should not be there. No other conversion adds or drops one. -/

theorem count_padLeft (width : Nat) {padc : UInt8} (hpadc : padc ≠ 'x'.toUInt8) (text : List UInt8) :
    (Conv.padLeft width padc text).count 'x'.toUInt8 = text.count 'x'.toUInt8 := by
  rw [Conv.padLeft, List.count_append, List.count_replicate, if_neg (by simpa using hpadc), Nat.zero_add]

theorem padc_ne_x (c : Conv) : c.padc ≠ 'x'.toUInt8 := by
  unfold Conv.padc
  split <;> decide

theorem count_numeral (base n : Nat) (hb : 2 ≤ base) (hb' : base ≤ 16) : (numeral base n).count 'x'.toUInt8 = 0 :=
  List.count_eq_zero.mpr fun hmem => (ne_of_mem_numeral hb hb' hmem).2.2.2 rfl

theorem count_rendering (c : Conv) : (c.rendering str).count 'x'.toUInt8 = (c.body str).2.count 'x'.toUInt8 := by
  have hsign : (c.body str).1.count 'x'.toUInt8 = 0 := by
    unfold Conv.body
    cases c.kind with
    | d | i =>
      simp only
      split <;> decide
    | _ => rfl
  have hfill (n : Nat) : (List.replicate n c.padc).count 'x'.toUInt8 = 0 := by
    rw [List.count_replicate, if_neg (by simpa using padc_ne_x c)]
  unfold Conv.rendering
  simp only
  split
  · rw [List.count_append, List.count_append, hsign, hfill, Nat.zero_add]
  · rw [List.count_append, List.count_append, hsign, hfill, Nat.zero_add]

theorem count_written (c : Conv) :
    (c.written str).count 'x'.toUInt8 = (c.rendering str).count 'x'.toUInt8 + if c.kind = .p then 1 else 0 := by
  rw [count_rendering]
  unfold Conv.written Conv.body
  cases c.kind with
  | d | u =>
    simp only [reduceCtorEq, if_false]
    rw [count_numeral _ _ (by decide) (by decide)]
    split
    · rw [List.count_cons_of_ne (by decide), count_padLeft _ (padc_ne_x c), count_numeral _ _ (by decide) (by decide)]
    · rw [count_padLeft _ (padc_ne_x c), count_numeral _ _ (by decide) (by decide)]
  | i =>
    simp only [reduceCtorEq, if_false]
    rw [count_padLeft _ (padc_ne_x c), count_numeral _ _ (by decide) (by decide), count_numeral _ _ (by decide) (by decide)]
  | x | o | b => simp only [count_padLeft _ (padc_ne_x c), reduceCtorEq, if_false, Nat.add_zero]
  | s =>
    simp only [reduceCtorEq, if_false, Nat.add_zero]
    rw [bufsp, List.count_append, List.count_replicate, if_neg (by simpa using padc_ne_x c), Nat.zero_add]
  | p =>
    simp only [if_true]
    rw [List.count_cons_of_ne (by decide), List.count_cons_self, count_padLeft _ (by decide)]
  | c => rfl
  | percent => rfl

def isPointer : Piece → Bool
  | .lit _ _ => false
  | .conv c => c.kind = .p

variable (str) in
theorem count_writtenAll (ps : List Piece) :
    (writtenAll str ps).count 'x'.toUInt8 = (renderAll str ps).count 'x'.toUInt8 + ps.countP isPointer := by
  induction ps with
  | nil => rfl
  | cons p ps ih =>
    simp only [writtenAll, renderAll, List.flatMap_cons, List.count_append, List.countP_cons] at ih ⊢
    rw [ih]
    cases p with
    | lit c _ => simp [Piece.written, Piece.rendering, isPointer, Nat.add_assoc]
    | conv c =>
      simp only [Piece.written, Piece.rendering, count_written, isPointer, decide_eq_true_eq]
      omega

/-! ## No catching up -/

/-- What both write leaves blanks and zeroes missing. -/
theorem fills_of_append {p text r s : List UInt8} (hp : Fills p) (hne : p ≠ []) (h : p ++ (text ++ r) = text ++ s) :
    ∃ p', Fills p' ∧ p' ≠ [] ∧ p' ++ r = s := by
  induction text generalizing p with
  | nil => exact ⟨p, hp, hne, h⟩
  | cons x text ih =>
    obtain ⟨y, p, rfl⟩ := List.exists_cons_of_ne_nil hne
    obtain ⟨rfl, htail⟩ := List.cons.inj h
    have hy : Fills [y] := fun z hz => hp z (by rw [List.mem_singleton.mp hz]; exact List.mem_cons_self)
    have hp' : Fills p := fun z hz => hp z (List.mem_cons_of_mem _ hz)
    exact ih (hp'.append hy) (by simp) (by rw [List.append_assoc]; exact htail)

variable (str) in
/-- A piece is plain, or a number whose rendering is never written, or a character that should be padded. -/
theorem piece_cases (q : Piece) (hptr : isPointer q = false) (hshort : Short str q) :
    (q.Plain ∧ q.written str = q.rendering str) ∨
      (¬ q.Plain ∧ ∀ p r s, Fills p → p ++ (q.rendering str ++ r) ≠ q.written str ++ s) ∨
      (¬ q.Plain ∧ ∃ fill x, Fills fill ∧ fill ≠ [] ∧ q.rendering str = fill ++ [x] ∧ q.written str = [x]) := by
  cases q with
  | lit c h => exact .inl ⟨trivial, rfl⟩
  | conv c =>
    have hptr : c.kind ≠ .p := by simpa [isPointer] using hptr
    by_cases hplain : c.Plain
    · exact .inl ⟨hplain, written_of_plain hplain hshort⟩
    have hkind : (c.kind = .d ∨ c.kind = .i ∨ c.kind = .u) ∨ c.kind = .c ∨ c.kind = .percent := by
      unfold Conv.Plain at hplain
      cases hk : c.kind <;> simp [hk] at hplain hptr ⊢
    rcases hkind with hkind | hkind
    · exact .inr (.inl ⟨hplain, fun p r s hp => rendering_ne_written hkind hplain hp⟩)
    · obtain ⟨n, x, hrendering, hwritten⟩ := rendering_of_char hkind hplain
      exact .inr (.inr ⟨hplain, _, x, fills_replicate (n + 1) c, by simp, hrendering, hwritten⟩)

/-- Where characters are missing, they are missing to the end. -/
theorem append_renderAll_ne {ps : List Piece} (hptr : ∀ q ∈ ps, isPointer q = false) (hshort : ∀ q ∈ ps, Short str q) {p : List UInt8} (hp : Fills p) (hne : p ≠ []) :
    p ++ renderAll str ps ≠ writtenAll str ps := by
  induction ps generalizing p with
  | nil => simpa [renderAll, writtenAll] using hne
  | cons q ps ih =>
    rw [List.forall_mem_cons] at hptr hshort
    intro heq
    simp only [renderAll, writtenAll, List.flatMap_cons] at heq ih
    rcases piece_cases str q hptr.1 hshort.1 with ⟨-, heq'⟩ | ⟨-, hnever⟩ | ⟨-, fill, x, hfill, -, hrendering, hwritten⟩
    · rw [heq'] at heq
      obtain ⟨p', hp', hne', htail⟩ := fills_of_append hp hne heq
      exact ih hptr.2 hshort.2 hp' hne' htail
    · exact hnever _ _ _ hp heq
    · obtain ⟨y, p, rfl⟩ := List.exists_cons_of_ne_nil hne
      rw [hrendering, hwritten] at heq
      obtain ⟨rfl, htail⟩ := List.cons.inj heq
      have hy : Fills [y] := fun z hz => hp z (by rw [List.mem_singleton.mp hz]; exact List.mem_cons_self)
      have hp' : Fills p := fun z hz => hp z (List.mem_cons_of_mem _ hz)
      exact ih hptr.2 hshort.2 ((hp'.append hfill).append hy) (by simp) (by simpa using htail)

/-- The text is the one that should be written exactly if all conversions are plain. -/
theorem renderAll_eq_iff {ps : List Piece} (hshort : ∀ q ∈ ps, Short str q) : writtenAll str ps = renderAll str ps ↔ ∀ q ∈ ps, q.Plain := by
  constructor
  · intro heq
    have hptr : ∀ q ∈ ps, isPointer q = false := by
      have hcount := count_writtenAll str ps
      rw [heq] at hcount
      have hzero : ps.countP isPointer = 0 := by omega
      simpa using List.countP_eq_zero.mp hzero
    induction ps with
    | nil => simp
    | cons q ps ih =>
      rw [List.forall_mem_cons] at hptr hshort ⊢
      simp only [renderAll, writtenAll, List.flatMap_cons] at heq ih
      rcases piece_cases str q hptr.1 hshort.1 with ⟨hplain, heq'⟩ | ⟨-, hnever⟩ | ⟨-, fill, x, hfill, hne, hrendering, hwritten⟩
      · rw [heq', List.append_right_inj] at heq
        exact ⟨hplain, ih hshort.2 heq hptr.2⟩
      · exact absurd heq.symm (hnever [] _ _ (by intro x hx; cases hx))
      · obtain ⟨y, fill, rfl⟩ := List.exists_cons_of_ne_nil hne
        rw [hrendering, hwritten] at heq
        obtain ⟨rfl, htail⟩ := List.cons.inj heq
        have hx : Fills [x] := fun z hz => hfill z (by rw [List.mem_singleton.mp hz]; exact List.mem_cons_self)
        have hfill' : Fills fill := fun z hz => hfill z (List.mem_cons_of_mem _ hz)
        exact absurd (by simpa [renderAll, writtenAll] using htail.symm) (append_renderAll_ne hptr.2 hshort.2 (hfill'.append hx) (by simp))
  · intro hplain
    have hpiece : ∀ q ∈ ps, q.written str = q.rendering str := by
      intro q hq
      cases q with
      | lit c h => rfl
      | conv c => exact written_of_plain (hplain _ hq) (hshort _ hq)
    rw [writtenAll, renderAll, List.flatMap_def, List.flatMap_def, List.map_congr_left hpiece]

/-! ## The length of the text -/

theorem length_le_flatMap {α β : Type} {f : α → List β} {l : List α} {a : α} (h : a ∈ l) : (f a).length ≤ (l.flatMap f).length := by
  obtain ⟨l₁, l₂, rfl⟩ := List.append_of_mem h
  simp only [List.flatMap_append, List.flatMap_cons, List.length_append]
  omega

variable (str) in
theorem le_length_rendering (c : Conv) : c.widthNat ≤ (c.rendering str).length ∧ (c.body str).2.length ≤ (c.rendering str).length := by
  unfold Conv.rendering
  simp only
  split <;> simp only [List.length_append, List.length_replicate] <;> omega

theorem narrow_of_length {ps : List Piece} (h : (renderAll str ps).length < 2147483648) {q : Piece} (hq : q ∈ ps) :
    Narrow q ∧ Short str q := by
  cases q with
  | lit c hc => exact ⟨trivial, trivial⟩
  | conv c =>
    have hlen : (c.rendering str).length ≤ (renderAll str ps).length := length_le_flatMap (f := rendering str) hq
    obtain ⟨hwidth, hbody⟩ := le_length_rendering str c
    refine ⟨show c.widthNat < 2147483648 by omega, fun hkind => ?_⟩
    simp only [Conv.body, hkind, length_bufs] at hbody
    omega

/-! ## The end of the format -/

theorem numfmt_isSome {num base : Nat} (hnum : num < 4294967296) (hb : 2 ≤ base) (hb' : base ≤ 16) (pad : Int) (pc : UInt8) :
    (numfmt num base pad pc).isSome := by
  rw [numfmt_eq_table (by omega) hb (by omega)]
  rfl

theorem fetch_lt (conv : UInt8) (pad : Int) (args : List (BitVec 32)) : (fetch conv pad args).2.2.1 < 4294967296 := by
  have := (args.headD 0).isLt
  have := natAbs_toInt_lt (args.headD 0)
  unfold fetch
  simp only
  split_ifs <;> simp only <;> omega

variable (str) in
theorem convert_isSome (conv : UInt8) (pad : Int) (padc : UInt8) (args : List (BitVec 32)) : (convert str conv pad padc args).isSome := by
  have hval := fetch_lt conv pad args
  have hnumber (base : Nat) (hb : 2 ≤ base) (hb' : base ≤ 16) (pad' : Int) (padc' : UInt8) :=
    numfmt_isSome hval hb hb' pad' padc'
  unfold convert
  simp only
  split_ifs <;> simp only [Option.isSome_map, Option.isSome_some]
  · exact hnumber 2 (by decide) (by decide) _ _
  · exact hnumber 10 (by decide) (by decide) _ _
  · exact hnumber 8 (by decide) (by decide) _ _
  · exact hnumber 16 (by decide) (by decide) _ _
  · exact hnumber 16 (by decide) (by decide) _ _

/-- Whether a place is in a conversion. -/
def inside : FmtPlace → Bool
  | .text => false
  | .conv _ _ _ => true

theorem strafmtFrom_isSome (place : FmtPlace) (fmt : CString) (args : List (BitVec 32)) :
    (strafmtFrom str place fmt args).isSome = Finished (inside place) fmt := by
  induction fmt generalizing place args with
  | nil => cases place <;> rfl
  | cons c fmt ih =>
    cases place with
    | text =>
      rw [strafmtFrom, Finished]
      simp only [inside, Bool.false_eq_true, if_false]
      split
      next hc => rw [ih, hc]; simp [inside]
      next hc => rw [Option.isSome_map, ih]; simp [inside, hc]
    | conv first pad padc =>
      rw [strafmtFrom, Finished]
      simp only [inside, if_true]
      split
      next hc => rw [ih, hc.2]; rfl
      next =>
        split
        next hc => rw [ih]; simp [inside, hc]
        next hc =>
          obtain ⟨⟨text, rest⟩, hconv⟩ := Option.isSome_iff_exists.mp (convert_isSome str c.1 pad padc args)
          rw [hconv, Option.bind_some, Option.isSome_map, ih]
          congr 1
          simpa [inside] using hc

end

end

end FormatAux

end Kos
