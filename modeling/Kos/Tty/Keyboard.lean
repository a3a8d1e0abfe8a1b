import Mathlib.Tactic.Common

/-!
# Scancodes

`kbc_scan_to_keycode` in `kernel/kbc.c`, and `get_keycode` in `kernel/tty.c`, which the keyboard's interrupt calls with one byte of a
scancode. Its static variables are a state; what it reads from the keyboard is an argument.
-/

namespace Kos

/-- `KBC_NORMAL`. -/
abbrev kbcNormal : UInt8 := 0

/-- `KBC_E0`. -/
abbrev kbcE0 : UInt8 := 1

/-- `KBC_E1`. -/
abbrev kbcE1 : UInt8 := 2

/-- `keycode[0]`: the keycodes of the normal scancodes. -/
def keycodeNormal : List UInt8 :=
  [ 0,   1,   2,   3,   4,   5,   6,   7,   8,   9,
   10,  11,  12,  13,  14,  15,  16,  17,  18,  19,
   20,  21,  22,  23,  24,  25,  26,  27,  28,  29,
   30,  31,  32,  33,  34,  35,  36,  37,  38,  39,
   40,  41,  42,  43,  44,  45,  46,  47,  48,  49,
   50,  51,  52,  53,  54,  55,  56,  57,  58,  59,
   60,  61,  62,  63,  64,  65,  66,  67,  68,  69,
   70,  71,  72,  73,  74,  75,  76,  77,  78,  79,
   80,  81,  82,  84,   0,   0,  86,  87,  88,   0,
    0,   0,   0,   0,   0,   0,   0,   0,   0,   0,
    0,   0,   0,   0,   0,   0,   0,   0,   0,   0,
    0,   0,   0,   0,   0,   0,   0,   0,   0,   0,
    0,   0,   0,   0,   0,   0,   0,   0]

/-- `keycode[1]`: the keycodes of the scancodes that come behind an E0. -/
def keycodeE0 : List UInt8 :=
  [ 0,   0,   0,   0,   0,   0,   0,   0,   0,   0,
    0,   0,   0,   0,   0,   0,   0,   0,   0,   0,
    0,   0,   0,   0,   0,   0,   0,   0,   0,  97,
    0,   0,   0,   0,   0,   0,   0,   0,   0,   0,
    0,   0,   0,   0,   0,   0,   0,   0,   0,   0,
    0,   0,   0,   0,   0,   0, 100,   0,   0,   0,
    0,   0,   0,   0,   0,   0,   0,   0,   0,   0,
    0, 102, 103, 104,   0, 105,   0, 106,   0, 107,
  108, 109, 110, 111,   0,   0,   0,   0,   0,   0,
    0,   0,   0,   0,   0,   0,   0,   0,   0,   0,
    0,   0,   0,   0,   0,   0,   0,   0,   0,   0,
    0,   0,   0,   0,   0,   0,   0,   0,   0,   0,
    0,   0,   0,   0,   0,   0,   0,   0]

/-- The arguments of a call of `kbc_scan_to_keycode`. -/
structure ScanCall where
  elvl : UInt8
  scancode : UInt16
  deriving DecidableEq, Repr

/-- `kbc_scan_to_keycode`, `none` if it reads outside a table. -/
def kbcScanToKeycode (call : ScanCall) : Option UInt8 :=
  if call.elvl = kbcNormal then keycodeNormal[call.scancode.toNat]?
  else if call.elvl = kbcE0 then keycodeE0[call.scancode.toNat]?
  else if call.elvl = kbcE1 ∧ call.scancode = 0x451D then some 119
  else some 0

/-- The static variables of `get_keycode`. -/
structure KeyState where
  e0 : UInt8
  e1 : UInt8
  e1Data : UInt16
  deriving DecidableEq, Repr

def KeyState.new : KeyState := ⟨0, 0, 0⟩

namespace KeyState

/-- The byte is that of a key that is released. -/
def isBreak (k : KeyState) (data : UInt8) : Bool :=
  data &&& 0x80 ≠ 0 ∧ (k.e1 ≠ 0 ∨ data ≠ 0xE1) ∧ (k.e0 ≠ 0 ∨ data ≠ 0xE0)

/-- The byte that the tests after the first see. -/
def make (k : KeyState) (data : UInt8) : UInt8 := if k.isBreak data then data &&& ~~~0x80 else data

/-- The tests on `e0`, `e1` and the byte: the call that `get_keycode` makes, if it makes one, and its variables afterwards. -/
def scan (k : KeyState) (data : UInt8) : Option ScanCall × KeyState :=
  if k.e0 ≠ 0 then (some ⟨kbcE0, data.toUInt16⟩, { k with e0 := 0 })
  else if k.e1 = 2 then
    let e1Data := k.e1Data ||| (data.toUInt16 <<< 8)
    (some ⟨kbcE1, e1Data⟩, { k with e1 := 0, e1Data := e1Data })
  else if k.e1 = 1 then (none, { k with e1Data := data.toUInt16, e1 := k.e1 + 1 })
  else if data = 0xE0 then (none, { k with e0 := 1 })
  else if data = 0xE1 then (none, { k with e1 := 1 })
  else (some ⟨kbcNormal, data.toUInt16⟩, k)

end KeyState

/-- The call that `get_keycode` makes for a byte. -/
def scanCall (k : KeyState) (data : UInt8) : Option ScanCall := (k.scan (k.make data)).1

/-- The variables after a byte. -/
def nextKey (k : KeyState) (data : UInt8) : KeyState := (k.scan (k.make data)).2

/-- `get_keycode`: the keycode, `none` if a table is read outside, and `brk`. -/
def getKeycode (k : KeyState) (data : UInt8) : (Option UInt8 × Bool) × KeyState :=
  ((((scanCall k data).map kbcScanToKeycode).getD (some 0), k.isBreak data), nextKey k data)

end Kos
