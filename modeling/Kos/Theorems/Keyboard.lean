import Kos.Tty.Keyboard

/-!
# The indices of the keycode tables

The bit of a released key is taken out of a byte unless the byte begins a prefix. Behind an E0 a byte E1 does not begin one, but keeps
the bit all the same, and is looked up in a table of 128 entries. No other byte is looked up outside (`scanCall_inTable_iff`).
-/

namespace Kos

/-- A call for the normal and the E0 table uses an index of the table. -/
def ScanCall.InTable (call : ScanCall) : Prop := call.elvl = kbcNormal ∨ call.elvl = kbcE0 → call.scancode.toNat < 128

/-- The variables after some bytes. -/
def keysAfter (bytes : List UInt8) : KeyState := bytes.foldl nextKey .new

/-- The calls that `get_keycode` makes for some bytes, one byte after the other. -/
def scanCalls (k : KeyState) : List UInt8 → List ScanCall
  | [] => []
  | data :: bytes => (scanCall k data).toList ++ scanCalls (nextKey k data) bytes

/-- Below the length of the tables a table is read inside. -/
theorem ScanCall.inTable_iff (call : ScanCall) : call.InTable ↔ (kbcScanToKeycode call).isSome := by
  have hnormal : keycodeNormal.length = 128 := rfl
  have he0 : keycodeE0.length = 128 := rfl
  unfold InTable kbcScanToKeycode
  by_cases h0 : call.elvl = kbcNormal
  · simp [h0, hnormal]
  · by_cases h1 : call.elvl = kbcE0
    · have hrow : ¬kbcE0 = kbcNormal := by decide
      simp [h1, hrow, he0]
    · simp only [h0, h1, or_self, false_imp_iff, if_false, true_iff]
      split <;> rfl

namespace KeyboardAux

/-- At most one prefix is under way. -/
def OnePrefix (k : KeyState) : Prop := k.e1 = 0 ∨ k.e0 = 0 ∧ (k.e1 = 1 ∨ k.e1 = 2)

theorem nextKey_onePrefix {k : KeyState} (h : OnePrefix k) (data : UInt8) : OnePrefix (nextKey k data) := by
  rcases h with h | ⟨h0, h | h⟩
  · by_cases h0 : k.e0 = 0
    · simp only [nextKey, KeyState.scan, h0, h]
      split_ifs <;> simp_all [OnePrefix]
    · simp [nextKey, KeyState.scan, h0, h, OnePrefix]
  · simp [nextKey, KeyState.scan, h0, h, OnePrefix]
  · simp [nextKey, KeyState.scan, h0, h, OnePrefix]

/-! ## The break bit -/

theorem lt_of_and_eq_zero {data : UInt8} (h : data &&& 0x80 = 0) : data.toNat < 128 := by
  have hall : ∀ d : BitVec 8, d &&& 0x80#8 = 0#8 → d.toNat < 128 := by decide +kernel
  exact hall data.toBitVec (congrArg UInt8.toBitVec h)

theorem and_not_lt (data : UInt8) : (data &&& ~~~0x80).toNat < 128 := by
  have hall : ∀ d : BitVec 8, (d &&& ~~~0x80#8).toNat < 128 := by decide +kernel
  exact hall data.toBitVec

/-- A byte keeps the bit where it could begin a prefix. -/
theorem make_lt_or (k : KeyState) (data : UInt8) :
    (k.make data).toNat < 128 ∨ k.make data = data ∧ (k.e1 = 0 ∧ data = 0xE1 ∨ k.e0 = 0 ∧ data = 0xE0) := by
  unfold KeyState.make
  split
  · exact .inl (and_not_lt data)
  · rename_i hbrk
    simp only [KeyState.isBreak, decide_eq_true_eq] at hbrk
    by_cases hbit : data &&& 0x80 = 0
    · exact .inl (lt_of_and_eq_zero hbit)
    · refine .inr ⟨rfl, ?_⟩
      by_contra hno
      push Not at hno
      exact hbrk ⟨hbit, by tauto, by tauto⟩

/-- The calls that are made. -/
theorem scanCall_cases {k : KeyState} {data : UInt8} {call : ScanCall} (h : scanCall k data = some call) :
    k.e0 ≠ 0 ∧ call = ⟨kbcE0, (k.make data).toUInt16⟩ ∨ call.elvl = kbcE1 ∨
      k.make data ≠ 0xE0 ∧ k.make data ≠ 0xE1 ∧ call = ⟨kbcNormal, (k.make data).toUInt16⟩ := by
  unfold scanCall KeyState.scan at h
  split_ifs at h with h0 h1 h2 h3 h4
  · exact .inl ⟨h0, (Option.some.inj h).symm⟩
  · exact .inr (.inl (by rw [← Option.some.inj h]))
  · exact .inr (.inr ⟨h3, h4, (Option.some.inj h).symm⟩)

/-- One byte. -/
theorem scanCall_inTable_iff {k : KeyState} (h : OnePrefix k) (data : UInt8) :
    (∀ call, scanCall k data = some call → call.InTable) ↔ ¬(data = 0xE1 ∧ k.e0 ≠ 0) := by
  by_cases h0 : k.e0 = 0
  · simp only [h0, ne_eq, not_true_eq_false, and_false, not_false_eq_true, iff_true]
    intro call hcall
    rcases scanCall_cases hcall with ⟨h0', -⟩ | helvl | ⟨hne0, hne1, rfl⟩
    · exact absurd h0 h0'
    · intro hrow
      rw [helvl] at hrow
      exact absurd hrow (by decide)
    · -- what is looked up without a prefix is no prefix itself
      intro _
      rcases make_lt_or k data with hlt | ⟨heq, h' | h'⟩
      · simpa using hlt
      · exact absurd (heq.trans h'.2) hne1
      · exact absurd (heq.trans h'.2) hne0
  · have h1 : k.e1 = 0 := h.resolve_right fun h' => h0 h'.1
    have hcall : scanCall k data = some ⟨kbcE0, (k.make data).toUInt16⟩ := by simp [scanCall, KeyState.scan, h0]
    have hin : (∀ call, scanCall k data = some call → call.InTable) ↔ (k.make data).toNat < 128 := by
      simp [hcall, ScanCall.InTable]
    rw [hin]
    constructor
    · rintro hlt ⟨rfl, -⟩
      have hmake : k.make 0xE1 = 0xE1 := by simp [KeyState.make, KeyState.isBreak, h1]
      rw [hmake] at hlt
      exact absurd hlt (by decide)
    · intro hno
      exact (make_lt_or k data).resolve_right fun ⟨_, h'⟩ => h'.elim (fun h' => hno ⟨h'.2, h0⟩) fun h' => h0 h'.1

/-- All bytes, from any state with at most one prefix under way. -/
theorem scanCalls_inTable_iff {k : KeyState} (h : OnePrefix k) (bytes : List UInt8) :
    (∀ call ∈ scanCalls k bytes, call.InTable) ↔
      ∀ before after, bytes = before ++ 0xE1 :: after → (before.foldl nextKey k).e0 = 0 := by
  induction bytes generalizing k with
  | nil => simp [scanCalls]
  | cons data bytes ih =>
    simp only [scanCalls, List.mem_append, Option.mem_toList, or_imp, forall_and]
    rw [ih (nextKey_onePrefix h data), scanCall_inTable_iff h]
    constructor
    · rintro ⟨hfirst, hrest⟩ before after heq
      cases before with
      | nil =>
        obtain ⟨rfl, -⟩ := List.cons.inj heq
        by_contra h0
        exact hfirst ⟨rfl, h0⟩
      | cons b before =>
        obtain ⟨rfl, htail⟩ := List.cons.inj heq
        exact hrest before after htail
    · intro hall
      refine ⟨fun hbad => hbad.2 (hall [] bytes (by rw [hbad.1]; rfl)), fun before after heq => ?_⟩
      exact hall (data :: before) after (by rw [heq]; rfl)

end KeyboardAux

open KeyboardAux

/-- For every sequence of bytes: every call for the normal and the E0 table uses an index below 128, if and only if no byte E1 comes
when the variable `e0` is set. -/
theorem getKeycode_inTable_iff (bytes : List UInt8) :
    (∀ call ∈ scanCalls .new bytes, call.InTable) ↔
      ∀ before after, bytes = before ++ 0xE1 :: after → (keysAfter before).e0 = 0 :=
  scanCalls_inTable_iff (.inl rfl) bytes

/-- The bytes E0 and E1: the E0 table is read at the index 225. -/
theorem e0_e1_outside : scanCalls .new [0xE0, 0xE1] = [⟨kbcE0, 225⟩] ∧ ¬ScanCall.InTable ⟨kbcE0, 225⟩ ∧
    (getKeycode (keysAfter [0xE0]) 0xE1).1.1 = none :=
  ⟨by decide, fun h => absurd (h (.inr rfl)) (by decide), by decide⟩

end Kos
