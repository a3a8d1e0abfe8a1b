import Kos.Lib.Run
import Kos.Tty.Screen

/-!
# Where characters are written

The last row of `outbuf` is the row 203. Written lines keep the row `y` of the cursor at the sum of `outstart` and `screenY`, which is
at most 199. A row that is left because it is full, and scrolling by the user, change `y` or `outstart` alone. As long as `y` is at most 4
rows ahead of the sum, every character is written into `outbuf` (`writes_of_keepsRow`); when it gets further ahead, there are characters
after which one is written behind it.
-/

namespace Kos

/-- The character fills the row that the cursor is on, which is then left. -/
def Screen.Wraps (s : Screen) (c : UInt8) : Prop :=
  c ≠ 10 ∧ c ≠ 13 ∧ c ≠ 8 ∧ (c = 9 ∧ 77 ≤ s.x ∨ c ≠ 9 ∧ s.x = 79)

instance (s : Screen) (c : UInt8) : Decidable (s.Wraps c) :=
  inferInstanceAs (Decidable (c ≠ 10 ∧ c ≠ 13 ∧ c ≠ 8 ∧ (c = 9 ∧ 77 ≤ s.x ∨ c ≠ 9 ∧ s.x = 79)))

/-- The row that is counted for the cursor when the screen starts at the row `outstart`: a scroll does not start the screen behind the
row 175. -/
def Screen.counted (s : Screen) (outstart : Nat) : Nat := min outstart conMaxStartLine + s.screenY

/-- The row of the cursor stays at most 4 rows ahead of the row that is counted for it. -/
def KeepsRow (s : Screen) : ScreenCall → Prop
  | .putc c => s.Wraps c → s.y < s.counted s.outstart + 4
  | .lineUp => s.y ≤ s.counted (s.outstart - 1) + 4
  | .lineDown => True
  | .toTop => s.y ≤ s.counted 0 + 4
  | .toBottom => s.y ≤ s.counted (s.y - 24) + 4

instance (s : Screen) (c : ScreenCall) : Decidable (KeepsRow s c) :=
  match c with
  | .putc c => inferInstanceAs (Decidable (s.Wraps c → s.y < s.counted s.outstart + 4))
  | .lineUp => inferInstanceAs (Decidable (s.y ≤ s.counted (s.outstart - 1) + 4))
  | .lineDown => inferInstanceAs (Decidable True)
  | .toTop => inferInstanceAs (Decidable (s.y ≤ s.counted 0 + 4))
  | .toBottom => inferInstanceAs (Decidable (s.y ≤ s.counted (s.y - 24) + 4))

namespace ScreenAux

open Screen

/-- What holds of the counters in every state. -/
structure Counters (s : Screen) : Prop where
  x : s.x < 80
  screenY : s.screenY ≤ 24
  outstart : s.outstart < 255
  le_y : s.screenY ≤ s.y

/-! ## The end of `putc` -/

theorem scrollWhile_of_lt {s : Screen} (n : Nat) (h : s.screenY < 25) : scrollWhile n s = s := by
  cases n with
  | zero => rfl
  | succ n => rw [scrollWhile, if_neg (Nat.not_le_of_lt h)]

/-- The first 175 scrolls move the screen down, all others move the rows up. -/
theorem scroll_spec {s : Screen} (hscreenY : s.screenY = 25) (houtstart : s.outstart < 255) (hy : s.y < 256) (hle : 0 < s.y) :
    s.scroll.writes = s.writes ∧ s.scroll.x = s.x ∧ s.scroll.screenY = 24 ∧
      s.scroll.outstart = (if s.outstart < 175 then s.outstart + 1 else s.outstart) ∧
      s.scroll.y + (if 175 ≤ s.outstart then 1 else 0) = s.y := by
  have hmod : (s.outstart + 1) % 256 = s.outstart + 1 := Nat.mod_eq_of_lt (by omega)
  simp only [scroll, hmod, hscreenY, conMaxStartLine]
  by_cases hlt : s.outstart < 175
  · rw [if_neg (by omega), if_pos hlt, if_neg (by omega)]
    exact ⟨rfl, rfl, rfl, rfl, rfl⟩
  · rw [if_pos (by omega), if_neg hlt, if_pos (by omega)]
    refine ⟨rfl, rfl, rfl, ?_, ?_⟩
    · show (s.outstart + 1 + 255) % 256 = s.outstart
      omega
    · show (s.y + 255) % 256 + 1 = s.y
      omega

/-- At most one scroll is needed. -/
theorem scrollWhile_spec {s : Screen} (hscreenY : s.screenY ≤ 25) (houtstart : s.outstart < 255) (hle : s.screenY ≤ s.y)
    (hy : s.y < 256) :
    (scrollWhile s.screenY s).writes = s.writes ∧ (scrollWhile s.screenY s).x = s.x ∧
      (scrollWhile s.screenY s).screenY = min s.screenY 24 ∧
      (scrollWhile s.screenY s).outstart = (if s.screenY = 25 ∧ s.outstart < 175 then s.outstart + 1 else s.outstart) ∧
      (scrollWhile s.screenY s).y + (if s.screenY = 25 ∧ 175 ≤ s.outstart then 1 else 0) = s.y := by
  rcases Nat.lt_or_eq_of_le hscreenY with hlt | hfull
  · have hne : s.screenY ≠ 25 := Nat.ne_of_lt hlt
    rw [scrollWhile_of_lt _ hlt]
    simp only [hne, false_and, if_false, Nat.add_zero, true_and, and_true]
    omega
  · obtain ⟨hwrites, hx, hscreenY', houtstart', hy'⟩ := scroll_spec hfull houtstart hy (by omega)
    have hwhile : scrollWhile s.screenY s = s.scroll := by
      rw [hfull, scrollWhile, if_pos (Nat.le_of_eq hfull.symm)]
      exact scrollWhile_of_lt 24 (by omega)
    rw [hwhile, hfull]
    simp only [true_and]
    exact ⟨hwrites, hx, hscreenY', houtstart', hy'⟩

/-- What the end of `putc` does to the counters: the row is left if it is full, and there is at most one scroll. -/
theorem finish_spec {s : Screen} (hx : s.x ≤ 80) (hscreenY : s.screenY ≤ 25) (houtstart : s.outstart < 255) (hle : s.screenY ≤ s.y)
    (hy : s.y < 255) :
    s.finish.writes = s.writes ∧ s.finish.x = (if s.x = 80 then 0 else s.x) ∧ s.finish.screenY = min s.screenY 24 ∧
      s.finish.outstart = (if s.screenY = 25 ∧ s.outstart < 175 then s.outstart + 1 else s.outstart) ∧
      s.finish.y + (if s.screenY = 25 ∧ 175 ≤ s.outstart then 1 else 0) = s.y + (if s.x = 80 then 1 else 0) := by
  unfold finish
  by_cases hfull : s.x = 80
  · have hmod : (s.y + 1) % 256 = s.y + 1 := Nat.mod_eq_of_lt (by omega)
    simp only [hfull, hmod]
    exact scrollWhile_spec (s := { s with y := s.y + 1, x := 0 }) hscreenY houtstart (Nat.le_succ_of_le hle) (Nat.succ_lt_succ hy)
  · have hlt : ¬s.x ≥ ttyScreenX := by
      show ¬80 ≤ s.x
      omega
    simp only [hlt, hfull, if_false, Nat.add_zero]
    exact scrollWhile_spec hscreenY houtstart hle (Nat.lt_succ_of_lt hy)

theorem finish_eq {s : Screen} (h : Counters s) : s.finish = s := by
  have hx : ¬s.x ≥ ttyScreenX := Nat.not_le_of_lt h.x
  have hlt : s.screenY < 25 := Nat.lt_succ_of_le h.screenY
  simp only [finish, hx, if_false]
  exact scrollWhile_of_lt _ hlt

/-! ## What a character does -/

/-- What a step does to the counters, and where it writes. -/
structure Moves (s s' : Screen) (rows : Nat) : Prop where
  counters : Counters s'
  ahead : s'.y + s.counted s.outstart = s.y + rows + s'.counted s'.outstart
  le : s'.y ≤ s.y + 1
  writes : ∀ i ∈ s'.writes, i ∈ s.writes ∨ i < ttyScreenX * (s.y + 1)

/-- One step after another that stayed in the row. -/
theorem Moves.same_row {s s₁ s₂ : Screen} {rows : Nat} (h₁ : Moves s s₁ 0) (hy : s₁.y = s.y) (h₂ : Moves s₁ s₂ rows) :
    Moves s s₂ rows := by
  have hahead₁ := h₁.ahead
  have hahead₂ := h₂.ahead
  refine ⟨h₂.counters, by omega, hy ▸ h₂.le, ?_⟩
  intro i hi
  rcases h₂.writes i hi with hi | hi
  · exact h₁.writes i hi
  · exact .inr (hy ▸ hi)

/-- A character is written at the cursor, which moves on. -/
theorem putChar_spec {s : Screen} (h : Counters s) (hy : s.y < 255) (c : UInt8) :
    (s.putChar c).writes = s.cpos :: s.writes ∧ (s.putChar c).x = (if s.x = 79 then 0 else s.x + 1) ∧
      (s.putChar c).screenY = s.screenY ∧ (s.putChar c).outstart = s.outstart ∧
      (s.putChar c).y = s.y + (if s.x = 79 then 1 else 0) := by
  obtain ⟨hx, hscreenY, houtstart, hle⟩ := h
  unfold putChar
  generalize hs₁ : ({ s.write c with x := (s.x + 1) % 256 } : Screen) = s₁
  have hx₁ : s₁.x = s.x + 1 := by
    rw [← hs₁]
    exact Nat.mod_eq_of_lt (by omega)
  have hwrites₁ : s₁.writes = s.cpos :: s.writes := by rw [← hs₁]; rfl
  have hy₁ : s₁.y = s.y := by rw [← hs₁]; rfl
  have hscreenY₁ : s₁.screenY = s.screenY := by rw [← hs₁]; rfl
  have houtstart₁ : s₁.outstart = s.outstart := by rw [← hs₁]; rfl
  obtain ⟨hwrites', hx', hscreenY', houtstart', hy'⟩ :=
    finish_spec (s := s₁) (by omega) (by omega) (by omega) (by omega) (by omega)
  refine ⟨hwrites'.trans hwrites₁, ?_, ?_, ?_, ?_⟩
  · rw [hx', hx₁]
    split_ifs <;> omega
  · rw [hscreenY', hscreenY₁]
    exact Nat.min_eq_left hscreenY
  · rw [houtstart', houtstart₁, if_neg (by omega)]
  · rw [hy₁, hx₁] at hy'
    split_ifs at hy' ⊢ <;> omega

theorem putChar_moves {s : Screen} (h : Counters s) (hy : s.y < 255) (c : UInt8) :
    Moves s (s.putChar c) (if s.x = 79 then 1 else 0) := by
  obtain ⟨hwrites', hx', hscreenY', houtstart', hy'⟩ := putChar_spec h hy c
  obtain ⟨hx, hscreenY, houtstart, hle⟩ := h
  refine ⟨⟨?_, ?_, ?_, ?_⟩, ?_, ?_, ?_⟩
  · rw [hx']
    split_ifs <;> omega
  · rw [hscreenY']
    exact hscreenY
  · rw [houtstart']
    exact houtstart
  · rw [hscreenY', hy']
    exact Nat.le_add_right_of_le hle
  · simp only [counted, hy', houtstart', hscreenY']
  · rw [hy']
    split_ifs <;> omega
  · intro i hi
    rw [hwrites'] at hi
    rcases List.mem_cons.mp hi with rfl | hi
    · refine .inr ?_
      simp only [cpos, ttyScreenX]
      omega
    · exact .inl hi

/-- The blanks of a tab: the row is left by them if the cursor is behind the last stop. -/
theorem putTab_moves {n : Nat} {s : Screen} (h : Counters s) (hy : s.y < 255) (hn : s.x < 77 ∨ 80 ≤ s.x + n) :
    Moves s (putTab n s) (if 77 ≤ s.x then 1 else 0) := by
  induction n generalizing s with
  | zero =>
    have hx := h.x
    have hlt : ¬77 ≤ s.x := by omega
    rw [if_neg hlt]
    exact ⟨h, by rw [putTab]; omega, by rw [putTab]; omega, fun i hi => .inl hi⟩
  | succ n ih =>
    have hx := h.x
    have hone := putChar_moves h hy 32
    obtain ⟨-, hx', -, -, hy'⟩ := putChar_spec h hy 32
    rw [putTab]
    by_cases hlast : s.x = 79
    · rw [if_pos hlast] at hx' hone
      rw [if_neg (by rw [hx']; decide), if_pos (by omega)]
      exact hone
    · rw [if_neg hlast] at hx' hy' hone
      by_cases hstop : (s.x + 1) % 7 = 0
      · rw [if_neg (by rw [hx']; exact not_not.mpr hstop), if_neg (by omega)]
        exact hone
      · -- the loop goes on in the same row, not at the last stop
        rw [if_pos (by rw [hx']; exact hstop)]
        have hrest := ih hone.counters (by omega) (by omega)
        have hcol : (77 ≤ (s.putChar 32).x) = (77 ≤ s.x) := by
          rw [hx', eq_iff_iff]
          omega
        rw [hx'] at hcol
        simp only [hx', hcol] at hrest
        exact hone.same_row hy' hrest

/-- A new line. -/
theorem newline_spec {s : Screen} (h : Counters s) (hy : s.y < 254) :
    (s.putc 10).writes = s.writes ∧ (s.putc 10).x = 0 ∧ (s.putc 10).screenY = min (s.screenY + 1) 24 ∧
      (s.putc 10).outstart = (if s.screenY = 24 ∧ s.outstart < 175 then s.outstart + 1 else s.outstart) ∧
      (s.putc 10).y + (if s.screenY = 24 ∧ 175 ≤ s.outstart then 1 else 0) = s.y + 1 := by
  obtain ⟨hx, hscreenY, houtstart, hle⟩ := h
  rw [putc, if_pos rfl]
  generalize hs₁ : ({ s with x := 0, y := (s.y + 1) % 256, screenY := (s.screenY + 1) % 256 } : Screen) = s₁
  have hx₁ : s₁.x = 0 := by rw [← hs₁]
  have hwrites₁ : s₁.writes = s.writes := by rw [← hs₁]
  have houtstart₁ : s₁.outstart = s.outstart := by rw [← hs₁]
  have hy₁ : s₁.y = s.y + 1 := by
    rw [← hs₁]
    exact Nat.mod_eq_of_lt (by omega)
  have hscreenY₁ : s₁.screenY = s.screenY + 1 := by
    rw [← hs₁]
    exact Nat.mod_eq_of_lt (by omega)
  have hfull : s.screenY + 1 = 25 ↔ s.screenY = 24 := by omega
  obtain ⟨hwrites', hx', hscreenY', houtstart', hy'⟩ :=
    finish_spec (s := s₁) (by omega) (by omega) (by omega) (by omega) (by omega)
  refine ⟨hwrites'.trans hwrites₁, ?_, ?_, ?_, ?_⟩
  · rw [hx', hx₁]
    rfl
  · rw [hscreenY', hscreenY₁]
  · simp only [houtstart', hscreenY₁, houtstart₁, hfull]
  · simp only [hx₁, hy₁, hscreenY₁, houtstart₁, hfull] at hy'
    simpa using hy'

theorem newline_moves {s : Screen} (h : Counters s) (hy : s.y < 254) : Moves s (s.putc 10) 0 := by
  obtain ⟨hwrites', hx', hscreenY', houtstart', hy'⟩ := newline_spec h hy
  obtain ⟨hx, hscreenY, houtstart, hle⟩ := h
  refine ⟨⟨?_, ?_, ?_, ?_⟩, ?_, ?_, ?_⟩
  · rw [hx']
    decide
  · omega
  · rw [houtstart']
    split_ifs <;> omega
  · split_ifs at hy' <;> omega
  · simp only [counted, conMaxStartLine, houtstart', hscreenY']
    split_ifs at hy' ⊢ <;> omega
  · split_ifs at hy' <;> omega
  · intro i hi
    exact .inl (hwrites' ▸ hi)

/-- The cursor moves back in its row, and a blank may be written there. -/
theorem back_moves {s : Screen} (h : Counters s) (n : Nat) (hn : n ≤ s.x) (i : List Nat)
    (hi : ∀ j ∈ i, j < ttyScreenX * (s.y + 1)) (b : Nat → UInt16) :
    Moves s (finish { s with outbuf := b, x := n, writes := i ++ s.writes }) 0 := by
  obtain ⟨hx, hscreenY, houtstart, hle⟩ := h
  have hcounters : Counters { s with outbuf := b, x := n, writes := i ++ s.writes } :=
    ⟨Nat.lt_of_le_of_lt hn hx, hscreenY, houtstart, hle⟩
  rw [finish_eq hcounters]
  refine ⟨hcounters, rfl, Nat.le_succ s.y, ?_⟩
  intro j hj
  rcases List.mem_append.mp hj with hj | hj
  · exact .inr (hi j hj)
  · exact .inl hj

theorem putc_moves {s : Screen} (h : Counters s) (hy : s.y ≤ 203) (c : UInt8) :
    Moves s (s.putc c) (if s.Wraps c then 1 else 0) := by
  by_cases h10 : c = 10
  · subst h10
    rw [if_neg fun hw => hw.1 rfl]
    exact newline_moves h (by omega)
  by_cases h13 : c = 13
  · subst h13
    rw [if_neg fun hw => hw.2.1 rfl, putc, if_neg h10, if_pos rfl]
    exact back_moves h 0 (Nat.zero_le _) [] nofun s.outbuf
  by_cases h8 : c = 8
  · subst h8
    rw [if_neg fun hw => hw.2.2.1 rfl, putc, if_neg h10, if_neg h13, if_pos rfl]
    split_ifs with hx
    · refine back_moves h (s.x - 1) (Nat.sub_le ..) [s.x - 1 + s.y * ttyScreenX] ?_ _
      have hlt := h.x
      intro j hj
      rw [List.mem_singleton.mp hj]
      simp only [ttyScreenX]
      omega
    · exact back_moves h s.x (Nat.le_refl _) [] nofun s.outbuf
  by_cases h9 : c = 9
  · subst h9
    have hwraps : s.Wraps 9 ↔ 77 ≤ s.x := by simp [Wraps]
    have htab := putTab_moves (n := 7) h (by omega) (by omega)
    rw [putc, if_neg h10, if_neg h13, if_neg h8, if_pos rfl, finish_eq htab.counters]
    simpa only [hwraps] using htab
  · have hwraps : s.Wraps c ↔ s.x = 79 := by simp [Wraps, h10, h13, h8, h9]
    rw [putc, if_neg h10, if_neg h13, if_neg h8, if_neg h9]
    simpa only [hwraps] using putChar_moves h (by omega) c

/-! ## Runs -/

/-- What holds in every state. -/
structure RowOk (s : Screen) : Prop where
  counters : Counters s
  row : s.y ≤ s.counted s.outstart + 4
  writes : ∀ i ∈ s.writes, i < conMemChars

theorem RowOk.y_le {s : Screen} (h : RowOk s) : s.y ≤ 203 := by
  have hrow := h.row
  have hscreenY := h.counters.screenY
  simp only [counted, conMaxStartLine] at hrow
  omega

/-- Scrolling by the user changes `outstart` only. -/
theorem RowOk.scrolled {s : Screen} (h : RowOk s) {outstart : Nat} (houtstart : outstart < 255)
    (hrow : s.y ≤ s.counted outstart + 4) : RowOk { s with outstart := outstart } :=
  ⟨⟨h.counters.x, h.counters.screenY, houtstart, h.counters.le_y⟩, hrow, h.writes⟩

theorem RowOk.step {s : Screen} {c : ScreenCall} (h : RowOk s) (hc : KeepsRow s c) : RowOk (c.exec s) := by
  have hy := h.y_le
  have houtstart := h.counters.outstart
  have hrow := h.row
  cases c with
  | putc c =>
    have hmoves := putc_moves h.counters hy c
    refine ⟨hmoves.counters, ?_, ?_⟩
    · have hahead := hmoves.ahead
      show (s.putc c).y ≤ (s.putc c).counted (s.putc c).outstart + 4
      split_ifs at hahead with hwraps
      · have := hc hwraps
        omega
      · omega
    · intro i hi
      rcases hmoves.writes i hi with hi | hi
      · exact h.writes i hi
      · simp only [ttyScreenX] at hi
        show i < 16384
        omega
  | lineUp =>
    unfold ScreenCall.exec scrollLineUp
    split_ifs
    · exact h.scrolled (by omega) hc
    · exact h
  | lineDown =>
    unfold ScreenCall.exec scrollLineDown
    split_ifs with hlt
    · simp only [conMaxStartLine] at hlt
      refine h.scrolled (by omega) ?_
      simp only [counted, conMaxStartLine] at hrow ⊢
      omega
    · exact h
  | toTop => exact h.scrolled (by decide) hc
  | toBottom =>
    refine h.scrolled (by split_ifs <;> omega) ?_
    have hbottom : (if s.y > 24 then s.y - 24 else 0) = s.y - 24 := by split_ifs <;> omega
    rw [hbottom]
    exact hc

/-! ## When the cursor is too far ahead -/

/-- The cursor is more than 4 rows ahead of the row that is counted for it, and has not reached the end. -/
structure Ahead (s : Screen) : Prop where
  counters : Counters s
  row : s.counted s.outstart + 5 ≤ s.y
  y_le : s.y ≤ 204

theorem ahead_of_not_keepsRow {s : Screen} {c : ScreenCall} (h : RowOk s) (hc : ¬KeepsRow s c) : Ahead (c.exec s) := by
  have hy := h.y_le
  have hrow := h.row
  have houtstart := h.counters.outstart
  have hscrolled : ∀ outstart < 255, ¬s.y ≤ s.counted outstart + 4 → Ahead { s with outstart := outstart } := by
    intro outstart hlt hrow
    exact ⟨⟨h.counters.x, h.counters.screenY, hlt, h.counters.le_y⟩, Nat.lt_of_not_le hrow, Nat.le_succ_of_le hy⟩
  cases c with
  | putc c =>
    obtain ⟨hwraps, hge⟩ := Classical.not_imp.mp hc
    have hmoves := putc_moves h.counters hy c
    have hahead := hmoves.ahead
    have hle := hmoves.le
    rw [if_pos hwraps] at hahead
    exact ⟨hmoves.counters, (by omega : (s.putc c).counted (s.putc c).outstart + 5 ≤ (s.putc c).y),
      (by omega : (s.putc c).y ≤ 204)⟩
  | lineUp =>
    have hne : s.outstart ≠ 0 := by
      intro h0
      rw [h0] at hrow
      exact hc (by rw [KeepsRow, h0]; exact hrow)
    rw [ScreenCall.exec, scrollLineUp, if_pos hne]
    exact hscrolled _ (by omega) hc
  | lineDown => exact absurd trivial hc
  | toTop => exact hscrolled 0 (by decide) hc
  | toBottom =>
    have hbottom : (if s.y > 24 then s.y - 24 else 0) = s.y - 24 := by split_ifs <;> omega
    rw [ScreenCall.exec, scrollToBottom, hbottom]
    exact hscrolled _ (by omega) hc

/-- What output without full rows reaches. -/
abbrev Written (s₀ s : Screen) : Prop := Reach (fun s c => some (putc s c)) (fun s c => ¬s.Wraps c) s₀ s

/-- Lines take the cursor to the row 204: the rows do not move up before. -/
theorem exists_lines {s₀ : Screen} (h : Ahead s₀) (n : Nat) (hn : s₀.y + n ≤ 204) :
    ∃ s, Written s₀ s ∧ Ahead s ∧ s.y = s₀.y + n := by
  induction n with
  | zero => exact ⟨s₀, .init, h, rfl⟩
  | succ n ih =>
    obtain ⟨s, hreach, hahead, hy⟩ := ih (by omega)
    obtain ⟨-, -, -, -, hy'⟩ := newline_spec hahead.counters (by omega)
    have hmoves := newline_moves hahead.counters (by omega)
    have hrow := hahead.row
    have hrow' := hmoves.ahead
    have hnot : ¬(s.screenY = 24 ∧ 175 ≤ s.outstart) := by
      rintro ⟨h24, h175⟩
      simp only [counted, conMaxStartLine] at hrow
      omega
    rw [if_neg hnot] at hy'
    refine ⟨s.putc 10, .step 10 hreach (fun hw => hw.1 rfl) rfl, ⟨hmoves.counters, ?_, ?_⟩, ?_⟩ <;> omega

theorem wraps_char {s : Screen} : s.Wraps 97 ↔ s.x = 79 := by simp [Wraps]

/-- Characters take it on in its row. -/
theorem exists_chars {s₀ s : Screen} (hs : Written s₀ s) (h : Counters s) (hx : s.x = 0) (hy : s.y = 204) (n : Nat) (hn : n ≤ 64) :
    ∃ s', Written s₀ s' ∧ Counters s' ∧ s'.x = n ∧ s'.y = 204 := by
  induction n with
  | zero => exact ⟨s, hs, h, hx, hy⟩
  | succ n ih =>
    obtain ⟨s', hreach, hcounters, hx', hy'⟩ := ih (by omega)
    obtain ⟨-, hx'', -, -, hy''⟩ := putChar_spec hcounters (by omega) 97
    have hne : s'.x ≠ 79 := by omega
    rw [if_neg hne] at hx'' hy''
    exact ⟨s'.putc 97, .step 97 hreach (mt wraps_char.mp hne) rfl, (putChar_moves hcounters (by omega) 97).counters, hx''.trans (by rw [hx']),
      hy''.trans hy'⟩

/-- The first character behind `outbuf` is in the row 204. -/
theorem exists_write_behind {s : Screen} (h : Ahead s) : ∃ s', Written s s' ∧ conMemChars ∈ s'.writes := by
  have hle := h.y_le
  obtain ⟨s₁, hreach₁, hahead₁, hy₁⟩ := exists_lines h (204 - s.y) (by omega)
  have hcounters : Counters { s₁ with x := 0 } :=
    ⟨Nat.zero_lt_succ 79, hahead₁.counters.screenY, hahead₁.counters.outstart, hahead₁.counters.le_y⟩
  have hreturn : s₁.putc 13 = { s₁ with x := 0 } := finish_eq hcounters
  have hreach₂ : Written s { s₁ with x := 0 } := .step 13 hreach₁ (fun hw => hw.2.1 rfl) (congrArg some hreturn)
  obtain ⟨s₃, hreach₃, hcounters₃, hx₃, hy₃⟩ :=
    exists_chars hreach₂ hcounters rfl (by show s₁.y = 204; omega) 64 (Nat.le_refl 64)
  have hne : s₃.x ≠ 79 := by omega
  have hcpos : s₃.cpos = conMemChars := by
    rw [cpos, hx₃, hy₃]
    rfl
  refine ⟨s₃.putc 97, .step 97 hreach₃ (mt wraps_char.mp hne) rfl, ?_⟩
  show conMemChars ∈ (s₃.putChar 97).writes
  rw [(putChar_spec hcounters₃ (by omega) 97).1, hcpos]
  exact List.mem_cons_self

/-- Characters are written one behind the other, from row to row. -/
theorem chars_counters {s : Screen} (h : Counters s) (n : Nat) (hn : s.cpos + n ≤ conMemChars) :
    Counters ((List.replicate n 97).foldl putc s) ∧ ((List.replicate n 97).foldl putc s).cpos = s.cpos + n := by
  induction n with
  | zero => exact ⟨h, rfl⟩
  | succ n ih =>
    obtain ⟨hcounters, hcpos⟩ := ih (by omega)
    rw [List.replicate_succ', List.foldl_append]
    generalize (List.replicate n 97).foldl putc s = s₁ at hcounters hcpos ⊢
    have hy : s₁.y < 255 := by
      simp only [cpos, ttyScreenX, conMemChars] at hcpos hn
      omega
    obtain ⟨-, hx', -, -, hy'⟩ := putChar_spec hcounters hy 97
    refine ⟨(putChar_moves hcounters hy 97).counters, ?_⟩
    show (s₁.putChar 97).cpos = _
    simp only [cpos, ttyScreenX] at hcpos ⊢
    rw [hx', hy']
    split_ifs <;> omega

theorem chars_behind {s : Screen} (h : Counters s) (n : Nat) (hn : s.cpos + n = conMemChars) :
    conMemChars ∈ ((List.replicate (n + 1) 97).foldl putc s).writes := by
  obtain ⟨hcounters, hcpos⟩ := chars_counters h n (Nat.le_of_eq hn)
  rw [List.replicate_succ', List.foldl_append]
  generalize (List.replicate n 97).foldl putc s = s₁ at hcounters hcpos ⊢
  have hcpos₁ : s₁.cpos = conMemChars := hcpos.trans hn
  have hy : s₁.y < 255 := by
    simp only [cpos, ttyScreenX, conMemChars] at hcpos₁
    omega
  show conMemChars ∈ (s₁.putChar 97).writes
  rw [(putChar_spec hcounters hy 97).1, hcpos₁]
  exact List.mem_cons_self

/-- Output without full rows stays in `outbuf`. -/
theorem RowOk.written {s s' : Screen} (h : RowOk s) (hs : Written s s') : RowOk s' := by
  refine hs.inv RowOk h ?_
  intro s c s' hs hwraps hstep
  cases hstep
  exact RowOk.step (c := .putc c) hs fun hw => absurd hw hwraps

end ScreenAux

open ScreenAux

/-- In every state reached by calls that all keep the row, every character was written into `outbuf`. A further call keeps the row if
and only if all output after it, as long as no row is left because it is full, is written into `outbuf`. -/
theorem writes_of_keepsRow (status : UInt8) (s : Screen)
    (h : Reach (fun s c => some (ScreenCall.exec s c)) KeepsRow (newScreen status) s) :
    (∀ i ∈ s.writes, i < conMemChars) ∧
    ∀ c, KeepsRow s c ↔
      ∀ s', Reach (fun s c => some (Screen.putc s c)) (fun s c => ¬s.Wraps c) (c.exec s) s' → ∀ i ∈ s'.writes, i < conMemChars := by
  have hok : RowOk s := by
    refine h.inv RowOk ?_ ?_
    · exact ⟨⟨Nat.zero_lt_succ 79, Nat.zero_le 24, Nat.zero_lt_succ 254, Nat.le_refl 0⟩, Nat.zero_le _, nofun⟩
    · intro s c s' hs hc hstep
      cases hstep
      exact hs.step hc
  refine ⟨hok.writes, fun c => ⟨?_, ?_⟩⟩
  · intro hc s' hs'
    exact ((hok.step hc).written hs').writes
  · intro hall
    by_contra hc
    obtain ⟨s', hs', hbehind⟩ := exists_write_behind (ahead_of_not_keepsRow hok hc)
    exact absurd (hall s' hs' _ hbehind) (Nat.lt_irrefl _)

/-- A character is written, then 30 lines, a tab and a character, with scrolling in between. -/
def someOutput : List ScreenCall :=
  .putc 97 :: List.replicate 30 (.putc 10) ++ [.lineUp, .putc 9, .toBottom, .putc 98]

theorem someOutput_written : ∃ s, runIf (fun s c => some (ScreenCall.exec s c)) KeepsRow (newScreen 7) someOutput = some s ∧
    ∀ i ∈ s.writes, i < conMemChars := by
  obtain ⟨s, hs⟩ := Option.isSome_iff_exists.mp (by decide +kernel :
    (runIf (fun s c => some (ScreenCall.exec s c)) KeepsRow (newScreen 7) someOutput).isSome)
  exact ⟨s, hs, (writes_of_keepsRow 7 s (Reach.init.runIf someOutput hs)).1⟩

/-- The cursor is on the last row of a full screen at the end of `outbuf`, and the user scrolls to the top before more lines are
written. -/
def scrolledToTop : List ScreenCall :=
  List.replicate 199 (.putc 10) ++ .toTop :: List.replicate 6 (.putc 10) ++ [.putc 97]

/-- The character after these lines is written at the index 16400. And without any line, 16385 characters do not fit. -/
theorem writes_behind_outbuf :
    16400 ∈ (scrolledToTop.foldl ScreenCall.exec (newScreen 7)).writes ∧
    conMemChars ∈ ((List.replicate (conMemChars + 1) 97).foldl Screen.putc (newScreen 7)).writes := by
  have hnew : Counters (newScreen 7) := ⟨by decide, by decide, by decide, by decide⟩
  exact ⟨by decide +kernel, chars_behind hnew conMemChars (Nat.zero_add _)⟩

end Kos
