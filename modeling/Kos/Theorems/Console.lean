import Kos.Tty.Console

/-!
# The current terminal is on the screen

Each function that changes a terminal changes video memory and the start of the screen in the same way if the terminal is the current one, and
leaves them alone otherwise (`Follows`).
-/

namespace Kos

/-- The video card shows the terminal. -/
def Video.Shows (video : Video) (s : Screen) : Prop := (∀ i < conMemChars, video.vmem i = s.outbuf i) ∧ video.start = s.outstart * ttyScreenX

/-- The console has these terminals and shows the current one. -/
structure Console.Tracks (c : Console) (s : Terminals) : Prop where
  ttys : c.ttys = s.ttys
  cur : c.cur = s.cur
  shows : c.video.Shows (s.ttys s.cur)

namespace ConsoleAux

/-- What a function does to a terminal, and that the video card follows. -/
structure Follows (v v' : View) (s : Screen) : Prop where
  screen : v'.screen = s
  shown : v'.shown = v.shown
  other : v.shown = false → v'.video = v.video
  shows : v.shown = true → v.video.Shows v.screen → v'.video.Shows s

theorem Follows.trans {v v' v'' : View} {s s' : Screen} (h : Follows v v' s) (h' : Follows v' v'' s') : Follows v v'' s' where
  screen := h'.screen
  shown := h'.shown.trans h.shown
  other hv := (h'.other (h.shown.trans hv)).trans (h.other hv)
  shows hv hs := h'.shows (h.shown.trans hv) (h.screen ▸ h.shows hv hs)

theorem follows_of_eq {v : View} {s : Screen} (h : s = v.screen) : Follows v v s := ⟨h.symm, rfl, fun _ => rfl, fun _ hs => h ▸ hs⟩

/-- The counters of the cursor are changed first. -/
theorem follows_after {v w : View} {t s : Screen} (h : Follows { v with screen := t } w s) (hbuf : t.outbuf = v.screen.outbuf)
    (hstart : t.outstart = v.screen.outstart) : Follows v w s :=
  ⟨h.screen, h.shown, h.other, fun hv hs => h.shows hv ⟨fun i hi => (hs.1 i hi).trans (congrFun hbuf i).symm, by rw [hstart]; exact hs.2⟩⟩

theorem follows_write (v : View) (c : UInt8) : Follows v (v.write c) (v.screen.write c) := by
  refine ⟨rfl, rfl, fun hv => if_neg (by rw [hv]; exact Bool.false_ne_true), fun hv hs => ?_⟩
  rw [View.write, if_pos hv]
  refine ⟨fun i hi => ?_, hs.2⟩
  change Function.update _ _ _ i = Function.update _ _ _ i
  rw [Function.update_apply, Function.update_apply, hs.1 i hi]

/-- The start of the screen is set after the rest. -/
theorem follows_start {v w : View} (hshown : w.shown = v.shown) (hother : v.shown = false → w.video = v.video)
    (hbuf : v.shown = true → v.video.Shows v.screen → ∀ i < conMemChars, w.video.vmem i = w.screen.outbuf i) :
    Follows v w.setStartLine w.screen := by
  cases hv : v.shown with
  | true =>
    rw [View.setStartLine, if_pos (hshown.trans hv)]
    exact ⟨rfl, hshown, fun h => absurd (h.symm.trans hv) Bool.false_ne_true, fun _ hs => ⟨hbuf hv hs, rfl⟩⟩
  | false =>
    rw [View.setStartLine, if_neg (by rw [hshown, hv]; exact Bool.false_ne_true)]
    exact ⟨rfl, hshown, hother, fun h => absurd (hv.symm.trans h) Bool.false_ne_true⟩

theorem shiftUp_congr {s : Screen} {f : Nat → UInt16} (h : ∀ i < conMemChars, f i = s.outbuf i) {i : Nat} (hi : i < conMemChars) :
    Screen.shiftUp { s with outbuf := f } i = s.shiftUp i := by
  unfold Screen.shiftUp
  split
  · exact h _ (by omega)
  · rfl

theorem follows_scroll (v : View) : Follows v v.scroll v.screen.scroll := by
  have hbuf : v.screen.scroll.outbuf = if (v.screen.outstart + 1) % 256 > conMaxStartLine then v.screen.shiftUp else v.screen.outbuf := by
    simp only [Screen.scroll]
    split <;> rfl
  have hshift : v.shiftVmem.shown = v.shown := by
    unfold View.shiftVmem
    split <;> rfl
  refine follows_start hshift (fun hv => ?_) fun hv hs i hi => ?_
  · change v.shiftVmem.video = v.video
    rw [View.shiftVmem, if_neg fun h => Bool.false_ne_true (hv.symm.trans h.2)]
  · change v.shiftVmem.video.vmem i = v.screen.scroll.outbuf i
    rw [hbuf, View.shiftVmem]
    by_cases hmax : (v.screen.outstart + 1) % 256 > conMaxStartLine
    · rw [if_pos ⟨hmax, hv⟩, if_pos hmax]
      exact shiftUp_congr hs.1 hi
    · rw [if_neg fun h => hmax h.1, if_neg hmax]
      exact hs.1 i hi

theorem follows_scrollWhile (n : Nat) (v : View) : Follows v (v.scrollWhile n) (v.screen.scrollWhile n) := by
  induction n generalizing v with
  | zero => exact follows_of_eq rfl
  | succ n ih =>
    unfold View.scrollWhile Screen.scrollWhile
    split
    · have hstep := follows_scroll v
      rw [← hstep.screen]
      exact hstep.trans (ih v.scroll)
    · exact follows_of_eq rfl

theorem follows_finish (v : View) : Follows v v.finish v.screen.finish := by
  simp only [View.finish, Screen.finish]
  split
  · exact follows_after (follows_scrollWhile _ _) rfl rfl
  · exact follows_scrollWhile _ v

theorem follows_putChar (v : View) (c : UInt8) : Follows v (v.putChar c) (v.screen.putChar c) :=
  (follows_write v c).trans (follows_after (follows_finish _) rfl rfl)

theorem follows_putTab (n : Nat) (v : View) : Follows v (v.putTab n) (v.screen.putTab n) := by
  induction n generalizing v with
  | zero => exact follows_of_eq rfl
  | succ n ih =>
    have hchar := follows_putChar v 32
    unfold View.putTab Screen.putTab
    simp only [hchar.screen]
    split
    · have hrest := hchar.trans (ih (v.putChar 32))
      rwa [hchar.screen] at hrest
    · exact hchar

theorem follows_putc (v : View) (c : UInt8) : Follows v (v.putc c) (v.screen.putc c) := by
  unfold View.putc Screen.putc
  split
  · exact follows_after (follows_finish _) rfl rfl
  split
  · exact follows_after (follows_finish _) rfl rfl
  split
  · split
    · exact follows_after ((follows_write _ 32).trans (follows_finish _)) rfl rfl
    · exact follows_finish v
  split
  · have htab := follows_putTab 7 v
    rw [← htab.screen]
    exact htab.trans (follows_finish _)
  · exact follows_putChar v c

theorem follows_exec (v : View) (call : ScreenCall) : Follows v (v.exec call) (call.exec v.screen) := by
  -- the keys do not change what is in the terminal
  have hscroll : (call.exec v.screen).outbuf = v.screen.outbuf →
      Follows v { v with screen := call.exec v.screen }.setStartLine (call.exec v.screen) := fun hbuf =>
    follows_start rfl (fun _ => rfl) fun _ hs i hi => (hs.1 i hi).trans (congrFun hbuf i).symm
  cases call with
  | putc c => exact follows_putc v c
  | lineUp | lineDown =>
    rw [View.exec]
    split
    · exact hscroll ((apply_ite Screen.outbuf ..).trans (ite_self _))
    · exact follows_of_eq (if_neg ‹_›)
  | toTop | toBottom => exact hscroll rfl

theorem shows_select (c : Console) (n : Nat) : (c.select n).video.Shows (c.ttys n) := ⟨fun _ hi => if_pos hi, rfl⟩

theorem tracks_exec {c : Console} {s : Terminals} (h : c.Tracks s) (call : ConsoleCall) : (call.exec c).Tracks (s.step call) := by
  obtain ⟨httys, hcur, hs⟩ := h
  rw [← httys, ← hcur] at hs
  cases call with
  | select n => exact ⟨httys, rfl, httys ▸ shows_select c n⟩
  | tty n call =>
    have hstep := follows_exec ⟨c.ttys n, c.video, decide (n = c.cur)⟩ call
    unfold Terminals.step
    rw [ConsoleCall.exec, hstep.screen, ← httys, ← hcur]
    refine ⟨rfl, rfl, ?_⟩
    change Video.Shows _ (Function.update c.ttys n (call.exec (c.ttys n)) c.cur)
    by_cases hn : n = c.cur
    · subst hn
      rw [Function.update_self]
      exact hstep.shows (decide_eq_true rfl) hs
    · rw [Function.update_of_ne (Ne.symm hn), hstep.other (decide_eq_false hn)]
      exact hs

end ConsoleAux

open ConsoleAux

end Kos
