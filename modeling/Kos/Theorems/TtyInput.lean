import Kos.Lemmas.TtyInput
import Kos.Lib.Run

/-!
# Keys and reads of a terminal

A run of a terminal is any interleaving of keys and reads. It keeps a log of the reads that were made, of the answers and of the bytes
that were typed. In the normal mode, as long as two places of the input buffer are free for each key, the answers are the lines of what
was typed, in the order of the reads. A `'\n'` that comes when only one place is free puts its NUL behind the buffer.
-/

namespace Kos

/-- A terminal, the reads and the answers so far, and what was typed and not erased. -/
structure TtyRun where
  tty : Tty
  reads : List Request
  answers : List Answer
  typed : List UInt8

inductive TtyCall where
  | key (c : UInt8)
  | read (rq : Request)

namespace TtyRun

/-- The log of what was typed, after a key in the normal mode. Only what is not delivered yet is edited. -/
def log (r : TtyRun) (c : UInt8) : List UInt8 :=
  let delivered := r.answers.flatMap Answer.data
  if c = 0 then r.typed else delivered ++ edited false (r.typed.drop delivered.length) c

def step (r : TtyRun) : TtyCall → Option TtyRun
  | .key c =>
    match handleInput r.tty c with
    | .ok (as, tty) => some ⟨tty, r.reads, r.answers ++ as, r.log c⟩
    | .error _ => none
  | .read rq =>
    match ttyRead r.tty rq with
    | .ok (a, tty) => some ⟨tty, r.reads ++ [rq], r.answers ++ a.toList, r.typed⟩
    | .error _ => none

/-- Two places are free for a key. -/
def HasRoom (r : TtyRun) : TtyCall → Prop
  | .key _ => r.tty.incount ≤ ttyInbufSize - 2
  | .read _ => True

/-- A key is not a `'\n'` for which only one place is free. -/
def Fits (r : TtyRun) : TtyCall → Prop
  | .key c => LineFits r.tty c
  | .read _ => True

instance (r : TtyRun) (call : TtyCall) : Decidable (r.HasRoom call) := by
  cases call <;> unfold HasRoom <;> infer_instance

instance (r : TtyRun) (call : TtyCall) : Decidable (r.Fits call) := by
  cases call <;> unfold Fits <;> infer_instance

end TtyRun

/-- A new terminal, before the first call. -/
def newRun (screen : Screen) (inbuf : Nat → UInt8) (flags : UInt8) : TtyRun := ⟨newTty screen inbuf flags, [], [], []⟩

namespace TtyAux

variable {r r' : TtyRun} {c : UInt8}

/-- What holds in every state of a run in the normal mode. -/
structure LinesOk (r : TtyRun) : Prop where
  input : InputOk r.tty
  normal : r.tty.isRaw = false
  pending : r.tty.requests ≠ [] → r.tty.eotcount = 0
  delivers : Delivers r.reads r.typed r.answers r.tty
  lines : ∀ a ∈ r.answers, a.IsLine

theorem lineFits_of_room (h : r.tty.incount ≤ ttyInbufSize - 2) : LineFits r.tty c := by
  rintro ⟨-, -, hcount⟩
  rw [hcount] at h
  exact absurd h (by decide)

theorem log_eq (h : LinesOk r) (hc : c ≠ 0) :
    r.log c = r.answers.flatMap Answer.data ++ edited false r.tty.content c := by
  rw [TtyRun.log, if_neg hc, h.delivers.bytes, List.drop_left]

theorem inputOk_newTty (screen : Screen) (inbuf : Nat → UInt8) (flags : UInt8) : InputOk (newTty screen inbuf flags) :=
  ⟨Nat.zero_le _, fun _ => rfl⟩

/-- A key for which there is room. -/
theorem LinesOk.handleInput (h : LinesOk r) (hc : c ≠ 0) (hroom : r.tty.incount ≤ ttyInbufSize - 2) :
    ∃ as tty', handleInput r.tty c = .ok (as, tty') ∧ Delivers r.tty.requests (edited false r.tty.content c) as tty' ∧
      (∀ a ∈ as, a.IsLine) ∧ InputOk tty' ∧ tty'.isRaw = false ∧ (tty'.requests ≠ [] → tty'.eotcount = 0) := by
  have hraw := h.normal
  have hlt : r.tty.incount < ttyInbufSize := Nat.lt_of_le_of_lt hroom (by decide)
  obtain ⟨as, tty', hinput, hdelivers, hok, hflags, hlines⟩ :=
    handleInput_spec h.input hc hlt (by rw [hraw]; nofun) (lineFits_of_room hroom)
  rw [hraw] at hdelivers
  exact ⟨as, tty', hinput, hdelivers, (hlines hraw).1, hok, (isRaw_congr hflags).trans hraw, (hlines hraw).2⟩

theorem LinesOk.key (h : LinesOk r) (hroom : r.HasRoom (.key c)) (hstep : r.step (.key c) = some r') : LinesOk r' := by
  rw [TtyRun.step] at hstep
  by_cases hc : c = 0
  · rw [Kos.handleInput, if_pos hc] at hstep
    cases hstep
    rw [TtyRun.log, if_pos hc, List.append_nil]
    exact ⟨h.input, h.normal, h.pending, h.delivers, h.lines⟩
  · obtain ⟨as, tty', hinput, hdelivers, hlines, hok, hraw, hpending⟩ := h.handleInput hc hroom
    rw [hinput] at hstep
    cases hstep
    refine ⟨hok, hraw, hpending, ?_, List.forall_mem_append.mpr ⟨h.lines, hlines⟩⟩
    rw [← List.append_nil r.tty.requests] at hdelivers
    have hboth := delivers_append h.delivers hdelivers
    rw [List.append_nil, ← log_eq h hc] at hboth
    exact hboth

/-- A read. -/
theorem LinesOk.ttyRead (h : LinesOk r) (rq : Request) :
    ∃ a tty', ttyRead r.tty rq = .ok (a, tty') ∧ Delivers (r.tty.requests ++ [rq]) r.tty.content a.toList tty' ∧
      (∀ b ∈ a.toList, b.IsLine) ∧ InputOk tty' ∧ tty'.isRaw = false ∧ (tty'.requests ≠ [] → tty'.eotcount = 0) := by
  obtain ⟨a, tty', hread, hok, hflags, hnormal⟩ := ttyRead_spec h.input rq
  obtain ⟨hdelivers, hline, hpending⟩ := hnormal h.normal h.pending
  refine ⟨a, tty', hread, hdelivers, ?_, hok, (isRaw_congr hflags).trans h.normal, hpending⟩
  intro b hb
  exact hline b (Option.mem_toList.mp hb)

theorem LinesOk.read {rq : Request} (h : LinesOk r) (hstep : r.step (.read rq) = some r') : LinesOk r' := by
  obtain ⟨a, tty', hread, hdelivers, hlines, hok, hraw, hpending⟩ := h.ttyRead rq
  rw [TtyRun.step, hread] at hstep
  cases hstep
  refine ⟨hok, hraw, hpending, ?_, List.forall_mem_append.mpr ⟨h.lines, hlines⟩⟩
  have hboth := delivers_append h.delivers hdelivers
  rw [← h.delivers.bytes] at hboth
  exact hboth

theorem linesOk_of_reach {screen : Screen} {inbuf : Nat → UInt8} {flags : UInt8} (hflags : flags &&& ttyRaw = 0)
    (h : Reach TtyRun.step TtyRun.HasRoom (newRun screen inbuf flags) r) : LinesOk r := by
  refine h.inv LinesOk ?_ ?_
  · exact ⟨inputOk_newTty screen inbuf flags, decide_eq_false (not_not.mpr hflags), fun hne => absurd rfl hne, ⟨rfl, rfl⟩, nofun⟩
  · intro r call r' hok hroom hstep
    cases call with
    | key c => exact hok.key hroom hstep
    | read rq => exact hok.read hstep

theorem inputOk_of_reach {screen : Screen} {inbuf : Nat → UInt8} {flags : UInt8}
    (h : Reach TtyRun.step TtyRun.Fits (newRun screen inbuf flags) r) : InputOk r.tty := by
  refine h.inv (fun r => InputOk r.tty) (inputOk_newTty screen inbuf flags) ?_
  intro r call r' hok hfits hstep
  cases call with
  | key c =>
    obtain ⟨as, tty', hinput, hok', -⟩ := handleInput_ok hok hfits
    rw [TtyRun.step, hinput] at hstep
    cases hstep
    exact hok'
  | read rq =>
    obtain ⟨a, tty', hread, hok', -⟩ := ttyRead_spec hok rq
    rw [TtyRun.step, hread] at hstep
    cases hstep
    exact hok'

end TtyAux

open TtyAux

/-- In the normal mode, if two places are free before every key: `eotcount` is the number of NULs in the buffer, reads wait only while
it is 0, and the answers so far are the lines of what was typed, in the order of the reads. The next key and the next read return. What
the key makes of the buffer, or what the read finds there, is given to the reads that were waiting, line by line from the front. -/
theorem lines_delivered (screen : Screen) (inbuf : Nat → UInt8) (flags : UInt8) (hflags : flags &&& ttyRaw = 0) (r : TtyRun)
    (h : Reach TtyRun.step TtyRun.HasRoom (newRun screen inbuf flags) r) :
    r.tty.eotcount = r.tty.content.count 0 ∧ (r.tty.requests ≠ [] → r.tty.eotcount = 0) ∧
    Delivers r.reads r.typed r.answers r.tty ∧ (∀ a ∈ r.answers, a.IsLine) ∧
    (∀ c, c ≠ 0 → r.tty.incount ≤ ttyInbufSize - 2 →
      ∃ as tty', handleInput r.tty c = .ok (as, tty') ∧ Delivers r.tty.requests (edited false r.tty.content c) as tty' ∧
        ∀ a ∈ as, a.IsLine) ∧
    ∀ rq, ∃ a tty', ttyRead r.tty rq = .ok (a, tty') ∧ Delivers (r.tty.requests ++ [rq]) r.tty.content a.toList tty' ∧
      ∀ b ∈ a.toList, b.IsLine := by
  have hok := linesOk_of_reach hflags h
  refine ⟨hok.input.eots hok.normal, hok.pending, hok.delivers, hok.lines, ?_, ?_⟩
  · intro c hc hroom
    obtain ⟨as, tty', hinput, hdelivers, hlines, -⟩ := hok.handleInput hc hroom
    exact ⟨as, tty', hinput, hdelivers, hlines⟩
  · intro rq
    obtain ⟨a, tty', hread, hdelivers, hlines, -⟩ := hok.ttyRead rq
    exact ⟨a, tty', hread, hdelivers, hlines⟩

/-- A read that waits for `"hi\n"`, typed with a mistake, and one for the line after it. -/
def twoLines : List TtyCall :=
  [.read ⟨0, 16⟩, .key 104, .key 111, .key 8, .key 105, .key 10, .key 120, .key eot, .read ⟨16, 16⟩, .read ⟨32, 16⟩, .key 121]

theorem twoLines_delivered :
    ∃ r, runIf TtyRun.step TtyRun.HasRoom (newRun (newScreen 7) (fun _ => 0) ttyEcho) twoLines = some r ∧
      r.answers = [⟨⟨0, 16⟩, 3, [104, 105, 10, 0]⟩, ⟨⟨16, 16⟩, 1, [120, 0]⟩] ∧ r.tty.requests = [⟨32, 16⟩] ∧
      r.tty.eotcount = 0 ∧ r.typed = [104, 105, 10, 0, 120, 0] ++ r.tty.content := by
  have hrun : (runIf TtyRun.step TtyRun.HasRoom (newRun (newScreen 7) (fun _ => 0) ttyEcho) twoLines).any
      (fun r => r.answers = [⟨⟨0, 16⟩, 3, [104, 105, 10, 0]⟩, ⟨⟨16, 16⟩, 1, [120, 0]⟩] ∧ r.tty.requests = [⟨32, 16⟩]) = true := by
    decide +kernel
  obtain ⟨r, hr, hlogs⟩ := (Option.any_eq_true _ _).mp hrun
  obtain ⟨hanswers, hrequests⟩ := of_decide_eq_true hlogs
  obtain ⟨-, hpending, hdelivers, -⟩ := lines_delivered (newScreen 7) (fun _ => 0) ttyEcho rfl r (Reach.init.runIf twoLines hr)
  refine ⟨r, hr, hanswers, hrequests, hpending (by rw [hrequests]; nofun), ?_⟩
  rw [hdelivers.bytes, hanswers]
  rfl

/-- In every run without a `'\n'` that comes when one place is left, the buffer is not overfull and everything is stored into it: the
next key is handled without a fault if and only if it is no such `'\n'`, and the next read always is. -/
theorem stores_in_inbuf (screen : Screen) (inbuf : Nat → UInt8) (flags : UInt8) (r : TtyRun)
    (h : Reach TtyRun.step TtyRun.Fits (newRun screen inbuf flags) r) :
    r.tty.incount ≤ ttyInbufSize ∧
    (∀ c, LineFits r.tty c ↔ ∃ as tty', handleInput r.tty c = .ok (as, tty') ∧ tty'.incount ≤ ttyInbufSize) ∧
    ∀ rq, ∃ a tty', ttyRead r.tty rq = .ok (a, tty') ∧ tty'.incount ≤ ttyInbufSize := by
  have hok := inputOk_of_reach h
  refine ⟨hok.count, fun c => ⟨?_, ?_⟩, ?_⟩
  · intro hfits
    obtain ⟨as, tty', hinput, hok', -⟩ := handleInput_ok hok hfits
    exact ⟨as, tty', hinput, hok'.count⟩
  · rintro ⟨as, tty', hinput, -⟩
    by_contra hfits
    rw [handleInput_fault hfits] at hinput
    cases hinput
  · intro rq
    obtain ⟨a, tty', hread, hok', -⟩ := ttyRead_spec hok rq
    exact ⟨a, tty', hread, hok'.count⟩

theorem twoLines_stored :
    ∃ r, runIf TtyRun.step TtyRun.Fits (newRun (newScreen 7) (fun _ => 0) ttyEcho) twoLines = some r ∧
      r.tty.incount ≤ ttyInbufSize := by
  obtain ⟨r, hr⟩ := Option.isSome_iff_exists.mp (by decide +kernel :
    (runIf TtyRun.step TtyRun.Fits (newRun (newScreen 7) (fun _ => 0) ttyEcho) twoLines).isSome)
  exact ⟨r, hr, (stores_in_inbuf (newScreen 7) (fun _ => 0) ttyEcho r (Reach.init.runIf twoLines hr)).1⟩

/-- A line of 255 characters is typed. Its `'\n'` is stored at the last place of the buffer, and the NUL behind it. -/
theorem long_line_overflows :
    ∃ r, runIf TtyRun.step (fun _ _ => True) (newRun (newScreen 7) (fun _ => 0) ttyEcho) (List.replicate 255 (.key 97)) = some r ∧
      handleInput r.tty 10 = .error (.store 256) := by
  have hrun : (runIf TtyRun.step (fun _ _ => True) (newRun (newScreen 7) (fun _ => 0) ttyEcho) (List.replicate 255 (.key 97))).any
      (fun r => r.tty.incount = 255 ∧ r.tty.isRaw = false) = true := by
    decide +kernel
  obtain ⟨r, hr, hfull⟩ := (Option.any_eq_true _ _).mp hrun
  obtain ⟨hcount, hraw⟩ := of_decide_eq_true hfull
  exact ⟨r, hr, handleInput_fault (not_not.mpr ⟨rfl, hraw, hcount⟩)⟩

end Kos
