import Kos.Theorems.TtyInput

/-!
# The buffer of a read

In the normal mode `copy_data` copies the first line with `strcpy`, whatever the size of the reader's buffer is, and `remove_data` takes
the whole line away. So a read stays inside its buffer exactly when the line that it gets is shorter than the buffer
(`answers_fit_iff`), whether it is answered at once or by a key that ends the line.
-/

namespace Kos

/-- The lines that end in these bytes, without their NULs, if the first of them began with `line`. -/
def completeLines (line : List UInt8) : List UInt8 → List (List UInt8)
  | [] => []
  | c :: bytes => if c = 0 then line :: completeLines [] bytes else completeLines (line ++ [c]) bytes

/-- The bytes that a call offers to reads, and the reads: a key edits the bytes if the buffer has room for it, a read comes behind the
reads that wait. -/
def TtyRun.offered (r : TtyRun) : TtyCall → List UInt8 × List Request
  | .key c => (if c = 0 ∨ r.tty.incount = ttyInbufSize then r.tty.content else edited false r.tty.content c, r.tty.requests)
  | .read rq => (r.tty.content, r.tty.requests ++ [rq])

/-- Every line is shorter than the buffer of the read that it goes to. -/
def TtyRun.LinesShort (r : TtyRun) (call : TtyCall) : Prop :=
  ∀ p ∈ (completeLines [] (r.offered call).1).zip (r.offered call).2, p.1.length < p.2.buflen

instance (r : TtyRun) (call : TtyCall) : Decidable (r.LinesShort call) := inferInstanceAs (Decidable (∀ _ ∈ _, _))

/-- Reads are answered from some bytes inside of their buffers, and what they do not get is left for the reads that follow. -/
structure AnswersFit (bytes : List UInt8) (as : List Answer) (rest : List UInt8) : Prop where
  written : ∀ a ∈ as, a.data.length ≤ a.request.buflen
  result : ∀ a ∈ as, a.result ≤ a.request.buflen
  kept : bytes = as.flatMap (fun a => a.data.take a.request.buflen) ++ rest

namespace TtyAux

theorem completeLines_line (pre rest : List UInt8) {line : List UInt8} (h : 0 ∉ line) :
    completeLines pre (line ++ 0 :: rest) = (pre ++ line) :: completeLines [] rest := by
  induction line generalizing pre with
  | nil => simp [completeLines]
  | cons c line ih =>
    rw [List.mem_cons, not_or] at h
    rw [List.cons_append, completeLines, if_neg (Ne.symm h.1), ih _ h.2, List.append_assoc]
    rfl

theorem completeLines_nil (pre : List UInt8) {bytes : List UInt8} (h : 0 ∉ bytes) : completeLines pre bytes = [] := by
  induction bytes generalizing pre with
  | nil => rfl
  | cons c bytes ih =>
    rw [List.mem_cons, not_or] at h
    rw [completeLines, if_neg (Ne.symm h.1), ih _ h.2]

/-- Reads that are answered get the complete lines, one each. -/
theorem zip_lines {rest : List Request} {bytes : List UInt8} (as : List Answer) (hlines : ∀ a ∈ as, a.IsLine)
    (hrest : rest ≠ [] → 0 ∉ bytes) :
    (completeLines [] (as.flatMap Answer.data ++ bytes)).zip (as.map Answer.request ++ rest) =
      as.map fun a => (a.data.dropLast, a.request) := by
  induction as with
  | nil =>
    by_cases hnil : rest = []
    · simp [hnil]
    · simp [completeLines_nil [] (hrest hnil)]
  | cons a as ih =>
    obtain ⟨line, hdata, hline, -⟩ := hlines a (List.mem_cons_self ..)
    specialize ih fun b hb => hlines b (List.mem_cons_of_mem a hb)
    rw [List.flatMap_cons, hdata, List.append_assoc, List.append_assoc, List.singleton_append, completeLines_line [] _ hline,
      List.map_cons, List.cons_append, List.zip_cons_cons, ih, List.map_cons, hdata, List.dropLast_concat]
    rfl

/-- Lines fit into buffers with room for their NULs. -/
theorem answersFit_iff {bytes rest : List UInt8} {as : List Answer} (hlines : ∀ a ∈ as, a.IsLine)
    (hbytes : bytes = as.flatMap Answer.data ++ rest) :
    AnswersFit bytes as rest ↔ ∀ a ∈ as, a.data.dropLast.length < a.request.buflen := by
  have hlength : ∀ a ∈ as, a.data.length = a.data.dropLast.length + 1 ∧ a.result = a.data.dropLast.length := by
    intro a ha
    obtain ⟨line, hdata, -, hresult⟩ := hlines a ha
    rw [hdata, List.dropLast_concat]
    exact ⟨List.length_append, hresult⟩
  constructor
  · intro h a ha
    have hwritten := h.written a ha
    have hlen := (hlength a ha).1
    omega
  · intro h
    have hwritten : ∀ a ∈ as, a.data.length ≤ a.request.buflen := by
      intro a ha
      have hlt := h a ha
      have hlen := (hlength a ha).1
      omega
    refine ⟨hwritten, ?_, ?_⟩
    · intro a ha
      have hlt := h a ha
      have hlen := (hlength a ha).2
      omega
    · rw [hbytes]
      congr 1
      exact List.flatMap_congr fun a ha => (List.take_of_length_le (hwritten a ha)).symm

/-! ## Runs -/

/-- What holds in every state of a run in the normal mode. -/
structure ReadsOk (tty : Tty) : Prop where
  input : InputOk tty
  normal : tty.isRaw = false
  pending : tty.requests ≠ [] → tty.eotcount = 0

variable {r r' : TtyRun} {call : TtyCall}

/-- What a call does to the reads. -/
theorem step_delivers (h : ReadsOk r.tty) (hstep : r.step call = some r') :
    ∃ as, r'.answers = r.answers ++ as ∧ Delivers (r.offered call).2 (r.offered call).1 as r'.tty ∧ (∀ a ∈ as, a.IsLine) ∧
      ReadsOk r'.tty := by
  cases call with
  | key c =>
    rw [TtyRun.step] at hstep
    by_cases hskip : c = 0 ∨ r.tty.incount = ttyInbufSize
    · have hinput : handleInput r.tty c = .ok ([], r.tty) := by
        rw [handleInput]
        rcases hskip with hc | hfull
        · rw [if_pos hc]
        · rw [if_pos hfull, ite_self]
      rw [hinput] at hstep
      cases hstep
      refine ⟨[], rfl, ⟨rfl, ?_⟩, fun a ha => absurd ha List.not_mem_nil, h⟩
      simp only [TtyRun.offered, hskip, if_true]
      rfl
    · have hfits : LineFits r.tty c := by
        by_contra hfault
        rw [handleInput_fault hfault] at hstep
        cases hstep
      obtain ⟨hc, hfull⟩ := not_or.mp hskip
      obtain ⟨as, tty', hinput, hdelivers, hok, hflags, hlines⟩ := handleInput_spec h.input hc
        (Nat.lt_of_le_of_ne h.input.count hfull) (by rw [h.normal]; simp) hfits
      obtain ⟨hall, hpending⟩ := hlines h.normal
      rw [hinput] at hstep
      cases hstep
      refine ⟨as, rfl, ?_, hall, hok, (isRaw_congr hflags).trans h.normal, hpending⟩
      rw [h.normal] at hdelivers
      simp only [TtyRun.offered, hskip, if_false]
      exact hdelivers
  | read rq =>
    obtain ⟨a, tty', hread, hok, hflags, hnormal⟩ := ttyRead_spec h.input rq
    obtain ⟨hdelivers, hline, hpending⟩ := hnormal h.normal h.pending
    rw [TtyRun.step, hread] at hstep
    cases hstep
    exact ⟨a.toList, rfl, hdelivers, fun b hb => hline b (Option.mem_toList.mp hb), hok, (isRaw_congr hflags).trans h.normal, hpending⟩

theorem readsOk_of_reach {screen : Screen} {inbuf : Nat → UInt8} {flags : UInt8} (hflags : flags &&& ttyRaw = 0)
    (h : Reach TtyRun.step (fun _ _ => True) (newRun screen inbuf flags) r) : ReadsOk r.tty := by
  refine h.inv (fun r => ReadsOk r.tty) ?_ ?_
  · exact ⟨inputOk_newTty screen inbuf flags, decide_eq_false (not_not.mpr hflags), fun hne => absurd rfl hne⟩
  · intro r call r' hok _ hstep
    obtain ⟨as, -, -, -, hok'⟩ := step_delivers hok hstep
    exact hok'

end TtyAux

open TtyAux

/-- In the normal mode, in every state of every run and for every key and read: the reads that are answered by it stay inside their
buffers, return no more than the size, and leave what they do not get to the reads that follow, if and only if each line is shorter than
the buffer of the read that it goes to. -/
theorem answers_fit_iff (screen : Screen) (inbuf : Nat → UInt8) (flags : UInt8) (hflags : flags &&& ttyRaw = 0) (r r' : TtyRun)
    (call : TtyCall) (h : Reach TtyRun.step (fun _ _ => True) (newRun screen inbuf flags) r) (hstep : r.step call = some r') :
    AnswersFit (r.offered call).1 (r'.answers.drop r.answers.length) r'.tty.content ↔ r.LinesShort call := by
  obtain ⟨as, hanswers, hdelivers, hlines, hok⟩ := step_delivers (readsOk_of_reach hflags h) hstep
  have hempty : r'.tty.requests ≠ [] → 0 ∉ r'.tty.content := by
    intro hne
    have heots := hok.input.eots hok.normal
    rw [hok.pending hne] at heots
    exact List.count_eq_zero.mp heots.symm
  rw [hanswers, List.drop_left, answersFit_iff hlines hdelivers.bytes, TtyRun.LinesShort, hdelivers.bytes, hdelivers.requests,
    zip_lines as hlines hempty, List.forall_mem_map]

/-- The keys `"hi\n"`. -/
def hiKeys : List TtyCall := [.key 104, .key 105, .key 10]

/-- The line is read with a buffer of 16 bytes. -/
theorem hi_fits :
    ∃ r r', runIf TtyRun.step (fun _ _ => True) (newRun (newScreen 7) (fun _ => 0) ttyEcho) hiKeys = some r ∧
      r.step (.read ⟨0, 16⟩) = some r' ∧
      AnswersFit (r.offered (.read ⟨0, 16⟩)).1 (r'.answers.drop r.answers.length) r'.tty.content := by
  have hrun : (runIf TtyRun.step (fun _ _ => True) (newRun (newScreen 7) (fun _ => 0) ttyEcho) hiKeys).any
      (fun r => (r.step (.read ⟨0, 16⟩)).isSome ∧ r.LinesShort (.read ⟨0, 16⟩)) = true := by
    decide +kernel
  obtain ⟨r, hr, hboth⟩ := (Option.any_eq_true _ _).mp hrun
  obtain ⟨hsome, hshort⟩ := of_decide_eq_true hboth
  obtain ⟨r', hstep⟩ := Option.isSome_iff_exists.mp hsome
  exact ⟨r, r', hr, hstep,
    (answers_fit_iff (newScreen 7) (fun _ => 0) ttyEcho rfl r r' _ (Reach.init.runIf hiKeys hr) hstep).mpr hshort⟩

/-- With a buffer of 2 bytes, 4 bytes are written and 3 returned, and nothing is left for the next read. -/
theorem hi_overflows :
    ∃ r r', runIf TtyRun.step (fun _ _ => True) (newRun (newScreen 7) (fun _ => 0) ttyEcho) hiKeys = some r ∧
      r.step (.read ⟨0, 2⟩) = some r' ∧ r'.answers = [⟨⟨0, 2⟩, 3, [104, 105, 10, 0]⟩] ∧ r'.tty.incount = 0 ∧
      ¬AnswersFit (r.offered (.read ⟨0, 2⟩)).1 (r'.answers.drop r.answers.length) r'.tty.content := by
  have hrun : (runIf TtyRun.step (fun _ _ => True) (newRun (newScreen 7) (fun _ => 0) ttyEcho) hiKeys).any
      (fun r => r.answers = [] ∧ (r.step (.read ⟨0, 2⟩)).any
        (fun r' => r'.answers = [⟨⟨0, 2⟩, 3, [104, 105, 10, 0]⟩] ∧ r'.tty.incount = 0)) = true := by
    decide +kernel
  obtain ⟨r, hr, hboth⟩ := (Option.any_eq_true _ _).mp hrun
  obtain ⟨hnone, hread⟩ := of_decide_eq_true hboth
  obtain ⟨r', hstep, hread⟩ := (Option.any_eq_true _ _).mp hread
  obtain ⟨hanswers, hcount⟩ := of_decide_eq_true hread
  refine ⟨r, r', hr, hstep, hanswers, hcount, fun hfit => ?_⟩
  have hwritten := hfit.written
  rw [hanswers, hnone] at hwritten
  exact absurd (hwritten _ (List.mem_cons_self ..)) (by decide)

end Kos
