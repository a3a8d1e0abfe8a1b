import Kos.Lib.Run
import Kos.Lemmas.Ipc

/-!
# Messages are delivered once and in order

A message reaches its receiver by one of two ways: it is queued and read later, or it is queued and handed over at once to a receiver
that waits. Over any interleaving of sends and receives, what a process has obtained followed by what is in its queue is what was
sent to it successfully (`messages_delivered`).
-/

namespace Kos

/-- A call: a send from any process to any other, a receive of the current process into the message at the given address, or the
processor is given to the next process. -/
inductive IpcCall where
  | send (sender target : ProcRef) (msg : Msg)
  | receive (msg : Option Nat) (block : Bool)
  | schedule

/-- The processes, with the messages whose send to each of them returned 0, with the number of the sender, and the messages that each
of them has obtained. -/
structure IpcRun where
  pm : Pm
  accepted : ProcRef → List Msg
  obtained : ProcRef → List Msg

/-- Adds a message, if there is one, to the list of a process. -/
def record (log : ProcRef → List Msg) (p : ProcRef) (m : Option Msg) : ProcRef → List Msg :=
  Function.update log p (log p ++ m.toList)

def ipcStep (r : IpcRun) : IpcCall → Option IpcRun
  | .send sender target msg =>
    let (err, data, pm) := ipcSend r.pm sender target msg
    let sent : Option Msg := if err = 0 then some { msg with sender := UInt32.ofNat (r.pm.procs sender).pid } else none
    some ⟨pm, record r.accepted target sent, record r.obtained target (data.map Msg.decode)⟩
  | .receive msg block => do
    let (_, data, pm) ← ipcReceive r.pm r.pm.curProc msg block
    some ⟨pm, r.accepted, record r.obtained r.pm.curProc (data.map Msg.decode)⟩
  | .schedule => (pmSchedule r.pm).map (⟨·, r.accepted, r.obtained⟩)

/-- The processes in the ready queue can run. -/
def ReadyRun (s : Pm) : Prop :=
  ∃ l, CurIsHead s l ∧ ∀ p ∈ l, (s.procs p).status ≠ .slotFree ∧ (s.procs p).status ≠ .blocked

/-- The start of a run: the queues of messages are as they were created, and nobody waits for one. -/
structure IpcStart (r : IpcRun) : Prop where
  created : ∀ p, (r.pm.procs p).status ≠ .slotFree → ∃ data, (r.pm.procs p).msgbuffer = rbufCreate data msgSize procMsgBufferSize false
  nobody : ∀ p, ¬pmIsBlockedFor (r.pm.procs p) .receiving
  ready : ReadyRun r.pm
  logs : ∀ p, r.accepted p = [] ∧ r.obtained p = []

/-- What holds of one process in every state of a run. -/
structure MailOk (proc : Proc) (accepted obtained : List Msg) : Prop extends MailWf proc where
  delivered : proc.status ≠ .slotFree → obtained ++ proc.queued = accepted

/-- What holds in every state of a run. -/
structure IpcInv (r : IpcRun) : Prop where
  mail : ∀ p, MailOk (r.pm.procs p) (r.accepted p) (r.obtained p)
  ready : ReadyRun r.pm

open ReadyQueueAux IpcAux

namespace MessagesAux

theorem record_self (log : ProcRef → List Msg) (p : ProcRef) (m : Option Msg) : record log p m p = log p ++ m.toList := by
  simp [record]

theorem record_other (log : ProcRef → List Msg) {p q : ProcRef} (m : Option Msg) (h : q ≠ p) : record log p m q = log q := by
  simp [record, h]

@[simp] theorem record_none (log : ProcRef → List Msg) (p : ProcRef) : record log p none = log := by
  simp [record]

theorem procs_setProc_other (s : Pm) {p q : ProcRef} (f : Proc → Proc) (h : q ≠ p) : (s.setProc p f).procs q = s.procs q := by
  simp [Pm.setProc, h]

/-- The scheduler changed the process, at most. -/
structure SameMail (proc proc' : Proc) : Prop where
  rest : proc'.rest = proc.rest
  slotFree : proc'.status = .slotFree ↔ proc.status = .slotFree
  blocked : proc'.status = .blocked → proc.status = .blocked

/-- The scheduler only makes processes run or ready that are not free slots. -/
theorem SameMail.of_status {proc proc' : Proc} (hrest : proc'.rest = proc.rest)
    (h : proc'.status = proc.status ∨ proc.status ≠ .slotFree ∧ (proc'.status = .running ∨ proc'.status = .ready)) :
    SameMail proc proc' := by
  rcases h with h | ⟨hlive, h | h⟩
  · exact ⟨hrest, by rw [h], by rw [h]; exact id⟩
  · exact ⟨hrest, by simp [h, hlive], by simp [h]⟩
  · exact ⟨hrest, by simp [h, hlive], by simp [h]⟩

theorem mailOk_congr {proc proc' : Proc} {accepted obtained : List Msg} (h : SameMail proc proc')
    (hm : MailOk proc accepted obtained) : MailOk proc' accepted obtained := by
  have hbuf : proc'.msgbuffer = proc.msgbuffer := (congrArg Proc.msgbuffer h.rest :)
  have hwait : proc'.msgWaitbuf = proc.msgWaitbuf := (congrArg Proc.msgWaitbuf h.rest :)
  have hblock : proc'.block = proc.block := (congrArg Proc.block h.rest :)
  refine ⟨⟨fun hlive => ?_, fun hb => ?_⟩, fun hlive => ?_⟩
  · rw [hbuf]
    exact hm.buffer (mt h.slotFree.mpr hlive)
  · obtain ⟨hs, hr⟩ := of_decide_eq_true hb
    rw [hbuf, hwait]
    exact hm.waiting (decide_eq_true ⟨h.blocked hs, hblock ▸ hr⟩)
  · rw [Proc.queued, hbuf]
    exact hm.delivered (mt h.slotFree.mpr hlive)

/-- The start meets the invariant. -/
theorem ipcInv_start {r : IpcRun} (h : IpcStart r) : IpcInv r := by
  refine ⟨fun p => ⟨⟨fun hlive => ?_, fun hb => absurd hb (h.nobody p)⟩, fun hlive => ?_⟩, h.ready⟩
  · obtain ⟨data, hdata⟩ := h.created p hlive
    rw [hdata]
    exact msgbufWf_create data
  · obtain ⟨data, hdata⟩ := h.created p hlive
    rw [(h.logs p).1, (h.logs p).2, Proc.queued, hdata]
    rfl

/-- A change of the queue of messages of one process, which does not wait. -/
theorem ipcInv_setBuffer {r : IpcRun} {p : ProcRef} {rb : Ringbuffer} {accepted obtained : ProcRef → List Msg} (h : IpcInv r)
    (hrb : MsgbufWf rb) (hb : ¬pmIsBlockedFor (r.pm.procs p) .receiving)
    (hdel : obtained p ++ rb.contents.map Msg.decode = accepted p)
    (hother : ∀ q, q ≠ p → accepted q = r.accepted q ∧ obtained q = r.obtained q) :
    IpcInv ⟨r.pm.setProc p fun proc => { proc with msgbuffer := rb }, accepted, obtained⟩ := by
  obtain ⟨l, hl, hrun⟩ := h.ready
  have hq : (r.pm.setProc p fun proc => { proc with msgbuffer := rb }).Queue l := by
    refine queue_setProc p ?_ hl.1
    exact fun _ => rfl
  refine ⟨fun q => ?_, l, ⟨hq, hl.2⟩, fun q hq => ?_⟩
  · by_cases hq : q = p
    · subst hq
      dsimp only
      rw [procs_setProc_self]
      exact ⟨⟨fun _ => hrb, fun hb' => absurd hb' hb⟩, fun _ => hdel⟩
    · dsimp only
      rw [procs_setProc_other _ _ hq, (hother q hq).1, (hother q hq).2]
      exact h.mail q
  · have := hrun q hq
    rw [status_setProc]
    simpa using this

/-- The message was handed to the target, which is ready again. -/
theorem ipcInv_handed {r : IpcRun} {p : ProcRef} {rb : Ringbuffer} (h : IpcInv r) (hb : pmIsBlockedFor (r.pm.procs p) .receiving)
    (hempty : (r.pm.procs p).msgbuffer.contents = []) (hrb : MsgbufWf rb) (hcont : rb.contents = []) (m : Msg) :
    IpcInv ⟨pmUnblock (r.pm.setProc p fun proc => { proc with msgbuffer := rb, msgWaitbuf := none }) p,
      record r.accepted p (some m), record r.obtained p (some m)⟩ := by
  have hblocked : (r.pm.procs p).status = .blocked := (of_decide_eq_true hb).1
  have hdel : r.obtained p = r.accepted p := by
    have := (h.mail p).delivered (by rw [hblocked]; decide)
    rwa [Proc.queued, hempty, List.map_nil, List.append_nil] at this
  obtain ⟨l, hl, hrun⟩ := h.ready
  have hpl : p ∉ l := fun hm => (hrun p hm).2 hblocked
  generalize hf : (fun proc : Proc =>
    { proc with msgbuffer := rb, msgWaitbuf := none, status := .ready, block := .notBlocked }) = f
  have hunblock : pmUnblock (r.pm.setProc p fun proc => { proc with msgbuffer := rb, msgWaitbuf := none }) p =
      pmActivate (r.pm.setProc p f) p := by
    rw [pmUnblock, setProc_setProc, ← hf]
  have hrest := pmActivate_sameRest (r.pm.setProc p f) p
  have hstatus := pmActivate_status (r.pm.setProc p f) p
  have hsame : ∀ q, SameMail ((r.pm.setProc p f).procs q) ((pmActivate (r.pm.setProc p f) p).procs q) := fun q =>
    ⟨hrest q, by rw [hstatus], by rw [hstatus]; exact id⟩
  rw [hunblock]
  refine ⟨fun q => mailOk_congr (hsame q) ?_, l ++ [p], ⟨?_, ?_⟩, fun q hq => ?_⟩
  · by_cases hq : q = p
    · subst hq
      dsimp only
      rw [procs_setProc_self, ← hf, record_self, record_self, hdel]
      refine ⟨⟨fun _ => hrb, fun hb' => ?_⟩, fun _ => ?_⟩
      · cases (of_decide_eq_true hb').1
      · simp [Proc.queued, hcont]
    · dsimp only
      rw [procs_setProc_other _ _ hq, record_other _ _ hq, record_other _ _ hq]
      exact h.mail q
  · refine pmActivate_queue (queue_setProc p ?_ hl.1) hpl
    rw [← hf]
    exact fun _ => rfl
  · rw [pmActivate_curProc, List.head?_append, hl.2]
    rfl
  · rw [hstatus, status_setProc, ← hf]
    rcases List.mem_append.mp hq with hq | hq
    · have hne : q ≠ p := fun he => hpl (he ▸ hq)
      simpa [hne] using hrun q hq
    · simp [List.mem_singleton.mp hq]

/-- A send keeps the invariant. -/
theorem ipcInv_send {r r' : IpcRun} {sender target : ProcRef} {msg : Msg} (h : IpcInv r)
    (hs : ipcStep r (.send sender target msg) = some r') : IpcInv r' := by
  rcases ipcSend_cases sender msg (h.mail target).toMailWf rfl with
    ⟨-, err, herr, hsend⟩ | ⟨hlive, hb, rb, hrb, hcont, hsend⟩ | ⟨hb, hempty, rb, hrb, hcont, hsend⟩
  · have hne : err ≠ 0 := by rcases herr with rfl | rfl <;> decide
    simp only [ipcStep, hsend, hne, if_false, Option.map_none, record_none, Option.some.injEq] at hs
    subst hs
    exact h
  · simp only [ipcStep, hsend, if_true, Option.map_none, record_none, Option.some.injEq] at hs
    subst hs
    refine ipcInv_setBuffer h hrb hb ?_ fun q hq => ⟨record_other _ _ hq, rfl⟩
    rw [hcont, record_self, ← (h.mail target).delivered hlive]
    simp [Proc.queued]
  · simp only [ipcStep, hsend, if_true, Option.map_some, decode_encode, Option.some.injEq] at hs
    subst hs
    exact ipcInv_handed h hb hempty hrb hcont _

/-- The current process is blocked, and waits for a message. -/
theorem ipcInv_blocked {r : IpcRun} {s' : Pm} {msg : Option Nat} {b : ProcRef} {l : List ProcRef} (h : IpcInv r)
    (hempty : (r.pm.procs r.pm.curProc).msgbuffer.contents = []) (hmsg : msg ≠ none)
    (hl : CurIsHead r.pm (r.pm.curProc :: b :: l))
    (hrun : ∀ p ∈ r.pm.curProc :: b :: l, (r.pm.procs p).status ≠ .slotFree ∧ (r.pm.procs p).status ≠ .blocked)
    (hl' : CurIsHead s' (l ++ [b]))
    (hrest : (r.pm.setProc r.pm.curProc fun proc => { proc with msgWaitbuf := msg, block := .receiving }).SameRest s')
    (hstatus : ∀ q, (s'.procs q).status =
      if q = s'.curProc then .running else if q = r.pm.curProc then .blocked else (r.pm.procs q).status) :
    IpcInv ⟨s', r.accepted, r.obtained⟩ := by
  have hnd : r.pm.curProc ∉ b :: l := (List.nodup_cons.mp hl.1.nodup).1
  have hmem : ∀ q, q ∈ l ++ [b] ↔ q ∈ b :: l := by simp [or_comm]
  have hcur' : s'.curProc ∈ b :: l := (hmem _).mp (List.mem_of_mem_head? hl'.2)
  have hne : r.pm.curProc ≠ s'.curProc := fun he => hnd (he ▸ hcur')
  refine ⟨fun q => ?_, l ++ [b], hl', fun q hq => ?_⟩
  · by_cases hq : q = r.pm.curProc
    · subst hq
      have hcur := h.mail r.pm.curProc
      have hlive := (hrun _ (List.mem_cons_self ..)).1
      have hr := hrest r.pm.curProc
      rw [procs_setProc_self] at hr
      have hbuf : (s'.procs r.pm.curProc).msgbuffer = (r.pm.procs r.pm.curProc).msgbuffer := (congrArg Proc.msgbuffer hr :)
      have hwait : (s'.procs r.pm.curProc).msgWaitbuf = msg := (congrArg Proc.msgWaitbuf hr :)
      refine ⟨⟨fun _ => ?_, fun _ => ?_⟩, fun _ => ?_⟩
      · exact hbuf ▸ hcur.buffer hlive
      · rw [hwait, hbuf]
        exact ⟨hmsg, hempty⟩
      · rw [Proc.queued, hbuf]
        exact hcur.delivered hlive
    · have hr := hrest q
      rw [procs_setProc_other _ _ hq] at hr
      refine mailOk_congr (.of_status hr ?_) (h.mail q)
      by_cases hc : q = s'.curProc
      · exact .inr ⟨(hrun q (List.mem_cons_of_mem _ (hc ▸ hcur'))).1, .inl (by rw [hstatus, if_pos hc])⟩
      · exact .inl (by rw [hstatus, if_neg hc, if_neg hq])
  · have hq := (hmem q).mp hq
    have hqne : q ≠ r.pm.curProc := fun he => hnd (he ▸ hq)
    rw [hstatus, if_neg hqne]
    by_cases hc : q = s'.curProc
    · simp [hc]
    · rw [if_neg hc]
      exact hrun q (List.mem_cons_of_mem _ hq)

theorem cur_of_ready {s : Pm} (h : ReadyRun s) : (s.procs s.curProc).status ≠ .slotFree ∧ (s.procs s.curProc).status ≠ .blocked := by
  obtain ⟨l, hl, hrun⟩ := h
  exact hrun _ (List.mem_of_mem_head? hl.2)

theorem not_waiting_of_ready {s : Pm} (h : ReadyRun s) : ¬pmIsBlockedFor (s.procs s.curProc) .receiving :=
  fun hb => (cur_of_ready h).2 (of_decide_eq_true hb).1

/-- The current process can be blocked, to wait with an address, if there is another one in the queue. -/
theorem pmBlock_receiving {s s' : Pm} {msg : Option Nat} {done : Bool} (h : ReadyRun s)
    (hs : pmBlock (s.setProc s.curProc fun proc => { proc with msgWaitbuf := msg }) s.curProc .receiving = some (done, s')) :
    ∃ b l, CurIsHead s (s.curProc :: b :: l) ∧
      (∀ p ∈ s.curProc :: b :: l, (s.procs p).status ≠ .slotFree ∧ (s.procs p).status ≠ .blocked) ∧ CurIsHead s' (l ++ [b]) ∧
      (s.setProc s.curProc fun proc => { proc with msgWaitbuf := msg, block := .receiving }).SameRest s' ∧
      ∀ q, (s'.procs q).status =
        if q = s'.curProc then .running else if q = s.curProc then .blocked else (s.procs q).status := by
  obtain ⟨l, hl, hrun⟩ := h
  cases l with
  | nil => cases hl.2
  | cons a t =>
    obtain rfl : a = s.curProc := Option.some.inj hl.2
    generalize hs₁ : (s.setProc s.curProc fun proc => { proc with msgWaitbuf := msg }) = s₁ at hs
    have hcur₁ : s₁.curProc = s.curProc := by rw [← hs₁]; rfl
    have hq₁ : s₁.Queue (s₁.curProc :: t) := by
      rw [hcur₁, ← hs₁]
      refine queue_setProc s.curProc ?_ hl.1
      exact fun _ => rfl
    have hstatus₁ : ∀ q, (s₁.procs q).status = (s.procs q).status := by
      intro q
      rw [← hs₁, status_setProc, ite_self]
    have hblock := pmBlock_cur .receiving hq₁ (by rw [hstatus₁, hcur₁]; exact (hrun _ (List.mem_cons_self ..)).2)
    cases t with
    | nil =>
      simp only [hcur₁, hs] at hblock
      cases hblock
    | cons b t =>
      obtain ⟨s'', hs'', hl', hrest, hstatus⟩ := hblock
      rw [hcur₁] at hs'' hrest hstatus
      cases hs.symm.trans hs''
      rw [← hs₁, setProc_setProc] at hrest
      simp only [hstatus₁] at hstatus
      exact ⟨b, t, hl, hrun, hl', hrest, hstatus⟩

/-- A receive of the current process keeps the invariant. -/
theorem ipcInv_receive {r r' : IpcRun} {msg : Option Nat} {block : Bool} (h : IpcInv r)
    (hs : ipcStep r (.receive msg block) = some r') : IpcInv r' := by
  rcases ipcReceive_cases msg block (h.mail r.pm.curProc).toMailWf with
    ⟨-, err, hrec⟩ | ⟨hlive, -, e, es, rb, hc, hrb, hcont, hrec⟩ | ⟨hlive, -, hempty, hmsg, hrec⟩
  · simp only [ipcStep, hrec, Option.bind_eq_bind, Option.bind_some, Option.map_none, record_none, Option.some.injEq] at hs
    subst hs
    exact h
  · simp only [ipcStep, hrec, Option.bind_eq_bind, Option.bind_some, Option.map_some, Option.some.injEq] at hs
    subst hs
    refine ipcInv_setBuffer h hrb (not_waiting_of_ready h.ready) ?_ fun q hq => ⟨rfl, record_other _ _ hq⟩
    rw [hcont, record_self, ← (h.mail r.pm.curProc).delivered hlive]
    simp [Proc.queued, hc]
  · cases hblock : pmBlock (r.pm.setProc r.pm.curProc fun proc => { proc with msgWaitbuf := msg }) r.pm.curProc .receiving with
    | none =>
      simp only [ipcStep, hrec, hblock] at hs
      cases hs
    | some res =>
      obtain ⟨b, l, hl, hrun, hl', hrest, hstatus⟩ := pmBlock_receiving h.ready hblock
      simp only [ipcStep, hrec, hblock, Option.map_some, Option.bind_eq_bind, Option.bind_some, Option.map_none,
        record_none, Option.some.injEq] at hs
      subst hs
      exact ipcInv_blocked h hempty hmsg hl hrun hl' hrest hstatus

/-- Giving the processor to the next process keeps the invariant. -/
theorem ipcInv_schedule {r r' : IpcRun} (h : IpcInv r) (hs : ipcStep r .schedule = some r') : IpcInv r' := by
  obtain ⟨s, hsched, rfl⟩ := Option.map_eq_some_iff.mp hs
  obtain ⟨l, hl, hrun⟩ := h.ready
  cases l with
  | nil => cases hl.2
  | cons a l =>
    obtain ⟨s', hs', hq, hcur⟩ := pmSchedule_queue hl.1
    obtain rfl := Option.some.inj (hsched.symm.trans hs')
    have hhead : s.plistHead = some s.curProc := hq.links.head_eq.trans hcur.symm
    have hlive : ∀ q ∈ l ++ [a], (r.pm.procs q).status ≠ .slotFree ∧ (r.pm.procs q).status ≠ .blocked := by
      intro q hq
      refine hrun q ?_
      simpa [or_comm] using hq
    have hcurlive := hlive s.curProc (List.mem_of_mem_head? hcur.symm)
    have hstatus := pmSchedule_status hsched
    have hsame : ∀ q, SameMail (r.pm.procs q) (s.procs q) := by
      intro q
      refine .of_status (pmSchedule_sameRest hsched q) ?_
      rw [hstatus, hhead]
      by_cases hq : s.curProc = q
      · subst hq
        exact .inr ⟨hcurlive.1, .inl (if_pos rfl)⟩
      · rw [if_neg (by simpa using hq)]
        by_cases hprev : q = r.pm.curProc ∧ (r.pm.procs q).status = .running
        · exact .inr ⟨by simp [hprev.2], .inr (if_pos hprev)⟩
        · exact .inl (if_neg hprev)
    refine ⟨fun q => mailOk_congr (hsame q) (h.mail q), l ++ [a], ⟨hq, hcur.symm⟩, fun q hq => ?_⟩
    exact ⟨mt (hsame q).slotFree.mp (hlive q hq).1, mt (hsame q).blocked (hlive q hq).2⟩

theorem ipcInv_step {r r' : IpcRun} {c : IpcCall} (h : IpcInv r) (hs : ipcStep r c = some r') : IpcInv r' := by
  cases c with
  | send sender target msg => exact ipcInv_send h hs
  | receive msg block => exact ipcInv_receive h hs
  | schedule => exact ipcInv_schedule h hs

/-- Two processes that are ready, and the first of them runs. -/
theorem ipcStart_two : IpcStart ⟨firstReady 2, fun _ => [], fun _ => []⟩ := by
  refine ⟨fun p _ => ⟨fun _ => 0, rfl⟩, fun p => ?_, ?_, fun p => ⟨rfl, rfl⟩⟩
  · exact Bool.false_ne_true
  · refine ⟨[0, 1], ⟨⟨⟨rfl, rfl, rfl⟩, rfl, by decide⟩, rfl⟩, fun p _ => ?_⟩
    exact ⟨ProcStatus.noConfusion, ProcStatus.noConfusion⟩

end MessagesAux

open MessagesAux

/-- In every state that sends and receives lead to: a process that waits for a message has an empty queue; the messages that a process
has obtained, and then those in its queue, are those that were sent to it successfully, in order, each with its sender's number; and
a send that fails changes neither the target's queue nor whether and why it is blocked. -/
theorem messages_delivered {r₀ r : IpcRun} (h₀ : IpcStart r₀) (h : Reach ipcStep (fun _ _ => True) r₀ r) :
    (∀ p, pmIsBlockedFor (r.pm.procs p) .receiving → rbufEmpty (r.pm.procs p).msgbuffer) ∧
    (∀ p, (r.pm.procs p).status ≠ .slotFree → r.obtained p ++ (r.pm.procs p).queued = r.accepted p) ∧
    ∀ sender target msg err data s', ipcSend r.pm sender target msg = (err, data, s') → err = eagain ∨ err = einval →
      (s'.procs target).msgbuffer = (r.pm.procs target).msgbuffer ∧ (s'.procs target).status = (r.pm.procs target).status ∧
        (s'.procs target).block = (r.pm.procs target).block := by
  have hinv : IpcInv r := h.inv IpcInv (ipcInv_start h₀) fun _ _ _ hi _ hs => ipcInv_step hi hs
  refine ⟨fun p hb => (rbufEmpty_iff _).mpr ((hinv.mail p).waiting hb).2, fun p => (hinv.mail p).delivered, ?_⟩
  intro sender target msg err data s' hsend herr
  have hne : err ≠ 0 := by rcases herr with rfl | rfl <;> decide
  rcases ipcSend_cases sender msg (hinv.mail target).toMailWf rfl with
    ⟨-, _, -, heq⟩ | ⟨-, -, _, -, -, heq⟩ | ⟨-, -, _, -, -, heq⟩
  · cases hsend.symm.trans heq
    exact ⟨rfl, rfl, rfl⟩
  · cases hsend.symm.trans heq
    exact absurd rfl hne
  · cases hsend.symm.trans heq
    exact absurd rfl hne

/-- Of two processes, the first waits for a message and the second then sends one. -/
theorem message_handed_over :
    ∃ r₁ r₂, ipcStep ⟨firstReady 2, fun _ => [], fun _ => []⟩ (.receive (some 4096) true) = some r₁ ∧
      ipcStep r₁ (.send 1 0 ⟨9, 7, 0, 0, 0⟩) = some r₂ ∧ r₂.obtained 0 = [⟨1, 7, 0, 0, 0⟩] ∧
      r₂.obtained 0 ++ (r₂.pm.procs 0).queued = r₂.accepted 0 := by
  have hrun : ((ipcStep ⟨firstReady 2, fun _ => [], fun _ => []⟩ (.receive (some 4096) true)).bind
      (ipcStep · (.send 1 0 ⟨9, 7, 0, 0, 0⟩))).map (fun r => ((r.pm.procs 0).status, r.obtained 0)) =
        some (.ready, [⟨1, 7, 0, 0, 0⟩]) := by decide +kernel
  obtain ⟨r₂, hbind, hr₂⟩ := Option.map_eq_some_iff.mp hrun
  obtain ⟨r₁, h₁, h₂⟩ := Option.bind_eq_some_iff.mp hbind
  obtain ⟨hstatus, hobtained⟩ := Prod.mk.inj hr₂
  have hlive : (r₂.pm.procs 0).status ≠ .slotFree := by rw [hstatus]; decide
  refine ⟨r₁, r₂, h₁, h₂, hobtained, ?_⟩
  exact (messages_delivered ipcStart_two (.step _ (.step _ .init trivial h₁) trivial h₂)).2.1 0 hlive

end Kos
