import Kos.Ipc
import Kos.Lemmas.Ringbuffer
import Kos.Lemmas.ReadyQueue

/-!
# The functions of `ipc.c`

What `ipc_send` and `ipc_receive` can do to the queue of a process, for queues that are set up as `init_proc` does it and for
processes that wait for a message only with an empty queue and an address to put it.
-/

namespace Kos

/-- The messages in a process's queue, the oldest first. -/
def Proc.queued (proc : Proc) : List Msg := proc.msgbuffer.contents.map Msg.decode

/-- The queue of a process: a ring buffer for 24 messages that is not overridden. -/
structure MsgbufWf (rb : Ringbuffer) : Prop extends RbufWf rb where
  esize : rb.esize = msgSize
  maxcnt : rb.maxcnt = procMsgBufferSize
  override : rb.override = false

/-- What holds of the queue of a process that is not a free slot, and of a process that waits for a message. -/
structure MailWf (proc : Proc) : Prop where
  buffer : proc.status ≠ .slotFree → MsgbufWf proc.msgbuffer
  waiting : pmIsBlockedFor proc .receiving → proc.msgWaitbuf ≠ none ∧ proc.msgbuffer.contents = []

namespace IpcAux

open ReadyQueueAux

@[simp] theorem length_encode (m : Msg) : m.encode.length = msgSize := rfl

theorem drop_le32 (n k : Nat) (bs : List UInt8) : (le32 n ++ bs).drop (k + 4) = bs.drop k := rfl

theorem ofLe32_field (n : UInt32) (bs : List UInt8) : UInt32.ofNat (ofLe32 (le32 n.toNat ++ bs)) = n := by
  rw [ofLe32_le32_append n.toNat_lt, UInt32.ofNat_toNat]

/-- A message's bytes are the message. -/
@[simp] theorem decode_encode (m : Msg) : Msg.decode m.encode = m := by
  have hlast : UInt32.ofNat (ofLe32 (le32 m.param2.toNat)) = m.param2 := by
    simpa only [List.append_nil] using ofLe32_field m.param2 []
  simp only [Msg.decode, Msg.encode, drop_le32 _ 0, drop_le32 _ 4, drop_le32 _ 8, drop_le32 _ 12, List.drop_zero,
    ofLe32_field, hlast]

theorem msgbufWf_create (data : Nat → UInt8) : MsgbufWf (rbufCreate data msgSize procMsgBufferSize false) :=
  ⟨rbufCreate_wf data false (by decide) (by decide) (by decide), rfl, rfl, rfl⟩

variable {rb rb' : Ringbuffer}

theorem msgbufWf_of_shape (h : MsgbufWf rb) (hs : RingbufferAux.SameShape rb rb') (hwf : RbufWf rb') : MsgbufWf rb' :=
  ⟨hwf, hs.1.trans h.esize, hs.2.1.trans h.maxcnt, hs.2.2.trans h.override⟩

/-- A write of one message, with room for it. -/
theorem rbufWrite_msg (h : MsgbufWf rb) (hfree : rbufFreesize rb ≠ 0) (m : Msg) :
    MsgbufWf (rbufWrite rb [m.encode]).2 ∧ (rbufWrite rb [m.encode]).2.contents = rb.contents ++ [m.encode] := by
  have hmax : rb.maxcnt < 4294967296 := by rw [h.maxcnt]; decide
  have hroom : 0 < rb.maxcnt - rb.count := by
    rw [rbufFreesize, sub32_of_le h.count_le hmax] at hfree
    exact Nat.pos_of_ne_zero hfree
  obtain ⟨-, hwf, hcont⟩ := rbufWrite_spec h.toRbufWf h.override [m.encode] (by simp [h.esize])
  refine ⟨msgbufWf_of_shape h (rbufWrite_shape _ _) hwf, ?_⟩
  rw [hcont, List.take_of_length_le hroom]

/-- A read of one message. -/
theorem rbufRead_msg (h : MsgbufWf rb) {e : List UInt8} {es : List (List UInt8)} (hc : rb.contents = e :: es) :
    (rbufRead rb 1).1.flatten = e ∧ MsgbufWf (rbufRead rb 1).2 ∧ (rbufRead rb 1).2.contents = es := by
  obtain ⟨hdata, hwf, hcont⟩ := rbufRead_spec h.toRbufWf 1
  rw [hc] at hdata hcont
  exact ⟨by rw [hdata]; simp, msgbufWf_of_shape h (rbufRead_shape _ _) hwf, hcont⟩

theorem rbufEmpty_iff (rb : Ringbuffer) : rbufEmpty rb = true ↔ rb.contents = [] := by
  rw [← List.length_eq_zero_iff, length_contents, rbufEmpty, beq_iff_eq]

theorem blockedFor_msgbuffer (proc : Proc) (rb : Ringbuffer) (reason : BlockReason) :
    pmIsBlockedFor { proc with msgbuffer := rb } reason = pmIsBlockedFor proc reason := rfl

/-- A process that waits for a message has room for it. -/
theorem freesize_of_waiting (h : MsgbufWf rb) (hc : rb.contents = []) : rbufFreesize rb ≠ 0 := by
  have hcount : rb.count = 0 := by rw [← length_contents, hc, List.length_nil]
  rw [rbufFreesize, hcount, h.maxcnt]
  decide

/-- `send` to a process with room in its queue appends. -/
theorem send_ok {s : Pm} {p : ProcRef} (hlive : (s.procs p).status ≠ .slotFree) (h : MsgbufWf (s.procs p).msgbuffer)
    (hfree : rbufFreesize (s.procs p).msgbuffer ≠ 0) (m : Msg) :
    ∃ rb, MsgbufWf rb ∧ rb.contents = (s.procs p).msgbuffer.contents ++ [m.encode] ∧
      send s p m = (0, s.setProc p fun proc => { proc with msgbuffer := rb }) := by
  obtain ⟨hwf, hcont⟩ := rbufWrite_msg h hfree m
  refine ⟨_, hwf, hcont, ?_⟩
  rw [send, if_neg hlive, if_neg hfree]
  rfl

/-- `receive` for a process with a message in its queue takes the oldest. -/
theorem receive_ok {s : Pm} {p : ProcRef} (hlive : (s.procs p).status ≠ .slotFree) (h : MsgbufWf (s.procs p).msgbuffer)
    {e : List UInt8} {es : List (List UInt8)} (hc : (s.procs p).msgbuffer.contents = e :: es) (a : Nat) :
    ∃ rb, MsgbufWf rb ∧ rb.contents = es ∧
      receive s p (some a) = (0, some e, s.setProc p fun proc => { proc with msgbuffer := rb }) := by
  obtain ⟨hdata, hwf, hcont⟩ := rbufRead_msg h hc
  refine ⟨_, hwf, hcont, ?_⟩
  have hne : ¬rbufEmpty (s.procs p).msgbuffer = true := by
    rw [rbufEmpty_iff, hc]
    exact List.cons_ne_nil e es
  rw [receive, if_neg hlive, if_neg (by simp), if_neg hne, hdata]
  rfl

end IpcAux

open IpcAux ReadyQueueAux

/-- What `ipc_send` can do: nothing, with an error; append the message to the queue; or hand it to the waiting target. -/
theorem ipcSend_cases {s : Pm} (sender : ProcRef) {target : ProcRef} (msg : Msg) {m : Msg} (h : MailWf (s.procs target))
    (hm : m = { msg with sender := UInt32.ofNat (s.procs sender).pid }) :
    (¬pmIsBlockedFor (s.procs target) .receiving ∧
      ∃ err, (err = einval ∨ err = eagain) ∧ ipcSend s sender target msg = (err, none, s)) ∨
    ((s.procs target).status ≠ .slotFree ∧ ¬pmIsBlockedFor (s.procs target) .receiving ∧
      ∃ rb, MsgbufWf rb ∧ rb.contents = (s.procs target).msgbuffer.contents ++ [m.encode] ∧
        ipcSend s sender target msg = (0, none, s.setProc target fun p => { p with msgbuffer := rb })) ∨
    (pmIsBlockedFor (s.procs target) .receiving ∧ (s.procs target).msgbuffer.contents = [] ∧
      ∃ rb, MsgbufWf rb ∧ rb.contents = [] ∧
        ipcSend s sender target msg =
          (0, some m.encode, pmUnblock (s.setProc target fun p => { p with msgbuffer := rb, msgWaitbuf := none }) target)) := by
  subst hm
  by_cases hfree : (s.procs target).status = .slotFree
  · -- a free slot is not blocked
    have hb : pmIsBlockedFor (s.procs target) .receiving = false := by simp [pmIsBlockedFor, hfree]
    refine .inl ⟨by simp [hb], einval, .inl rfl, ?_⟩
    simp [ipcSend, send, hfree, hb]
  have hwf := h.buffer hfree
  by_cases hfull : rbufFreesize (s.procs target).msgbuffer = 0
  · -- a full queue is not one that its process waits with
    have hb : pmIsBlockedFor (s.procs target) .receiving = false := by
      rw [Bool.eq_false_iff]
      exact fun hb => freesize_of_waiting hwf (h.waiting hb).2 hfull
    refine .inl ⟨by simp [hb], eagain, .inr rfl, ?_⟩
    simp [ipcSend, send, hfree, hfull, hb]
  obtain ⟨rb, hrb, hcont, hsend⟩ := send_ok hfree hwf hfull { msg with sender := UInt32.ofNat (s.procs sender).pid }
  refine .inr ?_
  by_cases hb : pmIsBlockedFor (s.procs target) .receiving
  · obtain ⟨hbuf, hempty⟩ := h.waiting hb
    obtain ⟨a, ha⟩ := Option.ne_none_iff_exists'.mp hbuf
    rw [hempty, List.nil_append] at hcont
    obtain ⟨rb', hrb', hcont', hreceive⟩ :=
      receive_ok (s := s.setProc target fun proc => { proc with msgbuffer := rb }) (p := target) (by simpa using hfree)
        (by simpa using hrb) (by simpa using hcont) a
    refine .inr ⟨hb, hempty, rb', hrb', hcont', ?_⟩
    simp only [ipcSend, hsend, procs_setProc_self, blockedFor_msgbuffer, if_pos hb]
    simp only [ha, hreceive, setProc_setProc]
  · refine .inl ⟨hfree, hb, rb, hrb, hcont, ?_⟩
    simp only [ipcSend, hsend, procs_setProc_self, blockedFor_msgbuffer, if_neg hb]

/-- What `ipc_receive` can do: nothing, with an error; take the oldest message; or block the process, which then waits with the
address it gave. Each time with the result of `receive`. -/
theorem ipcReceive_cases {s : Pm} {p : ProcRef} (msg : Option Nat) (block : Bool) (h : MailWf (s.procs p)) :
    (((s.procs p).status = .slotFree ∨ msg = none ∨ (s.procs p).msgbuffer.contents = [] ∧ block = false) ∧
      ∃ err, ipcReceive s p msg block = some (err, none, s)) ∨
    ((s.procs p).status ≠ .slotFree ∧ (receive s p msg).1 = 0 ∧
      ∃ e es rb, (s.procs p).msgbuffer.contents = e :: es ∧ MsgbufWf rb ∧ rb.contents = es ∧
        ipcReceive s p msg block = some (0, some e, s.setProc p fun proc => { proc with msgbuffer := rb })) ∨
    ((s.procs p).status ≠ .slotFree ∧ (receive s p msg).1 = eagain ∧ (s.procs p).msgbuffer.contents = [] ∧ msg ≠ none ∧
      ipcReceive s p msg block =
        (pmBlock (s.setProc p fun proc => { proc with msgWaitbuf := msg }) p .receiving).map (fun r => (0, none, r.2))) := by
  by_cases hlive : (s.procs p).status = .slotFree
  · refine .inl ⟨.inl hlive, einval, ?_⟩
    simp [ipcReceive, receive, hlive, einval, eagain]
  cases msg with
  | none =>
    refine .inl ⟨.inr (.inl rfl), einval, ?_⟩
    simp [ipcReceive, receive, hlive, einval, eagain]
  | some a =>
    have hwf := h.buffer hlive
    cases hc : (s.procs p).msgbuffer.contents with
    | nil =>
      have hempty : rbufEmpty (s.procs p).msgbuffer = true := (rbufEmpty_iff _).mpr hc
      have hreceive : receive s p (some a) = (eagain, none, s) := by simp [receive, hlive, hempty]
      cases block with
      | false => exact .inl ⟨.inr (.inr ⟨rfl, rfl⟩), eagain, by simp [ipcReceive, hreceive]⟩
      | true =>
        refine .inr (.inr ⟨hlive, by rw [hreceive], rfl, Option.some_ne_none a, ?_⟩)
        simp only [ipcReceive, hreceive, and_self, if_true]
        cases pmBlock (s.setProc p fun proc => { proc with msgWaitbuf := some a }) p .receiving <;> rfl
    | cons e es =>
      obtain ⟨rb, hrb, hcont, hreceive⟩ := receive_ok hlive hwf hc a
      refine .inr (.inl ⟨hlive, by rw [hreceive], e, es, rb, rfl, hrb, hcont, ?_⟩)
      simp [ipcReceive, hreceive, eagain]

end Kos
