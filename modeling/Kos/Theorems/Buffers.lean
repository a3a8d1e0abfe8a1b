import Kos.Lib.Run
import Kos.Lemmas.Buffers
import Kos.Lemmas.TtyInput

/-!
# Buffers are released

A buffer that is mapped for a system call is released when the call returns, or by the send that wakes a receiver. A read that waits
for keys is answered later, but nobody releases its buffer then (`buffer_not_released`), and neither is the buffer of a receive released
that finds no message and does not wait. In runs without these, all buffers are released (`buffers_released`).
-/

namespace Kos

/-- The first range of free pages that is large enough for the buffer does not mislead `vm_find_range`. -/
def MappingOk (s : Sys) (vaddr size : Nat) : Prop :=
  ¬RunRestarts s.vm s.vm.kernelPdir (numPages (alignSize (vmResolveVirt s.vm (s.pdirs s.pm.curProc) vaddr) size))

/-- If the descriptor is a terminal, a read has enough data at once, and a write is not one of so many bytes that their number, as an
`int`, is `-EAGAIN`. Another driver does not answer `-EAGAIN`. -/
def ReadwriteOk (s : Sys) (call : SysRw) (fd : Int) (count : Nat) : Prop :=
  ∀ file, (s.fsData s.pm.curProc).fd2file fd = some file →
    match s.ttyOf file, call with
    | some i, .read _ => enoughData (s.ttys i) count = true
    | some _, .write _ _ => count ≠ negInt eagain
    | none, .read answer => answer ≠ negInt eagain
    | none, .write _ answer => answer ≠ negInt eagain

/-- The calls whose buffers are released. A receive has a message in the queue, or waits for one. -/
def SysOk (s : Sys) : SysCall → Prop
  | .readwrite call fd buffer count => MappingOk s buffer.toNat count.toNat ∧ ReadwriteOk s call fd count.toNat
  | .send _ msgptr _ => MappingOk s msgptr.toNat msgSize
  | .receive msgptr block => MappingOk s msgptr.toNat msgSize ∧
      (block.toNat % 256 ≠ 0 ∨ rbufEmpty (s.pm.procs s.pm.curProc).msgbuffer = false)
  | _ => True

/-- No read waits for keys, and no process for a message. -/
structure Quiet (s : Sys) : Prop where
  reads : ∀ i, (s.ttys i).requests = []
  receivers : ∀ p, ¬pmIsBlockedFor (s.pm.procs p) .receiving

/-- No page of the kernel's page directory is mapped for a buffer, and all the others still are; each buffer was released as often as
it was mapped. -/
structure Released (s : Sys) : Prop where
  pages : ∀ page < 1048576, present (getPtabEntry s.vm s.vm.kernelPdir (4096 * page)) = s.others page
  balance : ∀ p b, s.balance p b = 0

/-- The start of a run: the kernel's page directory is well-formed, the processes are as in `IpcStart`, and no call is pending. -/
structure SysStart (s : Sys) : Prop where
  dir : PdirOk s.vm s.vm.kernelPdir
  ipc : IpcStart ⟨s.pm, fun _ => [], fun _ => []⟩
  quiet : Quiet s
  released : Released s

/-- What holds in every state of a run. -/
structure SysInv (s : Sys) : Prop where
  ipc : ∃ accepted obtained, IpcInv ⟨s.pm, accepted, obtained⟩
  reads : ∀ i, (s.ttys i).requests = []
  kept : BuffersAux.Kept s (BuffersAux.waiting s.pm)

namespace BuffersAux

variable {s s' : Sys}

/-! ## Start and end -/

theorem waiting_quiet (h : Quiet s) : waiting s.pm = fun _ => none :=
  funext fun p => if_neg (h.receivers p)

/-- Where nobody waits, the pages that are mapped are the others. -/
theorem kept_none_iff (hdir : PdirOk s.vm s.vm.kernelPdir) : Kept s (fun _ => none) ↔ Released s := by
  constructor
  · intro h
    refine ⟨fun page hpage => ?_, fun p b => by rw [h.balance]; rfl⟩
    obtain ⟨use, hf, ho, hb⟩ := h.pages page hpage
    rw [FindRangeAux.present_getPtabEntry, Bool.eq_iff_iff, ho, Bool.not_eq_true', ← Bool.not_eq_true, hf]
    cases use with
    | free => simp
    | other => simp
    | buffer p =>
      obtain ⟨b, hb, -⟩ := (hb p).mp rfl
      cases hb
  · intro h
    refine ⟨hdir, fun p b hb => (by cases hb), fun page hpage => ?_, fun p b => by rw [h.balance]; rfl⟩
    have hpresent := h.pages page hpage
    rw [FindRangeAux.present_getPtabEntry] at hpresent
    refine ⟨if s.others page then .other else .free, ?_, ?_, fun p => ?_⟩
    · cases hother : s.others page <;> simp_all
    · cases s.others page <;> simp
    · cases s.others page <;> simp

theorem sysInv_start (h : SysStart s) : SysInv s := by
  refine ⟨⟨_, _, MessagesAux.ipcInv_start h.ipc⟩, h.quiet.reads, ?_⟩
  rw [waiting_quiet h.quiet]
  exact (kept_none_iff h.dir).mpr h.released

theorem released_of_inv (h : SysInv s) (hq : Quiet s) : Released s := by
  have hkept := h.kept
  rw [waiting_quiet hq] at hkept
  exact (kept_none_iff hkept.dir).mp hkept

/-! ## Reads and writes -/

theorem cur_holds_none (h : SysInv s) : waiting s.pm s.pm.curProc = none := by
  obtain ⟨_, _, hipc⟩ := h.ipc
  exact if_neg (MessagesAux.not_waiting_of_ready hipc.ready)

theorem foldl_putc_requests (data : List UInt8) (tty : Tty) : (data.foldl Tty.putc tty).requests = tty.requests := by
  induction data generalizing tty with
  | nil => rfl
  | cons c data ih => exact ih (tty.putc c)

theorem requests_update {ttys : Fin numTtys → Tty} (h : ∀ i, (ttys i).requests = []) (i : Fin numTtys) {tty : Tty}
    (htty : tty.requests = (ttys i).requests) (j : Fin numTtys) : (Function.update ttys i tty j).requests = [] := by
  by_cases hj : j = i
  · subst hj
    rw [Function.update_self, htty, h]
  · rw [Function.update_of_ne hj, h]

theorem ttyRead_ok {i : Fin numTtys} {kbuf count result : Nat} (hreads : ∀ i, (s.ttys i).requests = [])
    (henough : enoughData (s.ttys i) count = true) (h : s.ttyRead i kbuf count = some (result, s')) :
    result ≠ negInt eagain ∧ s' = { s with ttys := s'.ttys } ∧ ∀ i, (s'.ttys i).requests = [] := by
  unfold Sys.ttyRead at h
  rw [ttyRead, if_pos henough] at h
  cases hanswer : answer (s.ttys i) ⟨kbuf, count⟩ with
  | error e =>
    rw [hanswer] at h
    cases h
  | ok r =>
    rw [hanswer] at h
    cases h
    obtain ⟨hle, hrequests⟩ := TtyAux.answer_requests hanswer
    have hbig : ttyInbufSize < negInt eagain := by decide
    exact ⟨by omega, rfl, requests_update hreads i hrequests⟩

/-- Under the condition, a read or a write is answered at once, and not with `-EAGAIN`. -/
theorem doReadwrite_ok {call : SysRw} {fd : Int} {kbuf count result : Nat} (hreads : ∀ i, (s.ttys i).requests = [])
    (hok : ReadwriteOk s call fd count) (h : s.doReadwrite call fd kbuf count = some (result, s')) :
    result ≠ negInt eagain ∧ s' = { s with ttys := s'.ttys } ∧ ∀ i, (s'.ttys i).requests = [] := by
  unfold Sys.doReadwrite at h
  split at h
  · cases h
    exact ⟨by decide, rfl, hreads⟩
  · rename_i file hfile
    have hok := hok file hfile
    cases call with
    | read answer =>
      simp only [Sys.vfsReadwrite] at h
      split at h
      · rename_i htty
        cases h
        rw [htty] at hok
        exact ⟨hok, rfl, hreads⟩
      · rename_i i htty
        rw [htty] at hok
        exact ttyRead_ok hreads hok h
    | write content answer =>
      simp only [Sys.vfsReadwrite] at h
      split at h
      · rename_i htty
        cases h
        rw [htty] at hok
        exact ⟨hok, rfl, hreads⟩
      · rename_i i htty
        cases h
        rw [htty] at hok
        exact ⟨hok, rfl, requests_update hreads i (foldl_putc_requests _ _)⟩

theorem sysInv_readwrite {call : SysRw} {fd : Int} {buffer count : UInt32} (h : SysInv s)
    (hok : SysOk s (.readwrite call fd buffer count)) (hs : sysStep s (.readwrite call fd buffer count) = some s') : SysInv s' := by
  obtain ⟨hmapping, hrw⟩ := hok
  rw [sysStep, Sys.sysReadwrite] at hs
  obtain ⟨⟨result, s₃⟩, hcall, rfl⟩ := Option.map_eq_some_iff.mp hs
  obtain ⟨⟨kbuf, s₁⟩, hmap, hcall⟩ := Option.bind_eq_some_iff.mp hcall
  obtain ⟨⟨res, s₂⟩, hdo, hcall⟩ := Option.bind_eq_some_iff.mp hcall
  have hnone := cur_holds_none h
  obtain ⟨-, hkept₁, hsame₁⟩ := h.kept.map hnone hmapping hmap
  have hreads₁ : ∀ i, (s₁.ttys i).requests = [] := by
    rw [hsame₁]
    exact h.reads
  have hrw₁ : ReadwriteOk s₁ call fd count.toNat := by
    rw [hsame₁]
    exact hrw
  obtain ⟨hne, hsame₂, hreads₂⟩ := doReadwrite_ok hreads₁ hrw₁ hdo
  simp only [if_pos hne] at hcall
  obtain ⟨s₄, hfree, heq⟩ := Option.map_eq_some_iff.mp hcall
  cases heq
  have hkept₂ : Kept s₂ (Function.update (waiting s.pm) s.pm.curProc (some (kbuf, count.toNat))) := by
    rw [hsame₂]
    exact hkept₁.congr rfl rfl rfl
  obtain ⟨hkept₃, hsame₃⟩ := hkept₂.release (b := (kbuf, count.toNat)) (Function.update_self ..) hfree
  have hpm : s₃.pm = s.pm := by rw [hsame₃, hsame₂, hsame₁]
  rw [Function.update_idem, ← hnone, Function.update_eq_self] at hkept₃
  refine ⟨by rw [hpm]; exact h.ipc, ?_, by rw [hpm]; exact hkept₃⟩
  rw [hsame₃]
  exact hreads₂

/-! ## Messages -/

/-- A send wakes its target if it waits, and releases the target's buffer. The sender `p` has the buffer of its own message. -/
theorem ipcSend_kept {p target : ProcRef} {b : Nat × Nat} {msg : Msg} {result : Nat} (hmail : MailWf (s.pm.procs target))
    (hp : waiting s.pm p = none) (hkept : Kept s (Function.update (waiting s.pm) p (some b)))
    (hs : s.ipcSend p target msg = some (result, s')) :
    s'.pm = (ipcSend s.pm p target msg).2.2 ∧ s'.ttys = s.ttys ∧ waiting s'.pm p = none ∧
      Kept s' (Function.update (waiting s'.pm) p (some b)) := by
  rw [Sys.ipcSend] at hs
  rcases ipcSend_cases p msg hmail rfl with ⟨hb, err, -, hsend⟩ | ⟨-, hb, rb, -, -, hsend⟩ | ⟨hb, -, rb, -, -, hsend⟩
  · simp only [hsend, if_neg hb] at hs ⊢
    cases hs
    exact ⟨rfl, rfl, hp, hkept.congr rfl rfl rfl⟩
  · simp only [hsend, if_neg hb] at hs ⊢
    cases hs
    refine ⟨rfl, rfl, ?_, ?_⟩
    · rw [waiting_setBuffer]
      exact hp
    · rw [waiting_setBuffer]
      exact hkept.congr rfl rfl rfl
  · simp only [hsend, if_pos hb] at hs ⊢
    obtain ⟨s₁, hfree, heq⟩ := Option.map_eq_some_iff.mp hs
    cases heq
    obtain ⟨a, ha⟩ := Option.ne_none_iff_exists'.mp (hmail.waiting hb).1
    have hwait : waiting s.pm target = some (a, msgSize) := by
      rw [waiting, waitBuffer, if_pos hb, ha]
      rfl
    have hne : target ≠ p := by
      rintro rfl
      rw [hp] at hwait
      cases hwait
    rw [ha, Option.getD_some] at hfree
    obtain ⟨hkept', hsame⟩ := (hkept.setPm _).release (b := (a, msgSize)) (by rw [Function.update_of_ne hne]; exact hwait) hfree
    rw [hsame.pm, hsame.ttys]
    refine ⟨rfl, rfl, ?_, ?_⟩
    · rw [waiting_unblock, Function.update_of_ne hne.symm]
      exact hp
    · rw [waiting_unblock, Function.update_comm hne]
      exact hkept'

theorem sysInv_send {target : Nat} {msgptr : UInt32} {msg : Msg} (h : SysInv s) (hok : SysOk s (.send target msgptr msg))
    (hs : sysStep s (.send target msgptr msg) = some s') : SysInv s' := by
  rw [sysStep, Sys.sysSend] at hs
  obtain ⟨⟨result, s₃⟩, hcall, rfl⟩ := Option.map_eq_some_iff.mp hs
  obtain ⟨proc, -, hcall⟩ := Option.bind_eq_some_iff.mp hcall
  obtain ⟨⟨kmsg, s₁⟩, hmap, hcall⟩ := Option.bind_eq_some_iff.mp hcall
  obtain ⟨⟨res, s₂⟩, hsend, hcall⟩ := Option.bind_eq_some_iff.mp hcall
  obtain ⟨s₄, hfree, heq⟩ := Option.map_eq_some_iff.mp hcall
  cases heq
  have hnone := cur_holds_none h
  have hmapping : MappingOk s msgptr.toNat msgSize := hok
  obtain ⟨-, hkept₁, hsame₁⟩ := h.kept.map hnone hmapping hmap
  obtain ⟨accepted, obtained, hipc⟩ := h.ipc
  generalize s.pm.curProc = p at hnone hkept₁ hsend hfree
  rw [← hsame₁.pm] at hnone hkept₁ hipc
  obtain ⟨hpm₂, httys₂, hnone₂, hkept₂⟩ := ipcSend_kept (hipc.mail proc).toMailWf hnone hkept₁ hsend
  obtain ⟨hkept₃, hsame₃⟩ := hkept₂.release (b := (kmsg, msgSize)) (Function.update_self ..) hfree
  have hipc' : ∃ accepted obtained, IpcInv ⟨(ipcSend s₁.pm p proc msg).2.2, accepted, obtained⟩ :=
    ⟨_, _, MessagesAux.ipcInv_send hipc rfl⟩
  rw [Function.update_idem, ← hnone₂, Function.update_eq_self, ← hsame₃.pm] at hkept₃
  refine ⟨?_, ?_, hkept₃⟩
  · rw [hsame₃.pm, hpm₂]
    exact hipc'
  · rw [hsame₃.ttys, httys₂, hsame₁.ttys]
    exact h.reads

/-- A receive that has a message, or waits for one: the current process gives its buffer back, or waits with it. -/
theorem ipcReceive_kept {kmsg result : Nat} {block : Bool} {accepted obtained : ProcRef → List Msg}
    (hipc : IpcInv ⟨s.pm, accepted, obtained⟩) (hk : kmsg ≠ 0)
    (hok : block = true ∨ rbufEmpty (s.pm.procs s.pm.curProc).msgbuffer = false)
    (hnone : waiting s.pm s.pm.curProc = none)
    (hkept : Kept s (Function.update (waiting s.pm) s.pm.curProc (some (kmsg, msgSize))))
    (hs : s.ipcReceive s.pm.curProc kmsg block = some (result, s')) :
    (∃ accepted obtained, IpcInv ⟨s'.pm, accepted, obtained⟩) ∧ s'.ttys = s.ttys ∧ Kept s' (waiting s'.pm) := by
  rw [Sys.ipcReceive, if_neg hk] at hs
  obtain ⟨⟨res, data, pm⟩, hreceive, hs⟩ := Option.bind_eq_some_iff.mp hs
  have hstep : ipcStep ⟨s.pm, accepted, obtained⟩ (.receive (some kmsg) block) =
      some ⟨pm, accepted, record obtained s.pm.curProc (data.map Msg.decode)⟩ := by
    rw [ipcStep, hreceive]
    rfl
  have hipc' : ∃ accepted obtained, IpcInv ⟨pm, accepted, obtained⟩ := ⟨_, _, MessagesAux.ipcInv_receive hipc hstep⟩
  simp only at hs
  rcases ipcReceive_cases (some kmsg) block (hipc.mail s.pm.curProc).toMailWf with
    ⟨hfail, -⟩ | ⟨-, hzero, e, es, rb, -, -, -, hrec⟩ | ⟨-, hagain, -, -, hrec⟩
  · -- the current process lives, the address is not null, and there is a message or it waits
    rcases hfail with hslot | hnull | ⟨hempty, hblock⟩
    · exact absurd hslot (MessagesAux.cur_of_ready hipc.ready).1
    · cases hnull
    · rw [(IpcAux.rbufEmpty_iff _).mpr hempty, hblock] at hok
      simp at hok
  · rw [if_pos hzero] at hs
    obtain ⟨s₁, hfree, heq⟩ := Option.map_eq_some_iff.mp hs
    cases heq
    cases hrec.symm.trans hreceive
    obtain ⟨hkept', hsame⟩ := (hkept.setPm _).release (b := (kmsg, msgSize)) (Function.update_self ..) hfree
    rw [hsame.pm, hsame.ttys, waiting_setBuffer]
    rw [Function.update_idem, ← hnone, Function.update_eq_self] at hkept'
    exact ⟨hipc', rfl, hkept'⟩
  · rw [if_neg (by rw [hagain]; decide)] at hs
    cases hs
    rw [hrec] at hreceive
    obtain ⟨⟨done, pm'⟩, hblock, heq⟩ := Option.map_eq_some_iff.mp hreceive
    cases heq
    refine ⟨hipc', rfl, ?_⟩
    rw [waiting_block hipc.ready hblock]
    exact hkept.setPm _

theorem sysInv_receive {msgptr block : UInt32} (h : SysInv s) (hok : SysOk s (.receive msgptr block))
    (hs : sysStep s (.receive msgptr block) = some s') : SysInv s' := by
  obtain ⟨hmapping, hmsg⟩ := hok
  rw [sysStep, Sys.sysReceive] at hs
  obtain ⟨⟨result, s₂⟩, hcall, rfl⟩ := Option.map_eq_some_iff.mp hs
  obtain ⟨⟨kmsg, s₁⟩, hmap, hreceive⟩ := Option.bind_eq_some_iff.mp hcall
  have hnone := cur_holds_none h
  obtain ⟨hk, hkept₁, hsame₁⟩ := h.kept.map hnone hmapping hmap
  obtain ⟨accepted, obtained, hipc⟩ := h.ipc
  simp only at hreceive
  rw [← hsame₁.pm] at hnone hkept₁ hipc hmsg hreceive
  obtain ⟨hipc₂, httys₂, hkept₂⟩ := ipcReceive_kept hipc hk (by simpa using hmsg) hnone hkept₁ hreceive
  refine ⟨hipc₂, ?_, hkept₂⟩
  rw [httys₂, hsame₁.ttys]
  exact h.reads

/-! ## The other steps -/

/-- A key answers no read, since none waits. -/
theorem sysInv_key {c : UInt8} (h : SysInv s) (hs : sysStep s (.key c) = some s') : SysInv s' := by
  rw [sysStep, Sys.handleInput] at hs
  cases hinput : handleInput (s.ttys s.curTty) c with
  | error e =>
    rw [hinput] at hs
    cases hs
  | ok r =>
    obtain ⟨answers, tty⟩ := r
    obtain ⟨rfl, hrequests⟩ := TtyAux.handleInput_requests (h.reads s.curTty) hinput
    rw [hinput] at hs
    simp only [List.zip_nil_right, List.foldl_nil] at hs
    cases hs
    exact ⟨h.ipc, requests_update h.reads s.curTty (hrequests.trans (h.reads s.curTty).symm), h.kept.congr rfl rfl rfl⟩

theorem sysInv_step {c : SysCall} (h : SysInv s) (hok : SysOk s c) (hs : sysStep s c = some s') : SysInv s' := by
  cases c with
  | readwrite call fd buffer count => exact sysInv_readwrite h hok hs
  | send target msgptr msg => exact sysInv_send h hok hs
  | receive msgptr block => exact sysInv_receive h hok hs
  | key c => exact sysInv_key h hs
  | selectTty i =>
    cases hs
    exact ⟨h.ipc, h.reads, h.kept.congr rfl rfl rfl⟩
  | schedule =>
    obtain ⟨pm, hsched, rfl⟩ := Option.map_eq_some_iff.mp hs
    obtain ⟨accepted, obtained, hipc⟩ := h.ipc
    have hipc' : IpcInv ⟨pm, accepted, obtained⟩ := MessagesAux.ipcInv_schedule hipc (by rw [ipcStep, hsched]; rfl)
    refine ⟨⟨_, _, hipc'⟩, h.reads, ?_⟩
    rw [waiting_schedule hipc.ready hsched]
    exact h.kept.setPm pm
  | kernelMap paddr vaddr =>
    obtain ⟨hkept, hpm, httys⟩ := h.kept.kernelMap paddr.toNat_lt vaddr.toNat_lt hs
    exact ⟨by rw [hpm]; exact h.ipc, by rw [httys]; exact h.reads, by rw [hpm]; exact hkept⟩
  | kernelUnmap vaddr =>
    obtain ⟨hkept, hpm, httys⟩ := h.kept.kernelUnmap vaddr.toNat_lt hs
    exact ⟨by rw [hpm]; exact h.ipc, by rw [httys]; exact h.reads, by rw [hpm]; exact hkept⟩

end BuffersAux

open BuffersAux

/-- In every run whose calls all meet the condition, the pages mapped in a state without a pending read or receiver are those that are
mapped for something else than a buffer, and every buffer was released as often as it was mapped. -/
theorem buffers_released {s₀ s : Sys} (h₀ : SysStart s₀) (h : Reach sysStep SysOk s₀ s) (hq : Quiet s) : Released s := by
  have hinv : SysInv s := h.inv SysInv (sysInv_start h₀) fun _ _ _ hi hok hs => sysInv_step hi hok hs
  exact released_of_inv hinv hq

/-- Two processes with the same memory, both of them with the first terminal as descriptor 0. -/
def twoReaders : Sys where
  vm := twoPages 0x6000
  pm := firstReady 2
  pdirs _ := 0x3000
  fsData _ := ⟨0, [some 1]⟩
  ttyOf file := if file = 1 then some 0 else none
  ttys _ := newTty ⟨fun _ => 0, 0, 0, 0, 25, 7, []⟩ (fun _ => 0) 0
  readers _ := []
  curTty := 0
  others _ := false
  balance _ _ := 0

namespace BuffersAux

theorem twoReaders_start : SysStart twoReaders := by
  refine ⟨⟨UserBufferAux.pdirWf_twoPages.1, fun i _ j _ hi hj _ => ?_⟩, MessagesAux.ipcStart_two,
    ⟨fun _ => rfl, fun _ => Bool.false_ne_true⟩, ⟨fun page _ => ?_, fun _ _ => rfl⟩⟩
  · rw [UserBufferAux.twoPages_kernel hi, UserBufferAux.twoPages_kernel hj]
  · have hnone : pageEntry twoReaders.vm twoReaders.vm.kernelPdir page = none := by
      by_cases hzero : page / 1024 = 0
      · rw [pageEntry, hzero]
        have htab : twoReaders.vm.tabs (getaddr (twoReaders.vm.tabs twoReaders.vm.kernelPdir 0)) (page % 1024) = 0#32 := by
          rw [show getaddr (twoReaders.vm.tabs twoReaders.vm.kernelPdir 0) = 0x2000 by decide]
          rfl
        rw [htab]
        rfl
      · exact PageMapAux.pageEntry_eq_none (Bool.eq_false_iff.mpr fun hp => hzero (UserBufferAux.twoPages_kernel hp))
    rw [FindRangeAux.present_getPtabEntry, pageFree, hnone]
    rfl

/-- A page of the first table that is free is enough for a buffer that lies on one page. -/
theorem mappingOk_of_free {vaddr size : Nat} (n : Nat)
    (h : numPages (alignSize (vmResolveVirt s.vm (s.pdirs s.pm.curProc) vaddr) size) = 1 ∧ 1 ≤ n ∧ n < 1024 ∧
      pageFree s.vm s.vm.kernelPdir n = true) : MappingOk s vaddr size := by
  obtain ⟨hnum, hpos, hlt, hfree⟩ := h
  rw [MappingOk, hnum]
  rintro ⟨b, hb, htable, -⟩
  refine hb.first n hpos (by omega) fun i hi => ?_
  obtain rfl : i = 0 := by omega
  exact hfree

end BuffersAux

/-- The end of a line is typed, and the first process reads it. -/
theorem twoReaders_released : ∃ s₁ s₂, sysStep twoReaders (.key 10) = some s₁ ∧
    sysStep s₁ (.readwrite (.read 0) 0 0x40000100 5) = some s₂ ∧ Released s₂ := by
  have hrun : (sysStep twoReaders (.key 10)).any (fun s₁ =>
      decide ((numPages (alignSize (vmResolveVirt s₁.vm (s₁.pdirs s₁.pm.curProc) 0x40000100) 5) = 1 ∧ 1 ≤ 1 ∧ 1 < 1024 ∧
          pageFree s₁.vm s₁.vm.kernelPdir 1 = true) ∧
        (s₁.fsData s₁.pm.curProc).fd2file 0 = some 1 ∧ s₁.ttyOf 1 = some 0 ∧ enoughData (s₁.ttys 0) 5 = true) &&
      (sysStep s₁ (.readwrite (.read 0) 0 0x40000100 5)).any fun s₂ =>
        decide ((∀ i, (s₂.ttys i).requests = []) ∧ ∀ p, ¬pmIsBlockedFor (s₂.pm.procs p) .receiving)) = true := by decide +kernel
  obtain ⟨s₁, h₁, hrun⟩ := (Option.any_eq_true _ _).mp hrun
  obtain ⟨hs₁, hrun⟩ := Bool.and_eq_true_iff.mp hrun
  obtain ⟨s₂, h₂, hs₂⟩ := (Option.any_eq_true _ _).mp hrun
  obtain ⟨hpage, hfd, htty, henough⟩ := of_decide_eq_true hs₁
  obtain ⟨hreads, hreceivers⟩ := of_decide_eq_true hs₂
  have hok : SysOk s₁ (.readwrite (.read 0) 0 0x40000100 5) := by
    refine ⟨mappingOk_of_free 1 hpage, fun file hfile => ?_⟩
    obtain rfl := Option.some.inj (hfd.symm.trans hfile)
    rw [htty]
    exact henough
  have hreach : Reach sysStep SysOk twoReaders s₂ := .step _ (.step (.key 10) .init trivial h₁) hok h₂
  exact ⟨s₁, s₂, h₁, h₂, buffers_released twoReaders_start hreach ⟨hreads, hreceivers⟩⟩

/-- The first process reads, and the end of a line is typed then. The read is answered, and its buffer, on page 1, stays mapped. So
does the buffer of a receive that finds no message and does not wait. -/
theorem buffer_not_released : SysStart twoReaders ∧
    (∃ s, Reach sysStep (fun _ _ => True) twoReaders s ∧ Quiet s ∧
      present (getPtabEntry s.vm s.vm.kernelPdir 0x1000) = true ∧ s.others 1 = false ∧ ¬Released s) ∧
    ∃ s, sysStep twoReaders (.receive 0x40000100 0) = some s ∧ Quiet s ∧
      present (getPtabEntry s.vm s.vm.kernelPdir 0x1000) = true ∧ s.others 1 = false ∧ ¬Released s := by
  have hread : ((sysStep twoReaders (.readwrite (.read 0) 0 0x40000100 5)).bind (sysStep · (.key 10))).any (fun s =>
      decide ((∀ i, (s.ttys i).requests = []) ∧ (∀ p, ¬pmIsBlockedFor (s.pm.procs p) .receiving) ∧
        present (getPtabEntry s.vm s.vm.kernelPdir 0x1000) = true ∧ s.others 1 = false)) = true := by decide +kernel
  have hreceive : (sysStep twoReaders (.receive 0x40000100 0)).any (fun s =>
      decide ((∀ i, (s.ttys i).requests = []) ∧ (∀ p, ¬pmIsBlockedFor (s.pm.procs p) .receiving) ∧
        present (getPtabEntry s.vm s.vm.kernelPdir 0x1000) = true ∧ s.others 1 = false)) = true := by decide +kernel
  have hnot : ∀ s : Sys, present (getPtabEntry s.vm s.vm.kernelPdir 0x1000) = true → s.others 1 = false → ¬Released s := by
    intro s hpage hother hr
    have hsame := hr.pages 1 (by decide)
    rw [hother] at hsame
    exact absurd (hpage.symm.trans hsame) (by decide)
  refine ⟨twoReaders_start, ?_, ?_⟩
  · obtain ⟨s, hbind, hs⟩ := (Option.any_eq_true _ _).mp hread
    obtain ⟨s₁, h₁, h₂⟩ := Option.bind_eq_some_iff.mp hbind
    obtain ⟨hreads, hreceivers, hpage, hother⟩ := of_decide_eq_true hs
    have hreach : Reach sysStep (fun _ _ => True) twoReaders s := .step _ (.step _ .init trivial h₁) trivial h₂
    exact ⟨s, hreach, ⟨hreads, hreceivers⟩, hpage, hother, hnot s hpage hother⟩
  · obtain ⟨s, hstep, hs⟩ := (Option.any_eq_true _ _).mp hreceive
    obtain ⟨hreads, hreceivers, hpage, hother⟩ := of_decide_eq_true hs
    exact ⟨s, hstep, ⟨hreads, hreceivers⟩, hpage, hother, hnot s hpage hother⟩

end Kos
