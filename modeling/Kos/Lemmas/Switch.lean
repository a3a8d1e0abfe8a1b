import Kos.Pm.Switch

/-!
# Frames on the kernel stacks

Entering the kernel and leaving it again gives the registers back, as long as the frame is left alone. A frame has 19 double words for a
process in user mode, and 17 otherwise. From that follows what a handler keeps: the frame of each process, on a stack of its own, has the
registers that the process has on a processor of its own.
-/

namespace Kos

/-- The size of the frame for code with these registers. -/
def Regs.frameSize (r : Regs) : Nat := if isUser r.cs then 76 else 68

/-- Where the frame ends: at `tss.esp0`, or at the stack pointer. -/
def Regs.top (r : Regs) (esp0 : Nat) : Nat := if isUser r.cs then esp0 else r.esp

namespace SwitchAux

variable {mem mem' : Dwords} {r : Regs} {esp0 intr errc p : Nat}

theorem frameSize_le (r : Regs) : 68 ≤ r.frameSize ∧ r.frameSize ≤ 76 := by
  unfold Regs.frameSize
  split <;> decide

theorem top_of_kernel (h : isUser r.cs = false) (kstack : Nat) : r.top kstack = r.esp := by
  rw [Regs.top, h]
  rfl

theorem frameSize_of_kernel (h : isUser r.cs = false) : r.frameSize = 68 := by
  rw [Regs.frameSize, h]
  rfl

theorem top_of_user (h : isUser r.cs = true) (kstack : Nat) : r.top kstack = kstack := if_pos h

theorem frameSize_of_user (h : isUser r.cs = true) : r.frameSize = 76 := if_pos h

/-- The double words of a frame, in the order in which they are pushed. -/
def frameWords (r : Regs) (x intr errc : Nat) : List Nat :=
  (if isUser r.cs then [r.ss, r.esp] else []) ++
    [r.eflags, r.cs, r.eip, errc, intr, r.gs, r.fs, r.es, r.ds, r.eax, r.ecx, r.edx, r.ebx, x, r.ebp, r.esi, r.edi]

theorem length_frameWords (x : Nat) : 4 * (frameWords r x intr errc).length = r.frameSize := by
  unfold frameWords Regs.frameSize
  split <;> rfl

/-- A frame with the registers has been pushed. -/
structure Framed (mem mem' : Dwords) (top : Nat) (r : Regs) : Prop where
  leave : leave mem' (top - r.frameSize) = r
  other : ∀ a, a < top - r.frameSize ∨ top ≤ a → mem' a = mem a

theorem framed_pushes {top x : Nat} (hroom : r.frameSize ≤ top) (hkernel : isUser r.cs = false → r.esp = top ∧ r.ss = gdtSelData) :
    Framed mem (pushes (mem, top) (frameWords r x intr errc)).1 top r := by
  have hread : (pushes (mem, top) (frameWords r x intr errc)).1.read (top - 4 * (frameWords r x intr errc).length) _ =
      (frameWords r x intr errc).reverse := pushes_read (by rwa [length_frameWords])
  rw [length_frameWords] at hread
  refine ⟨?_, fun a ha => pushes_other (by rwa [length_frameWords]) (by rwa [length_frameWords])⟩
  generalize (pushes (mem, top) (frameWords r x intr errc)).1 = mem' at hread
  unfold frameWords at hread
  cases hmode : isUser r.cs <;>
    simp only [hmode, if_true, Bool.false_eq_true, if_false, List.cons_append, List.nil_append, List.length_cons, List.length_nil,
      List.reverse_cons, List.reverse_nil, Dwords.read, List.range_succ, List.range_zero, List.map_cons, List.map_nil, List.cons.injEq,
      Nat.mul_zero, Nat.add_zero, and_true, Nat.reduceMul, Nat.reduceAdd] at hread
  case true =>
    obtain ⟨hedi, hesi, hebp, -, hebx, hedx, hecx, heax, hds, hes, hfs, hgs, -, -, heip, hcs, heflags, hesp, hss⟩ := hread
    simp only [Kos.leave, hedi, hesi, hebp, hebx, hedx, hecx, heax, hds, hes, hfs, hgs, heip, hcs, heflags, hesp, hss, hmode, if_true]
  case false =>
    obtain ⟨htop, hss⟩ := hkernel hmode
    have hesp : r.esp = top - r.frameSize + 68 := by
      rw [frameSize_of_kernel hmode] at hroom ⊢
      omega
    obtain ⟨hedi, hesi, hebp, -, hebx, hedx, hecx, heax, hds, hes, hfs, hgs, -, -, heip, hcs, heflags⟩ := hread
    simp only [Kos.leave, hedi, hesi, hebp, hebx, hedx, hecx, heax, hds, hes, hfs, hgs, heip, hcs, heflags, ← hesp, ← hss, hmode,
      Bool.false_eq_true, if_false]

theorem exists_enter_eq (r : Regs) (esp0 intr errc : Nat) (mem : Dwords) :
    ∃ x, enter r esp0 intr errc mem = pushes (mem, r.top esp0) (frameWords r x intr errc) := by
  unfold enter frameWords Regs.top
  cases isUser r.cs with
  | false => exact ⟨r.esp - 36, by simp only [Bool.false_eq_true, if_false, List.nil_append, ← pushes_append, pushes_esp]; rfl⟩
  | true => exact ⟨esp0 - 44, by simp only [if_true, ← pushes_append, pushes_esp]; rfl⟩

theorem enter_esp : (enter r esp0 intr errc mem).2 = r.top esp0 - r.frameSize := by
  obtain ⟨x, hx⟩ := exists_enter_eq r esp0 intr errc mem
  rw [hx, pushes_esp, length_frameWords]

theorem enter_framed (esp0 intr errc : Nat) (mem : Dwords) (hroom : r.frameSize ≤ r.top esp0) 
    (hss : isUser r.cs = false → r.ss = gdtSelData) : Framed mem (enter r esp0 intr errc mem).1 (r.top esp0) r := by
  obtain ⟨x, hx⟩ := exists_enter_eq r esp0 intr errc mem
  rw [hx]
  exact framed_pushes hroom fun hkernel => ⟨(top_of_kernel hkernel esp0).symm, hss hkernel⟩

/-- A frame at another place, or at the same one if it is that of the kernel. -/
theorem leave_of_words {p' : Nat} (h : ∀ i < 68, mem' (p' + i) = mem (p + i)) (hkernel : isUser (leave mem p).cs = false → p' = p)
    (huser : isUser (leave mem p).cs = true → mem' (p' + 68) = mem (p + 68) ∧ mem' (p' + 72) = mem (p + 72)) : leave mem' p' = leave mem p := by
  have hfirst : mem' p' = mem p := h 0 (by decide)
  simp only [leave, hfirst, h 4 (by decide), h 8 (by decide), h 16 (by decide), h 20 (by decide), h 24 (by decide), h 28 (by decide),
    h 32 (by decide), h 36 (by decide), h 40 (by decide), h 44 (by decide), h 56 (by decide), h 60 (by decide), h 64 (by decide),
    Regs.mk.injEq, true_and]
  cases hmode : isUser (mem (p + 60)) with
  | false => exact ⟨by rw [hkernel hmode]; rfl, rfl⟩
  | true => exact huser hmode

/-- A frame that is left alone. -/
theorem leave_congr (h : ∀ a, p ≤ a → a < p + (leave mem p).frameSize → mem' a = mem a) : leave mem' p = leave mem p := by
  have hsize := (frameSize_le (leave mem p)).1
  refine leave_of_words (fun i hi => h _ (by omega) (by omega)) (fun _ => rfl) fun hmode => ?_
  rw [frameSize_of_user hmode] at h
  exact ⟨h _ (by omega) (by omega), h _ (by omega) (by omega)⟩

/-- A copy of the frame of a process in user mode. -/
theorem leave_shift {p' : Nat} (h : ∀ i < 76, mem' (p' + i) = mem (p + i)) (huser : isUser (leave mem p).cs = true) :
    leave mem' p' = leave mem p :=
  leave_of_words (fun i hi => h i (by omega)) (fun hkernel => absurd (hkernel.symm.trans huser) Bool.false_ne_true)
    fun _ => ⟨h 68 (by decide), h 72 (by decide)⟩

/-- The result of a system call in its frame. -/
theorem leave_eax (v : Nat) : leave (Function.update mem (eaxOf p) v) p = { leave mem p with eax := v } := by
  have hother : ∀ a, a ≠ p + 28 → Function.update mem (p + 28) v a = mem a := fun a ha => Function.update_of_ne ha ..
  simp only [leave, eaxOf, hother p (by omega), hother (p + 4) (by omega), hother (p + 8) (by omega), hother (p + 16) (by omega),
    hother (p + 20) (by omega), hother (p + 24) (by omega), Function.update_self, hother (p + 32) (by omega), hother (p + 36) (by omega),
    hother (p + 40) (by omega), hother (p + 44) (by omega), hother (p + 56) (by omega), hother (p + 60) (by omega),
    hother (p + 64) (by omega), hother (p + 68) (by omega), hother (p + 72) (by omega)]

/-! ## New processes -/

section New

variable {page entry : Nat} {mode : ProcMode}

theorem isUser_newRegs : isUser (Cpus.newRegs page entry mode).cs = decide (mode = .user) := by
  cases mode with
  | kernel => exact (by decide : isUser gdtSelCode = false)
  | user => exact (by decide : isUser (gdtSelUcode + 3) = true)

theorem prepareStack_eq {kstack : Nat} (page : Nat) :
    prepareStack mem kstack entry mode = pushes (mem, kstack) (frameWords (Cpus.newRegs page entry mode) 0 0 0) := by
  rw [frameWords, isUser_newRegs]
  cases mode <;> rfl

theorem prepareStack_esp : (prepareStack mem (page + 4096) entry mode).2 = page + 4096 - (Cpus.newRegs page entry mode).frameSize := by
  rw [prepareStack_eq page, pushes_esp, length_frameWords]

/-- A new process gets its registers from the stack. -/
theorem prepareStack_framed (mem : Dwords) (page entry : Nat) (mode : ProcMode) :
    Framed mem (prepareStack mem (page + 4096) entry mode).1 (page + 4096) (Cpus.newRegs page entry mode) := by
  have hsize := frameSize_le (Cpus.newRegs page entry mode)
  rw [prepareStack_eq page]
  refine framed_pushes (by omega) fun hkernel => ?_
  cases mode with
  | kernel => exact ⟨rfl, rfl⟩
  | user =>
    rw [isUser_newRegs] at hkernel
    cases hkernel

end New

end SwitchAux

/-! ## Where the stacks are -/

/-- The process that `kmain` becomes, with the first interrupt: `idle`, on the stack of the boot code. -/
def bootProc : ProcRef := 0

/-- The kernel stack of a process, from its lowest address to its end. -/
def Switch.region (boot : Nat × Nat) (s : Switch) (p : ProcRef) : Nat × Nat :=
  if p = bootProc then boot else ((s.procs p).kstackAddr, (s.procs p).kstackAddr + 4096)

def Apart (r r' : Nat × Nat) : Prop := r.2 ≤ r'.1 ∨ r'.2 ≤ r.1

/-- A page that is no part of a stack in use. -/
def Switch.Unused (boot : Nat × Nat) (me : ProcRef) (s : Switch) (page : Nat) : Prop :=
  ∀ q, (s.procs q).live = true ∨ q = me → Apart (page, page + 4096) (s.region boot q)

/-! ## What handlers may do -/

/-- What is asked of an operation of a handler. It leaves the stacks alone, but for the part of its own that is below the frame. New stacks
are in pages that are not in use. A late result is for a process that waits for it. `pm_schedule` and `pm_fork` are only called if no
interrupt has come within the handler yet: then `esp` of the process is its frame. -/
def KernelOp.Ok (boot : Nat × Nat) (me : ProcRef) (frame : Nat) (s : Switch) : KernelOp → Prop
  | store a _ => ∀ p, (s.procs p).live = true ∨ p = me → (s.region boot p).1 ≤ a → a < (s.region boot p).2 → p = me ∧ a < frame
  | schedule p => (s.procs p).live = true ∧ (s.procs me).esp = frame
  | scRegs => True
  | result _ => True
  | lateResult p _ => (s.procs p).live = true ∧ p ≠ me ∧ (s.procs p).scRegs = (s.procs p).esp
  | create p page _ _ _ => p ≠ me ∧ p ≠ bootProc ∧ s.Unused boot me page
  | fork child page _ =>
    child ≠ me ∧ child ≠ bootProc ∧ s.Unused boot me page ∧ me ≠ bootProc ∧ isUser s.regs.cs = true ∧ (s.procs me).esp = frame ∧
      (s.procs me).kstackAddr + 76 ≤ frame
  | destroy p => p ≠ bootProc ∧ p ≠ s.cur

/-- What an interrupt within a handler does not do. -/
def KernelOp.Stays : KernelOp → Prop
  | store _ _ | lateResult _ _ | create _ _ _ _ _ | destroy _ => True
  | schedule _ | scRegs | result _ | fork _ _ _ => False

def OpsOk (boot : Nat × Nat) (me : ProcRef) (frame : Nat) : Switch → List KernelOp → Prop
  | _, [] => True
  | s, o :: os => o.Ok boot me frame s ∧ o.Stays ∧ OpsOk boot me frame (o.run me frame s) os

/-- An interrupt within a handler comes before the handler has chosen another process, finds room on the stack, and leaves the choice as it
is. -/
def KernelStep.Ok (boot : Nat × Nat) (me : ProcRef) (frame : Nat) (s : Switch) : KernelStep → Prop
  | op o => o.Ok boot me frame s
  | irq k intr errc ops =>
    s.cur = me ∧ isUser k.cs = false ∧ k.ss = gdtSelData ∧ (s.region boot me).1 + 68 ≤ k.esp ∧ k.esp ≤ frame ∧
      OpsOk boot me (k.esp - 68) ({ s with mem := (enter k s.esp0 intr errc s.mem).1 }.pmRestore (k.esp - 68)) ops

def StepsOk (boot : Nat × Nat) (me : ProcRef) (frame : Nat) : Switch → List KernelStep → Prop
  | _, [] => True
  | s, st :: sts => st.Ok boot me frame s ∧ ∀ s', st.run me frame s = some s' → StepsOk boot me frame s' sts

/-- What is asked of a step: kernel code keeps its stack pointer in its stack, with room for a frame. -/
def SwitchStep.Ok (boot : Nat × Nat) (s : Switch) : SwitchStep → Prop
  | run r =>
    isUser r.cs = isUser s.regs.cs ∧ (isUser r.cs = false → r.ss = gdtSelData ∧ (s.region boot s.cur).1 + 68 ≤ r.esp ∧ r.esp ≤ (s.region boot s.cur).2)
  | interrupt intr errc steps =>
    let (mem, esp) := enter s.regs s.esp0 intr errc s.mem
    StepsOk boot s.cur esp ({ s with mem := mem }.pmRestore esp) steps

def SwitchRunOk (boot : Nat × Nat) : Switch → List SwitchStep → Prop
  | _, [] => True
  | s, a :: as => a.Ok boot s ∧ ∀ s', switchStep s a = some s' → SwitchRunOk boot s' as

/-- The first state: `kmain` runs on the boot stack, and is the current process. -/
structure Switch.Booted (boot : Nat × Nat) (s : Switch) : Prop where
  cur : s.cur = bootProc
  only : ∀ p, (s.procs p).live = true ↔ p = bootProc
  last : s.last = none
  kernel : isUser s.regs.cs = false
  ss : s.regs.ss = gdtSelData
  low : boot.1 + 68 ≤ s.regs.esp
  high : s.regs.esp ≤ boot.2

/-! ## The machine and the processors -/

/-- The frame of a process, while a handler has stopped `me`. -/
def Switch.frameOf (me : ProcRef) (frame : Nat) (s : Switch) (p : ProcRef) : Nat := if p = me then frame else (s.procs p).esp

namespace SwitchAux

/-- The process can be stopped: there is room for a frame. Each fork has taken the room of a frame. -/
structure Room (region : Nat × Nat) (kstack : Nat) (c : Cpu) : Prop where
  low : region.1 + c.regs.frameSize ≤ c.regs.top kstack
  high : c.regs.top kstack ≤ region.2
  ss : isUser c.regs.cs = false → c.regs.ss = gdtSelData
  forks : isUser c.regs.cs = true → kstack + 76 * (c.forks + 1) = region.2

/-- The registers are saved in a frame. -/
structure Saved (mem : Dwords) (region : Nat × Nat) (esp : Nat) (r : Regs) : Prop where
  low : region.1 ≤ esp
  high : esp + r.frameSize ≤ region.2
  regs : leave mem esp = r

/-- Between two steps of the machine. -/
structure Sim (boot : Nat × Nat) (s : Switch) (v : Cpus) : Prop where
  cur : s.cur = v.cur
  live : (s.procs s.cur).live = true
  regs : s.regs = (v.cpus s.cur).regs
  saved : ∀ p, (s.procs p).live = true → p ≠ s.cur → Saved s.mem (s.region boot p) (s.procs p).esp (v.cpus p).regs
  room : ∀ p, (s.procs p).live = true → Room (s.region boot p) (s.procs p).kstack (v.cpus p)
  apart : ∀ p q, (s.procs p).live = true → (s.procs q).live = true → p ≠ q → Apart (s.region boot p) (s.region boot q)
  last : (s.last = none ∧ isUser s.regs.cs = false) ∨
    (s.last = some s.cur ∧ s.esp0 = (s.procs s.cur).kstack ∧ s.space = (s.procs s.cur).as)

/-- Within a handler that has stopped the process `me`: the frames of all processes. -/
structure Frames (boot : Nat × Nat) (me : ProcRef) (frame : Nat) (s : Switch) (v : Cpus) : Prop where
  cur : s.cur = v.cur
  live : (s.procs s.cur).live = true
  saved : ∀ p, (s.procs p).live = true ∨ p = me → Saved s.mem (s.region boot p) (s.frameOf me frame p) (v.cpus p).regs
  room : ∀ p, (s.procs p).live = true ∨ p = me → Room (s.region boot p) (s.procs p).kstack (v.cpus p)
  apart : ∀ p q, (s.procs p).live = true ∨ p = me → (s.procs q).live = true ∨ q = me → p ≠ q → Apart (s.region boot p) (s.region boot q)
  mode : isUser s.regs.cs = isUser (v.cpus me).regs.cs
  top : isUser s.regs.cs = true → frame + 76 = (s.procs me).kstack

/-- The handler can leave with the process `me`, or with another one if no interrupt has come within it. -/
structure InKernel (boot : Nat × Nat) (me : ProcRef) (frame : Nat) (s : Switch) (v : Cpus) : Prop extends Frames boot me frame s v where
  back : (s.procs me).esp = frame ∨ s.cur = me
  last : (s.last = none ∧ (s.procs me).esp = frame) ∨ (s.last = some me ∧ s.esp0 = (s.procs me).kstack)

variable {boot : Nat × Nat} {me : ProcRef} {frame : Nat} {s s' : Switch} {v : Cpus}

theorem procs_setProc (p q : ProcRef) (f : ProcStack → ProcStack) : (s.setProc p f).procs q = if q = p then f (s.procs p) else s.procs q :=
  Function.update_apply ..

theorem cpus_set (p q : ProcRef) (c : Cpu) : (v.set p c).cpus q = if q = p then c else v.cpus q := Function.update_apply ..

theorem frameOf_self : s.frameOf me frame me = frame := if_pos rfl

theorem frameOf_ne {p : ProcRef} (h : p ≠ me) (frame : Nat) : s.frameOf me frame p = (s.procs p).esp := if_neg h

theorem region_congr {p : ProcRef} (h : (s'.procs p).kstackAddr = (s.procs p).kstackAddr) : s'.region boot p = s.region boot p := by
  rw [Switch.region, h, Switch.region]

/-- A frame is kept if its memory is. -/
theorem Saved.congr {mem mem' : Dwords} {region : Nat × Nat} {esp : Nat} {r : Regs} (h : Saved mem region esp r)
    (hmem : ∀ a, esp ≤ a → a < region.2 → mem' a = mem a) : Saved mem' region esp r := by
  obtain ⟨hlow, hhigh, hregs⟩ := h
  refine ⟨hlow, hhigh, ?_⟩
  rw [leave_congr, hregs]
  intro a ha ha'
  rw [hregs] at ha'
  exact hmem a ha (by omega)

/-! ### Operations -/

/-- Memory is set that is in no frame, nor on a stack behind one. -/
theorem Frames.setMem (h : Frames boot me frame s v) (mem : Dwords)
    (hmem : ∀ p, (s.procs p).live = true ∨ p = me → ∀ a, s.frameOf me frame p ≤ a → a < (s.region boot p).2 → mem a = s.mem a) :
    Frames boot me frame { s with mem := mem } v :=
  { h with saved := fun p hp => (h.saved p hp).congr (hmem p hp) }

/-- Other members change. -/
theorem Frames.setProcs (h : Frames boot me frame s v) (procs : ProcRef → ProcStack)
    (hsame : ∀ p, (procs p).kstackAddr = (s.procs p).kstackAddr ∧ (procs p).kstack = (s.procs p).kstack ∧
      ((procs p).live = true → (s.procs p).live = true) ∧ (p ≠ me → (procs p).esp = (s.procs p).esp))
    (hcur : (procs s.cur).live = true) : Frames boot me frame { s with procs := procs } v := by
  have hregion : ∀ p, Switch.region boot { s with procs := procs } p = s.region boot p := fun p => region_congr (hsame p).1
  have hframe : ∀ p, Switch.frameOf me frame { s with procs := procs } p = s.frameOf me frame p := by
    intro p
    unfold Switch.frameOf
    split
    · rfl
    · exact (hsame p).2.2.2 ‹_›
  have hor : ∀ p, (procs p).live = true ∨ p = me → (s.procs p).live = true ∨ p = me := fun p hp => hp.imp_left (hsame p).2.2.1
  refine ⟨h.cur, hcur, fun p hp => ?_, fun p hp => ?_, fun p q hp hq hne => ?_, h.mode, fun huser => ?_⟩
  · rw [hregion, hframe]
    exact h.saved p (hor p hp)
  · rw [hregion]
    change Room _ (procs p).kstack _
    rw [(hsame p).2.1]
    exact h.room p (hor p hp)
  · rw [hregion, hregion]
    exact h.apart p q (hor p hp) (hor q hq) hne
  · exact (h.top huser).trans (hsame me).2.1.symm

theorem Frames.setRest (h : Frames boot me frame s v) (esp0 space : Nat) (last : Option ProcRef) :
    Frames boot me frame { s with esp0 := esp0, space := space, last := last } v :=
  ⟨h.cur, h.live, h.saved, h.room, h.apart, h.mode, h.top⟩

/-- A process gets a stack in a page that was not in use. -/
theorem Frames.addProc (h : Frames boot me frame s v) {p : ProcRef} {page : Nat} (hme : p ≠ me) (hboot : p ≠ bootProc)
    (hpage : s.Unused boot me page) {mem : Dwords} (hmem : ∀ a, a < page ∨ page + 4096 ≤ a → mem a = s.mem a) {proc : ProcStack} {c : Cpu}
    (hlive : proc.live = true) (haddr : proc.kstackAddr = page) (hsaved : Saved mem (page, page + 4096) proc.esp c.regs)
    (hroom : Room (page, page + 4096) proc.kstack c) :
    Frames boot me frame ({ s with mem := mem }.setProc p fun _ => proc) (v.set p c) := by
  generalize hs' : { s with mem := mem }.setProc p (fun _ => proc) = s'
  have hprocs : ∀ q, s'.procs q = if q = p then proc else s.procs q := fun q => by rw [← hs', procs_setProc]
  have hrest : s'.mem = mem ∧ s'.cur = s.cur ∧ s'.regs = s.regs := by
    rw [← hs']
    exact ⟨rfl, rfl, rfl⟩
  have hnew : s'.procs p = proc ∧ s'.region boot p = (page, page + 4096) ∧ (v.set p c).cpus p = c := by
    have hproc : s'.procs p = proc := by rw [hprocs, if_pos rfl]
    exact ⟨hproc, by rw [Switch.region, if_neg hboot, hproc, haddr], by rw [cpus_set, if_pos rfl]⟩
  have hold : ∀ q, q ≠ p → s'.procs q = s.procs q ∧ s'.region boot q = s.region boot q ∧ (v.set p c).cpus q = v.cpus q := by
    intro q hq
    have hproc : s'.procs q = s.procs q := by rw [hprocs, if_neg hq]
    exact ⟨hproc, region_congr (by rw [hproc]), by rw [cpus_set, if_neg hq]⟩
  -- a process that is in use is the new one, or was in use before
  have hused : ∀ q, (s'.procs q).live = true ∨ q = me → q = p ∨ q ≠ p ∧ ((s.procs q).live = true ∨ q = me) := by
    intro q hq
    by_cases hqp : q = p
    · exact .inl hqp
    · exact .inr ⟨hqp, hq.imp_left fun hlive => by rwa [(hold q hqp).1] at hlive⟩
  refine ⟨by rw [hrest.2.1]; exact h.cur, ?_, fun q hq => ?_, fun q hq => ?_, fun q q' hq hq' hne => ?_, ?_, fun huser => ?_⟩
  · rw [hrest.2.1, hprocs]
    split
    · exact hlive
    · exact h.live
  · obtain rfl | ⟨hqp, hq⟩ := hused q hq
    · rw [frameOf_ne hme, hrest.1, hnew.1, hnew.2.1, hnew.2.2]
      exact hsaved
    · rw [Switch.frameOf, hrest.1, (hold q hqp).1, (hold q hqp).2.1, (hold q hqp).2.2]
      refine (h.saved q hq).congr fun a ha ha' => hmem a ?_
      have := (h.saved q hq).low
      obtain hlt | hlt := hpage q hq
      · exact .inr (Nat.le_trans hlt (Nat.le_trans this ha))
      · exact .inl (Nat.lt_of_lt_of_le ha' hlt)
  · obtain rfl | ⟨hqp, hq⟩ := hused q hq
    · rw [hnew.1, hnew.2.1, hnew.2.2]
      exact hroom
    · rw [(hold q hqp).1, (hold q hqp).2.1, (hold q hqp).2.2]
      exact h.room q hq
  · obtain rfl | ⟨hqp, hq⟩ := hused q hq
    · obtain rfl | ⟨hqp', hq'⟩ := hused q' hq'
      · exact absurd rfl hne
      · rw [hnew.2.1, (hold q' hqp').2.1]
        exact hpage q' hq'
    · obtain rfl | ⟨hqp', hq'⟩ := hused q' hq'
      · rw [hnew.2.1, (hold q hqp).2.1]
        exact (hpage q hq).symm
      · rw [(hold q hqp).2.1, (hold q' hqp').2.1]
        exact h.apart q q' hq hq' hne
  · rw [(hold me hme.symm).2.2, hrest.2.2, h.mode]
  · rw [(hold me hme.symm).1]
    exact h.top (by rwa [hrest.2.2] at huser)

/-- The result of a system call is put into a frame. -/
theorem Frames.setEax (h : Frames boot me frame s v) (x : Nat) {p : ProcRef} (hp : (s.procs p).live = true ∨ p = me) :
    Frames boot me frame { s with mem := Function.update s.mem (eaxOf (s.frameOf me frame p)) x } (v.setEax p x) := by
  have hcpus : ∀ q, (v.setEax p x).cpus q = if q = p then { v.cpus p with regs := { (v.cpus p).regs with eax := x } } else v.cpus q :=
    fun q => cpus_set ..
  obtain ⟨hlow, hhigh, hregs⟩ := h.saved p hp
  refine ⟨h.cur, h.live, fun q hq => ?_, fun q hq => ?_, h.apart, ?_, h.top⟩
  · rw [hcpus]
    by_cases hqp : q = p
    · subst hqp
      rw [if_pos rfl]
      exact ⟨hlow, hhigh, by rw [← hregs]; exact leave_eax x⟩
    · rw [if_neg hqp]
      -- the result is on the stack of the other process
      refine (h.saved q hq).congr fun a ha ha' => Function.update_of_ne ?_ ..
      have := (h.saved q hq).low
      have := (frameSize_le (v.cpus p).regs).1
      obtain hlt | hlt := h.apart q p hq hp hqp <;> simp only [eaxOf, Switch.frameOf] at * <;> omega
  · rw [hcpus]
    split
    · rename_i hqp
      subst hqp
      exact ⟨(h.room q hq).low, (h.room q hq).high, (h.room q hq).ss, (h.room q hq).forks⟩
    · exact h.room q hq
  · rw [hcpus, h.mode]
    split
    · rename_i hme
      rw [hme]
    · rfl

theorem Frames.create (h : Frames boot me frame s v) {p : ProcRef} {page as entry : Nat} {mode : ProcMode}
    (hok : (KernelOp.create p page as entry mode).Ok boot me frame s) :
    Frames boot me frame (s.create p page as entry mode) (v.set p ⟨Cpus.newRegs page entry mode, 0⟩) := by
  obtain ⟨hme, hboot, hpage⟩ := hok
  have hsize := frameSize_le (Cpus.newRegs page entry mode)
  obtain ⟨hleave, hother⟩ := prepareStack_framed s.mem page entry mode
  refine h.addProc hme hboot hpage (fun a ha => hother a (by omega)) rfl rfl ?_ ?_
  · change Saved _ _ (prepareStack s.mem (page + 4096) entry mode).2 _
    rw [prepareStack_esp]
    exact ⟨by simp only; omega, by simp only; omega, hleave⟩
  · change Room _ (prepareStack s.mem (page + 4096) entry mode).2 _
    rw [prepareStack_esp]
    cases mode with
    | kernel =>
      have hmode : isUser (Cpus.newRegs page entry .kernel).cs = false := isUser_newRegs
      refine ⟨?_, ?_, fun _ => rfl, fun huser => absurd (hmode.symm.trans huser) Bool.false_ne_true⟩
      · rw [top_of_kernel hmode, frameSize_of_kernel hmode]
        exact Nat.add_le_add_left (by decide) page
      · rw [top_of_kernel hmode]
        exact Nat.le_refl _
    | user =>
      have hmode : isUser (Cpus.newRegs page entry .user).cs = true := isUser_newRegs
      rw [frameSize_of_user hmode]
      refine ⟨?_, ?_, fun hkernel => absurd (hkernel.symm.trans hmode) Bool.false_ne_true, fun _ => by simp only; omega⟩
      · rw [top_of_user hmode, frameSize_of_user hmode]
        simp only
        omega
      · rw [top_of_user hmode]
        exact Nat.sub_le ..

/-- The child has a copy of its parent's frame. -/
theorem Frames.fork (h : Frames boot me frame s v) {child : ProcRef} {page as : Nat}
    (hok : (KernelOp.fork child page as).Ok boot me frame s) :
    Frames boot me frame (s.fork me child page as) (v.set child ⟨(v.cpus me).regs, (v.cpus me).forks + 1⟩) := by
  obtain ⟨hme, hboot, hpage, hparent, hmode, hesp, hroom⟩ := hok
  have huser : isUser (v.cpus me).regs.cs = true := h.mode.symm.trans hmode
  have hsize := frameSize_of_user huser
  have htop := h.top hmode
  have hforks := (h.room me (.inr rfl)).forks huser
  obtain ⟨hlow, hhigh, hregs⟩ := h.saved me (.inr rfl)
  rw [frameOf_self] at hlow hhigh hregs
  rw [Switch.region, if_neg hparent] at hlow hhigh hforks
  simp only [hsize] at hlow hhigh hforks
  -- the frame in the page of the parent, and in the copy
  obtain ⟨offs, hoffs⟩ : ∃ offs, frame = (s.procs me).kstackAddr + offs := ⟨frame - (s.procs me).kstackAddr, by omega⟩
  have hcopy : (s.procs me).esp - (s.procs me).kstackAddr = offs := by omega
  refine h.addProc hme hboot hpage (fun a ha => if_neg (by omega)) rfl rfl ?_ ?_
  · rw [hcopy]
    refine ⟨by simp only; omega, by simp only [hsize]; omega, ?_⟩
    rw [← hregs, hoffs]
    refine leave_shift (fun i hi => ?_) (by rwa [← hoffs, hregs])
    change Switch.copyPage s.mem page _ (page + offs + i) = _
    rw [Switch.copyPage, if_pos (by omega), show page + offs + i - page = offs + i by omega, Nat.add_assoc]
  · rw [hcopy]
    refine ⟨?_, ?_, fun hkernel => absurd (hkernel.symm.trans huser) Bool.false_ne_true, fun _ => by simp only; omega⟩
    · rw [hsize, top_of_user huser]
      simp only
      omega
    · rw [top_of_user huser]
      simp only
      omega

/-- An operation of a handler. -/
theorem Frames.op (h : Frames boot me frame s v) {o : KernelOp} (hok : o.Ok boot me frame s) :
    Frames boot me frame (o.run me frame s) (v.op me o) := by
  cases o with
  | store a x =>
    refine h.setMem _ fun p hp b hb hb' => Function.update_of_ne (fun heq => ?_) ..
    have hlow := (h.saved p hp).low
    obtain ⟨rfl, hlt⟩ := hok p hp (by omega) (by omega)
    rw [frameOf_self] at hb
    omega
  | schedule p => exact { h with cur := rfl, live := hok.1 }
  | scRegs =>
    refine h.setProcs _ (fun p => ?_) ?_
    · rw [Function.update_apply]
      split <;> simp_all
    · rw [Function.update_apply]
      split
      · rename_i hcur
        rw [← hcur]
        exact h.live
      · exact h.live
  | result x =>
    have hres := h.setEax x (.inr rfl)
    rwa [frameOf_self] at hres
  | lateResult p x =>
    obtain ⟨hlive, hne, hregs⟩ := hok
    have hres := h.setEax x (.inl hlive)
    rwa [frameOf_ne hne, ← hregs] at hres
  | create p page as entry mode => exact h.create hok
  | fork child page as => exact h.fork hok
  | destroy p =>
    refine h.setProcs _ (fun q => ?_) ?_
    · rw [Function.update_apply]
      split <;> simp_all
    · rw [Function.update_of_ne hok.2.symm]
      exact h.live

/-! ### Interrupts within a handler -/

/-- `pm_restore` changes one member of the current process. -/
theorem procs_pmRestore (esp : Nat) (p : ProcRef) :
    (s.pmRestore esp).procs p = { s.procs p with esp := if p = s.cur then esp else (s.procs p).esp } := by
  by_cases hp : p = s.cur
  · subst hp
    rw [if_pos rfl]
    exact Function.update_self ..
  · rw [if_neg hp]
    exact Function.update_of_ne hp ..

theorem pmPick_same (h : s.last = some s.cur) (esp : Nat) : s.pmPick esp = (esp, { s with space := (s.procs s.cur).as }) :=
  if_neg (not_not.mpr h.symm)

theorem pmPick_other (h : s.last ≠ some s.cur) (esp : Nat) :
    s.pmPick esp =
      ((s.procs s.cur).esp, { s with space := (s.procs s.cur).as, esp0 := (s.procs s.cur).kstack, last := some s.cur }) :=
  if_pos h.symm

/-- What an interrupt within a handler leaves as it is. -/
structure Unmoved (boot : Nat × Nat) (me : ProcRef) (low : Nat) (s s' : Switch) : Prop where
  cur : s'.cur = s.cur
  last : s'.last = s.last
  esp0 : s'.esp0 = s.esp0
  proc : s'.procs me = s.procs me
  mem : ∀ a, low ≤ a → (s.region boot me).1 ≤ a → a < (s.region boot me).2 → s'.mem a = s.mem a

variable {low : Nat} {o : KernelOp}

theorem Ok_mono (hstays : o.Stays) (hlow : low ≤ frame) (hok : o.Ok boot me low s) : o.Ok boot me frame s := by
  cases o with
  | store a x =>
    intro p hp ha ha'
    obtain ⟨hme, hlt⟩ := hok p hp ha ha'
    exact ⟨hme, by omega⟩
  | _ => first | exact hok | cases hstays

theorem run_stays (hstays : o.Stays) (low : Nat) : o.run me low s = o.run me frame s := by
  cases o <;> first | rfl | cases hstays

theorem unmoved_op (h : Frames boot me frame s v) (hcur : s.cur = me) (hstays : o.Stays) (hok : o.Ok boot me low s) :
    Unmoved boot me low s (o.run me low s) := by
  cases o with
  | store a x =>
    refine ⟨rfl, rfl, rfl, rfl, fun b hlow hb hb' => Function.update_of_ne (fun heq => ?_) ..⟩
    have := (hok me (.inr rfl) (heq ▸ hb) (heq ▸ hb')).2
    omega
  | lateResult p x =>
    obtain ⟨hlive, hne, hregs⟩ := hok
    refine ⟨rfl, rfl, rfl, rfl, fun b hlow hb hb' => Function.update_of_ne ?_ ..⟩
    obtain ⟨hesp, hend, -⟩ := h.saved p (.inl hlive)
    have := (frameSize_le (v.cpus p).regs).1
    rw [frameOf_ne hne, ← hregs] at hesp hend
    unfold eaxOf
    obtain hlt | hlt := h.apart p me (.inl hlive) (.inr rfl) hne <;> omega
  | create p page as entry mode =>
    obtain ⟨hne, hboot, hpage⟩ := hok
    refine ⟨rfl, rfl, rfl, Function.update_of_ne hne.symm .., fun b hlow hb hb' => (prepareStack_framed ..).other b ?_⟩
    have := frameSize_le (Cpus.newRegs page entry mode)
    obtain hlt | hlt := hpage me (.inr rfl) <;> simp only at hlt <;> omega
  | destroy p => exact ⟨rfl, rfl, rfl, Function.update_of_ne (hcur ▸ hok.2.symm) .., fun _ _ _ _ => rfl⟩
  | _ => cases hstays

/-- The operations of an interrupt within a handler. -/
theorem Frames.ops (h : Frames boot me frame s v) (hcur : s.cur = me) (hlow : low ≤ frame) {ops : List KernelOp}
    (hok : OpsOk boot me low s ops) :
    Frames boot me frame (ops.foldl (KernelOp.run me low) s) (ops.foldl (Cpus.op me) v) ∧
      Unmoved boot me low s (ops.foldl (KernelOp.run me low) s) := by
  induction ops generalizing s v with
  | nil => exact ⟨h, rfl, rfl, rfl, rfl, fun _ _ _ _ => rfl⟩
  | cons o os ih =>
    obtain ⟨hop, hstays, hrest⟩ := hok
    have hmoved := unmoved_op h hcur hstays hop
    have hnext := h.op (Ok_mono hstays hlow hop)
    rw [← run_stays hstays low] at hnext
    obtain ⟨hlast, hmoved'⟩ := ih hnext (hmoved.cur.trans hcur) hrest
    have hregion : (o.run me low s).region boot me = s.region boot me := region_congr (by rw [hmoved.proc])
    refine ⟨hlast, hmoved'.cur.trans hmoved.cur, hmoved'.last.trans hmoved.last, hmoved'.esp0.trans hmoved.esp0,
      hmoved'.proc.trans hmoved.proc, fun a ha hlo hhi => ?_⟩
    exact (hmoved'.mem a ha (by rwa [hregion]) (by rwa [hregion])).trans (hmoved.mem a ha hlo hhi)

/-- The state in which the operations of an interrupt within a handler start. -/
def nestedStart (s : Switch) (k : Regs) (intr errc : Nat) : Switch :=
  { s with mem := (enter k s.esp0 intr errc s.mem).1 }.pmRestore (k.esp - 68)

section Nested

variable {k : Regs} {intr errc : Nat} {ops : List KernelOp}

/-- The registers of the handler are in a frame. -/
theorem framed_nestedStart (s : Switch) (intr errc : Nat) (hmode : isUser k.cs = false) (hss : k.ss = gdtSelData) (hroom : 68 ≤ k.esp) :
    leave (nestedStart s k intr errc).mem (k.esp - 68) = k ∧
      ∀ a, a < k.esp - 68 ∨ k.esp ≤ a → (nestedStart s k intr errc).mem a = s.mem a := by
  have hframed := enter_framed s.esp0 intr errc s.mem
    (by rwa [top_of_kernel hmode, frameSize_of_kernel hmode]) fun _ => hss
  rw [top_of_kernel hmode] at hframed
  obtain ⟨hleave, hother⟩ := hframed
  rw [frameSize_of_kernel hmode] at hleave hother
  exact ⟨hleave, hother⟩

theorem run_irq (hcur : s.cur = me) (hmode : isUser k.cs = false) :
    (KernelStep.irq k intr errc ops).run me frame s =
      let pick := (ops.foldl (KernelOp.run me (k.esp - 68)) (nestedStart s k intr errc)).pmPick (k.esp - 68)
      if leave pick.2.mem pick.1 = k then some pick.2 else none := by
  have hesp : (enter k s.esp0 intr errc s.mem).2 = k.esp - 68 := by rw [enter_esp, top_of_kernel hmode, frameSize_of_kernel hmode]
  subst hcur
  simp only [KernelStep.run, hesp]
  rfl

/-- The frame of the interrupt is below that of the handler. -/
theorem Frames.nested (h : Frames boot me frame s v) (hok : (KernelStep.irq k intr errc ops).Ok boot me frame s) :
    Frames boot me frame (nestedStart s k intr errc) v := by
  obtain ⟨hcur, hmode, hss, hroom, hframe, -⟩ := hok
  obtain ⟨hlow, hhigh, -⟩ := h.saved me (.inr rfl)
  rw [frameOf_self] at hlow hhigh
  have hother := (framed_nestedStart s intr errc hmode hss (by omega)).2
  have hmem := h.setMem (nestedStart s k intr errc).mem fun p hp a ha ha' => by
    refine hother a ?_
    by_cases hpme : p = me
    · rw [hpme, frameOf_self] at ha
      omega
    · have := (h.saved p hp).low
      obtain hlt | hlt := h.apart p me hp (.inr rfl) hpme <;> omega
  refine (hmem.setProcs (nestedStart s k intr errc).procs (fun p => ?_) ?_).setRest s.esp0 0 s.last
  · rw [nestedStart, procs_pmRestore]
    exact ⟨rfl, rfl, id, fun hne => if_neg fun heq => hne (heq.trans hcur)⟩
  · rw [nestedStart, procs_pmRestore]
    exact h.live

/-! ### Whole handlers -/

/-- An interrupt within a handler gives it its registers back. -/
theorem InKernel.irq (h : InKernel boot me frame s v) (hok : (KernelStep.irq k intr errc ops).Ok boot me frame s) :
    ∃ s', (KernelStep.irq k intr errc ops).run me frame s = some s' ∧ InKernel boot me frame s' (v.kernelStep me (.irq k intr errc ops)) := by
  have hstart := h.toFrames.nested hok
  obtain ⟨hcur, hmode, hss, hroom, hframe, hops⟩ := hok
  have hend := (h.saved me (.inr rfl)).high
  rw [frameOf_self] at hend
  obtain ⟨hframes, hmoved⟩ := hstart.ops hcur (by omega) hops
  have hleave := (framed_nestedStart s intr errc hmode hss (by omega)).1
  have hproc : (nestedStart s k intr errc).procs me = { s.procs me with esp := k.esp - 68 } := by
    rw [nestedStart, procs_pmRestore, if_pos hcur.symm]
  have hregion : (nestedStart s k intr errc).region boot me = s.region boot me := region_congr (by rw [hproc])
  have hsaved : Saved (nestedStart s k intr errc).mem (s.region boot me) (k.esp - 68) k :=
    ⟨by omega, by rw [frameSize_of_kernel hmode]; omega, hleave⟩
  have hleave' := (hsaved.congr fun a ha ha' => hmoved.mem a ha (by rw [hregion]; omega) (by rwa [hregion])).regs
  rw [run_irq hcur hmode, show v.kernelStep me (.irq k intr errc ops) = ops.foldl (Cpus.op me) v by rw [Cpus.kernelStep, ← h.cur, hcur]]
  have hkeep : (nestedStart s k intr errc).cur = me ∧ (nestedStart s k intr errc).last = s.last ∧
      (nestedStart s k intr errc).esp0 = s.esp0 := ⟨hcur, rfl, rfl⟩
  generalize nestedStart s k intr errc = s₁ at *
  generalize ops.foldl (KernelOp.run me (k.esp - 68)) s₁ = s₂ at *
  have hcur₂ : s₂.cur = me := hmoved.cur.trans hkeep.1
  have hproc₂ := hmoved.proc.trans hproc
  have hlast₂ : s₂.last = s.last := hmoved.last.trans hkeep.2.1
  obtain ⟨hnone, -⟩ | ⟨hsome, hesp0⟩ := h.last
  · have hpick := pmPick_other (s := s₂) (by simp [hlast₂, hnone]) (k.esp - 68)
    rw [show (s₂.procs s₂.cur).esp = k.esp - 68 by rw [hcur₂, hproc₂]] at hpick
    rw [hpick]
    exact ⟨_, if_pos hleave', hframes.setRest .., .inr hcur₂, .inr ⟨congrArg some hcur₂, by rw [hcur₂]⟩⟩
  · rw [pmPick_same (s := s₂) (by rw [hlast₂, hsome, hcur₂])]
    refine ⟨_, if_pos hleave', hframes.setRest .., .inr hcur₂, .inr ⟨hlast₂.trans hsome, ?_⟩⟩
    exact ((hmoved.esp0.trans hkeep.2.2).trans hesp0).trans (congrArg ProcStack.kstack hproc₂).symm

end Nested

/-- What no operation changes. -/
theorem run_keeps (hok : o.Ok boot me frame s) :
    ((o.run me frame s).procs me).esp = (s.procs me).esp ∧ ((o.run me frame s).procs me).kstack = (s.procs me).kstack ∧
      (o.run me frame s).last = s.last ∧ (o.run me frame s).esp0 = s.esp0 ∧
      ((o.run me frame s).cur = s.cur ∨ (s.procs me).esp = frame) := by
  cases o with
  | schedule p => exact ⟨rfl, rfl, rfl, rfl, .inr hok.2⟩
  | scRegs => simp [KernelOp.run, Switch.setProc]
  | create p page as entry mode => simp [KernelOp.run, Switch.create, Switch.setProc, Function.update_of_ne hok.1.symm]
  | fork child page as => simp [KernelOp.run, Switch.fork, Switch.setProc, Function.update_of_ne hok.1.symm]
  | destroy p =>
    by_cases hp : me = p
    · simp [KernelOp.run, Switch.setProc, hp]
    · simp [KernelOp.run, Switch.setProc, Function.update_of_ne hp]
  | _ => exact ⟨rfl, rfl, rfl, rfl, .inl rfl⟩

theorem InKernel.op (h : InKernel boot me frame s v) (hok : o.Ok boot me frame s) :
    InKernel boot me frame (o.run me frame s) (v.op me o) := by
  obtain ⟨hesp, hkstack, hlast, hesp0, hcur⟩ := run_keeps hok
  refine ⟨h.toFrames.op hok, ?_, ?_⟩
  · rw [hesp]
    obtain hcur | hframe := hcur
    · rw [hcur]
      exact h.back
    · exact .inl hframe
  · rw [hesp, hkstack, hlast, hesp0]
    exact h.last

/-- The steps of a handler. -/
theorem InKernel.steps (h : InKernel boot me frame s v) {sts : List KernelStep} (hok : StepsOk boot me frame s sts) :
    ∃ s', runSteps me frame s sts = some s' ∧ InKernel boot me frame s' (sts.foldl (Cpus.kernelStep me) v) := by
  induction sts generalizing s v with
  | nil => exact ⟨s, rfl, h⟩
  | cons st sts ih =>
    obtain ⟨hst, hrest⟩ := hok
    obtain ⟨s₁, hrun, h₁⟩ : ∃ s₁, st.run me frame s = some s₁ ∧ InKernel boot me frame s₁ (v.kernelStep me st) := by
      cases st with
      | op o => exact ⟨_, rfl, h.op hst⟩
      | irq k intr errc ops => exact h.irq hst
    obtain ⟨s', hruns, h'⟩ := ih h₁ (hrest s₁ hrun)
    exact ⟨s', by rw [runSteps, hrun, Option.bind_some, hruns], h'⟩

/-! ### Steps of the machine -/

/-- The interrupt stops the process that runs. -/
theorem Sim.enter (h : Sim boot s v) (intr errc : Nat) :
    InKernel boot s.cur (Kos.enter s.regs s.esp0 intr errc s.mem).2
      ({ s with mem := (Kos.enter s.regs s.esp0 intr errc s.mem).1 }.pmRestore (Kos.enter s.regs s.esp0 intr errc s.mem).2) v := by
  obtain ⟨hlow, hhigh, hss, -⟩ := h.room s.cur h.live
  rw [← h.regs] at hlow hhigh hss
  -- a process in user mode has been left to before, so the TSS has its stack
  have hesp0 : isUser s.regs.cs = true → s.esp0 = (s.procs s.cur).kstack := by
    intro huser
    obtain ⟨-, hkernel⟩ | ⟨-, hesp0, -⟩ := h.last
    · exact absurd (hkernel.symm.trans huser) Bool.false_ne_true
    · exact hesp0
  have htop : s.regs.top s.esp0 = s.regs.top (s.procs s.cur).kstack := by
    cases hmode : isUser s.regs.cs with
    | false => rw [top_of_kernel hmode, top_of_kernel hmode]
    | true => rw [hesp0 hmode]
  rw [← htop] at hlow hhigh
  obtain ⟨hleave, hother⟩ := enter_framed s.esp0 intr errc s.mem (by omega) hss
  rw [enter_esp]
  generalize (Kos.enter s.regs s.esp0 intr errc s.mem).1 = mem at hother hleave
  generalize hframe : s.regs.top s.esp0 - s.regs.frameSize = frame at hother hleave
  have hproc : ∀ p, ({ s with mem := mem }.pmRestore frame).procs p =
      { s.procs p with esp := if p = s.cur then frame else (s.procs p).esp } := fun p => procs_pmRestore ..
  have hregion : ∀ p, ({ s with mem := mem }.pmRestore frame).region boot p = s.region boot p := fun p => region_congr (by rw [hproc])
  have hor : ∀ p, (({ s with mem := mem }.pmRestore frame).procs p).live = true ∨ p = s.cur → (s.procs p).live = true := by
    rintro p (hp | hp)
    · rwa [hproc] at hp
    · rw [hp]
      exact h.live
  refine ⟨⟨h.cur, ?_, fun p hp => ?_, fun p hp => ?_, fun p q hp hq hne => ?_, ?_, fun huser => ?_⟩, .inr rfl, ?_⟩
  · rw [hproc]
    exact h.live
  · rw [hregion, Switch.frameOf, hproc]
    by_cases hcur : p = s.cur
    · rw [if_pos hcur, hcur, ← h.regs]
      exact ⟨by omega, by omega, hleave⟩
    · rw [if_neg hcur, if_neg hcur]
      refine (h.saved p (hor p hp) hcur).congr fun a ha ha' => hother a ?_
      have := (h.saved p (hor p hp) hcur).low
      obtain hlt | hlt := h.apart p s.cur (hor p hp) h.live hcur <;> omega
  · rw [hregion, hproc]
    exact h.room p (hor p hp)
  · rw [hregion, hregion]
    exact h.apart p q (hor p hp) (hor q hq) hne
  · rw [← h.regs]
    rfl
  · change isUser s.regs.cs = true at huser
    rw [hproc, ← hframe, top_of_user huser, frameSize_of_user huser, hesp0 huser]
    rw [top_of_user huser, frameSize_of_user huser, hesp0 huser] at hlow
    simp only
    omega
  · rw [hproc, if_pos rfl]
    exact h.last.imp (fun hnone => ⟨hnone.1, rfl⟩) fun hsome => ⟨hsome.1, hsome.2.1⟩

/-- The handler leaves with the frame of the current process. -/
theorem InKernel.leave (h : InKernel boot me frame s v) :
    Sim boot { (s.pmPick frame).2 with regs := Kos.leave (s.pmPick frame).2.mem (s.pmPick frame).1 } v := by
  have hown := (h.saved me (.inr rfl)).regs
  rw [frameOf_self] at hown
  obtain ⟨esp, hpick, hregs⟩ : ∃ esp,
      s.pmPick frame = (esp, { s with space := (s.procs s.cur).as, esp0 := (s.procs s.cur).kstack, last := some s.cur }) ∧
        Kos.leave s.mem esp = (v.cpus s.cur).regs := by
    by_cases hlast : s.last = some s.cur
    · obtain ⟨hnone, -⟩ | ⟨hsome, hesp0⟩ := h.last
      · rw [hnone] at hlast
        cases hlast
      · have hcur : s.cur = me := Option.some.inj (hlast.symm.trans hsome)
        exact ⟨frame, by rw [pmPick_same hlast, ← hlast, hcur, ← hesp0], by rw [hcur, hown]⟩
    · refine ⟨_, pmPick_other hlast frame, ?_⟩
      by_cases hcur : s.cur = me
      · obtain ⟨-, hesp⟩ | ⟨hsome, -⟩ := h.last
        · rw [hcur, hesp, hown]
        · exact absurd (hsome.trans (congrArg some hcur.symm)) hlast
      · rw [← frameOf_ne hcur frame]
        exact (h.saved _ (.inl h.live)).regs
  rw [hpick]
  refine ⟨h.cur, h.live, hregs, fun p hp hne => ?_, fun p hp => h.room p (.inl hp), fun p q hp hq hne => h.apart p q (.inl hp) (.inl hq) hne,
    .inr ⟨rfl, rfl, rfl⟩⟩
  have hsaved := h.saved p (.inl hp)
  by_cases hme : p = me
  · subst hme
    rw [frameOf_self, ← h.back.resolve_right fun hcur => hne hcur.symm] at hsaved
    exact hsaved
  · rwa [frameOf_ne hme] at hsaved

theorem Sim.run (h : Sim boot s v) {r : Regs} (hok : (SwitchStep.run r).Ok boot s) :
    Sim boot { s with regs := r } (v.set v.cur { v.cpus v.cur with regs := r }) := by
  obtain ⟨hmode, hkernel⟩ := hok
  rw [← h.cur]
  refine ⟨h.cur, h.live, by rw [cpus_set, if_pos rfl], fun p hp hne => ?_, fun p hp => ?_, h.apart,
    h.last.imp_left fun hnone => ⟨hnone.1, hmode.trans hnone.2⟩⟩
  · rw [cpus_set, if_neg hne]
    exact h.saved p hp hne
  · rw [cpus_set]
    split
    · rename_i hcur
      subst hcur
      obtain ⟨hlow, hhigh, -, hforks⟩ := h.room s.cur h.live
      rw [← h.regs] at hlow hhigh hforks
      cases huser : isUser s.regs.cs with
      | true =>
        have huser' := hmode.trans huser
        rw [top_of_user huser] at hlow hhigh
        rw [frameSize_of_user huser] at hlow
        exact ⟨by rwa [top_of_user huser', frameSize_of_user huser'], by rwa [top_of_user huser'],
          fun hk => absurd (hk.symm.trans huser') Bool.false_ne_true, fun _ => hforks huser⟩
      | false =>
        have hk := hmode.trans huser
        obtain ⟨hss, hlow', hhigh'⟩ := hkernel hk
        exact ⟨by rwa [top_of_kernel hk, frameSize_of_kernel hk], by rwa [top_of_kernel hk], fun _ => hss,
          fun hu => absurd (hk.symm.trans hu) Bool.false_ne_true⟩
    · exact h.room p hp

theorem Sim.step (h : Sim boot s v) {a : SwitchStep} (hok : a.Ok boot s) : ∃ s', switchStep s a = some s' ∧ Sim boot s' (v.step a) := by
  cases a with
  | run r => exact ⟨_, if_pos hok.1, h.run hok⟩
  | interrupt intr errc steps =>
    obtain ⟨s', hrun, h'⟩ := (h.enter intr errc).steps hok
    have hstep : v.step (.interrupt intr errc steps) = steps.foldl (Cpus.kernelStep s.cur) v := by rw [Cpus.step, h.cur]
    rw [hstep]
    exact ⟨_, congrArg (Option.map _) hrun, h'.leave⟩

theorem Sim.steps (h : Sim boot s v) {as : List SwitchStep} (hok : SwitchRunOk boot s as) :
    ∃ s', runSwitch s as = some s' ∧ Sim boot s' (as.foldl Cpus.step v) := by
  induction as generalizing s v with
  | nil => exact ⟨s, rfl, h⟩
  | cons a as ih =>
    obtain ⟨hstep, hrest⟩ := hok
    obtain ⟨s₁, hs₁, h₁⟩ := h.step hstep
    obtain ⟨s', hs', h'⟩ := ih h₁ (hrest s₁ hs₁)
    exact ⟨s', by rw [runSwitch, hs₁, Option.bind_some, hs'], h'⟩

theorem Sim.start (h : s.Booted boot) : Sim boot s ⟨fun _ => ⟨s.regs, 0⟩, s.cur⟩ := by
  have honly : ∀ p, (s.procs p).live = true → p = s.cur := fun p hp => ((h.only p).mp hp).trans h.cur.symm
  have hregion : s.region boot s.cur = boot := if_pos h.cur
  refine ⟨rfl, (h.only _).mpr h.cur, rfl, fun p hp hne => absurd (honly p hp) hne, fun p hp => ?_,
    fun p q hp hq hne => absurd ((honly p hp).trans (honly q hq).symm) hne, .inl ⟨h.last, h.kernel⟩⟩
  have htop := top_of_kernel h.kernel (s.procs s.cur).kstack
  rw [honly p hp, hregion]
  exact ⟨by rw [htop, frameSize_of_kernel h.kernel]; exact h.low, by rw [htop]; exact h.high, fun _ => h.ss,
    fun huser => absurd (h.kernel.symm.trans huser) Bool.false_ne_true⟩

end SwitchAux

end Kos
