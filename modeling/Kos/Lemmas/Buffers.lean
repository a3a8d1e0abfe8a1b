import Kos.Syscall
import Kos.Theorems.FindRange
import Kos.Theorems.Messages
import Kos.Theorems.UserBuffer

/-!
# The pages of buffers

Each page of the kernel's page directory is free, or it is mapped for something else, or it is a page of a buffer of one process; the
pages of the buffers that are held, and the balance, are told by one function from processes to buffers (`Kept`). Mapping a buffer and
releasing it change this function at one process.
-/

namespace Kos

namespace BuffersAux

open PageMapAux FindRangeAux

/-! ## Pages that are mapped and unmapped -/

theorem isNone_clean (m : Option (Nat × Entry)) : (clean m).isNone = m.isNone := Option.isNone_map

theorem pageFree_eq (vm : Vm) (pdir page : Nat) : pageFree vm pdir page = (pageMap vm pdir page).isNone := by
  rw [pageFree, pageMap, Option.isNone_map]

theorem isNone_given (paddr : Nat) (flags : Entry) : (given paddr flags).isNone = !present flags := by
  unfold given
  cases present flags <;> rfl

theorem doMap_kernelPdir {vm vm' : Vm} {pdir paddr v : Nat} {flags : Entry} {force : Bool}
    (h : doMap vm pdir paddr v flags force = some vm') : vm'.kernelPdir = vm.kernelPdir := by
  obtain ⟨-, -, ptab, vm₁, htable, hcases⟩ := doMap_cases h
  have htab : vm₁.kernelPdir = vm.kernelPdir := by
    rcases tableFor_cases htable with ⟨-, -, rfl⟩ | ⟨-, -, -, -, -, hk, -⟩
    · rfl
    · exact hk
  rcases hcases with ⟨-, -, -, -, rfl⟩ | ⟨-, -, hk, -⟩
  · exact htab
  · exact hk.trans htab

/-- What mapping a page, or unmapping it, does to the free pages. -/
theorem vmMapPage_free {vm vm' : Vm} {pdir paddr v : Nat} {flags : Entry} (hok : PdirOk vm pdir) (hv : v < 4294967296)
    (hp : paddr < 4294967296) (hf : flags.toNat < 4096) (h : vmMapPage vm pdir paddr v flags = some vm') :
    PdirOk vm' pdir ∧ vm'.kernelPdir = vm.kernelPdir ∧
      ∀ page < 1048576, pageFree vm' pdir page = if page = v / 4096 then !present flags else pageFree vm pdir page := by
  obtain ⟨hok', -, hself, hother⟩ := doMap_pageMap hok hv hp hf h
  refine ⟨hok', doMap_kernelPdir h, fun page hpage => ?_⟩
  by_cases he : page = v / 4096
  · rw [if_pos he, he, pageFree_eq, ← isNone_clean, hself, isNone_clean, isNone_given]
  · rw [if_neg he, pageFree_eq, hother page hpage he, pageFree_eq]

/-- The same for a range of pages. -/
theorem mapPages_free {vm vm' : Vm} {pdir pstart b num : Nat} {flags : Entry} (hok : PdirOk vm pdir) (hf : flags.toNat < 4096)
    (hb : b + num ≤ 1048576) (h : mapPages vm pdir pstart (4096 * b) flags num = some vm') :
    PdirOk vm' pdir ∧ vm'.kernelPdir = vm.kernelPdir ∧
      ∀ page < 1048576, pageFree vm' pdir page = if b ≤ page ∧ page < b + num then !present flags else pageFree vm pdir page := by
  induction num generalizing vm' with
  | zero =>
    cases h
    exact ⟨hok, rfl, fun page _ => (if_neg (by omega)).symm⟩
  | succ n ih =>
    simp only [mapPages, List.range_succ, List.foldlM_append, List.foldlM_cons, List.foldlM_nil] at h
    obtain ⟨vm₁, h₁, h⟩ := Option.bind_eq_some_iff.mp h
    obtain ⟨vm₂, h₂, h⟩ := Option.bind_eq_some_iff.mp h
    cases h
    obtain ⟨hok₁, hk₁, hfree₁⟩ := ih (by omega) h₁
    have hpage : pageOf (4096 * b) n = 4096 * (b + n) := by
      rw [pageOf, pageSize, w32_of_lt (by omega)]
      omega
    rw [hpage] at h₂
    obtain ⟨hok₂, hk₂, hfree₂⟩ := vmMapPage_free hok₁ (by omega) (w32_lt _) hf h₂
    refine ⟨hok₂, hk₂.trans hk₁, fun page hp => ?_⟩
    rw [hfree₂ page hp, hfree₁ page hp, Nat.mul_div_cancel_left _ (by decide)]
    by_cases he : page = b + n
    · rw [if_pos he, if_pos (by omega)]
    · rw [if_neg he]
      exact if_congr (by omega) rfl rfl

/-- The pages of a buffer, by its address and size. -/
def InBuffer (b : Nat × Nat) (page : Nat) : Prop := b.1 / 4096 ≤ page ∧ page < b.1 / 4096 + numPages (alignSize b.1 b.2)

instance (b : Nat × Nat) (page : Nat) : Decidable (InBuffer b page) := inferInstanceAs (Decidable (_ ∧ _))

theorem vmFindRange_lt (vm : Vm) (pdir num : Nat) : vmFindRange vm pdir num < 4294967296 := by
  unfold vmFindRange
  generalize List.range 1024 = l
  generalize (⟨0, 0, 0⟩ : RangeScan) = r
  induction l generalizing r with
  | nil => exact Nat.zero_lt_succ _
  | cons d rest ih =>
    rw [findRangeFrom_cons]
    split
    · exact w32_lt _
    · exact ih _

/-- The pages that the search finds. Finding none of them is never misled. -/
theorem found_run {vm : Vm} {pdir num vstart : Nat} (hfind : vstart = vmFindRange vm pdir num) (hne : vstart ≠ 0)
    (hr : ¬RunRestarts vm pdir num) : vstart / 4096 + num ≤ 1048576 ∧ FreeRun (pageFree vm pdir) (vstart / 4096) num := by
  have hlt := vmFindRange_lt vm pdir num
  rcases Nat.eq_zero_or_pos num with rfl | hpos
  · exact ⟨by omega, fun i hi => by omega⟩
  · rw [hfind] at hne
    obtain ⟨b, hb, heq⟩ := vmFindRange_eq hpos hne hr
    rw [hfind, heq, Nat.mul_div_cancel_left _ (by decide)]
    exact ⟨hb.le, hb.run⟩

/-- A buffer is mapped at pages that are free, unless the search for them is misled. -/
theorem vmUserToKernel_free {vm vm' : Vm} {pdir v size k : Nat} (hok : PdirOk vm vm.kernelPdir)
    (hr : ¬RunRestarts vm vm.kernelPdir (numPages (alignSize (vmResolveVirt vm pdir v) size)))
    (h : vmUserToKernel vm pdir v size = some (k, vm')) :
    PdirOk vm' vm'.kernelPdir ∧ k ≠ 0 ∧ k / 4096 + numPages (alignSize k size) ≤ 1048576 ∧
      ∀ page < 1048576, (InBuffer (k, size) page → pageFree vm vm.kernelPdir page = true) ∧
        pageFree vm' vm'.kernelPdir page = if InBuffer (k, size) page then false else pageFree vm vm.kernelPdir page := by
  rw [vmUserToKernel] at h
  obtain ⟨vstart, hfind, hne, ha, rfl, hmap⟩ := UserBufferAux.vmAllocAddr_some h
  generalize vmResolveVirt vm pdir v = pstart at hr hfind hmap ⊢
  have hlt : vstart < 4294967296 := by
    rw [hfind]
    exact vmFindRange_lt _ _ _
  have hk : w32 (vstart + pstart % 4096) = vstart + pstart % 4096 := w32_of_lt (by omega)
  have hdiv : (vstart + pstart % 4096) / 4096 = vstart / 4096 := by omega
  have hsize : alignSize (vstart + pstart % 4096) size = alignSize pstart size := by
    rw [alignSize, alignSize, pageOffset, pageOffset, pageSize, show (vstart + pstart % 4096) % 4096 = pstart % 4096 by omega]
  have hrun := found_run hfind hne hr
  rw [hk, hdiv, hsize]
  rw [show vstart = 4096 * (vstart / 4096) by omega] at hmap
  obtain ⟨hok', hkern, hfree⟩ := mapPages_free hok (by decide) hrun.1 hmap
  rw [hkern]
  refine ⟨hok', by omega, hrun.1, fun page hpage => ?_⟩
  simp only [InBuffer, hdiv, hsize]
  refine ⟨fun hin => ?_, hfree page hpage⟩
  have := hrun.2 (page - vstart / 4096) (by omega)
  rwa [Nat.add_sub_cancel' hin.1] at this

/-- A buffer is released. -/
theorem vmFreeAddr_free {vm vm' : Vm} {k size : Nat} (hok : PdirOk vm vm.kernelPdir)
    (hfits : k / 4096 + numPages (alignSize k size) ≤ 1048576) (h : vmFreeAddr vm vm.kernelPdir k size = some vm') :
    PdirOk vm' vm'.kernelPdir ∧
      ∀ page < 1048576, pageFree vm' vm'.kernelPdir page = if InBuffer (k, size) page then true else pageFree vm vm.kernelPdir page := by
  have halign : alignAddr k = 4096 * (k / 4096) := by
    simp only [alignAddr, pageOffset, pageSize]
    omega
  rw [vmFreeAddr, vmUnmapRange, vmMapRange, halign] at h
  split at h
  · cases h
  · split at h
    · cases h
    · obtain ⟨hok', hk, hfree⟩ := mapPages_free hok (by decide) hfits h
      rw [hk]
      exact ⟨hok', hfree⟩

/-! ## What the buffers are -/

/-- What a page of the kernel's page directory is used for. -/
inductive PageUse where
  | free
  | other
  | buffer (p : ProcRef)

/-- The use of a page, for the buffers that processes hold. -/
structure PageIs (s : Sys) (held : ProcRef → Option (Nat × Nat)) (page : Nat) (use : PageUse) : Prop where
  free : pageFree s.vm s.vm.kernelPdir page = true ↔ use = .free
  other : s.others page = true ↔ use = .other
  buffer : ∀ p, use = .buffer p ↔ ∃ b, held p = some b ∧ InBuffer b page

/-- The buffers that are mapped are those that the processes hold, one at most for each. -/
structure Kept (s : Sys) (held : ProcRef → Option (Nat × Nat)) : Prop where
  dir : PdirOk s.vm s.vm.kernelPdir
  fits : ∀ p b, held p = some b → b.1 / 4096 + numPages (alignSize b.1 b.2) ≤ 1048576
  pages : ∀ page < 1048576, ∃ use, PageIs s held page use
  balance : ∀ p b, s.balance p b = if held p = some b then 1 else 0

variable {s s' : Sys} {held : ProcRef → Option (Nat × Nat)} {p : ProcRef}

/-- Only the page tables, the other pages and the balance matter. -/
theorem Kept.congr (h : Kept s held) (hvm : s'.vm = s.vm) (hother : s'.others = s.others) (hbal : s'.balance = s.balance) :
    Kept s' held := by
  refine ⟨by rw [hvm]; exact h.dir, h.fits, fun page hpage => ?_, by rw [hbal]; exact h.balance⟩
  obtain ⟨use, hfree, hoth, hbuf⟩ := h.pages page hpage
  exact ⟨use, by rw [hvm]; exact hfree, by rw [hother]; exact hoth, hbuf⟩

theorem Kept.setPm (h : Kept s held) (pm : Pm) : Kept { s with pm := pm } held := h.congr rfl rfl rfl

theorem balance_record (s : Sys) (p q : ProcRef) (b b' : Nat × Nat) (n : Int) :
    (s.record p b n).balance q b' = s.balance q b' + if q = p ∧ b' = b then n else 0 := by
  unfold Sys.record
  by_cases hq : q = p
  · subst hq
    by_cases hb : b' = b
    · subst hb
      simp
    · simp [hb]
  · simp [hq]

/-- A call changes only the page tables and the balance. -/
def SameRest (s s' : Sys) : Prop := s' = { s with vm := s'.vm, balance := s'.balance }

theorem SameRest.pm (h : SameRest s s') : s'.pm = s.pm := by rw [h]

theorem SameRest.ttys (h : SameRest s s') : s'.ttys = s.ttys := by rw [h]

/-- The buffer `b` of the process `p` begins or ceases to be mapped: its pages were free before, or are so afterwards, and the balance
goes up or down. -/
theorem Kept.setHeld {vm : Vm} {b : Nat × Nat} (now : Bool) (h : Kept s held) (hp : held p = if now then none else some b)
    (hdir : PdirOk vm vm.kernelPdir) (hfits : b.1 / 4096 + numPages (alignSize b.1 b.2) ≤ 1048576)
    (hwas : ∀ page < 1048576, InBuffer b page → pageFree s.vm s.vm.kernelPdir page = now)
    (hfree : ∀ page < 1048576,
      pageFree vm vm.kernelPdir page = if InBuffer b page then !now else pageFree s.vm s.vm.kernelPdir page) :
    Kept ({ s with vm := vm }.record p b (if now then 1 else -1)) (Function.update held p (if now then some b else none)) := by
  refine ⟨hdir, fun q b' hb => ?_, fun page hpage => ?_, fun q b' => ?_⟩
  · by_cases hq : q = p
    · subst hq
      rw [Function.update_self] at hb
      cases now with
      | false => cases hb
      | true =>
        cases hb
        exact hfits
    · rw [Function.update_of_ne hq] at hb
      exact h.fits q b' hb
  · obtain ⟨use, hf, ho, hb⟩ := h.pages page hpage
    have hnow := hfree page hpage
    by_cases hin : InBuffer b page
    · -- the page belongs to the process before or after, and to nobody else
      have huse : use = if now then .free else .buffer p := by
        cases now with
        | false => exact (hb p).mpr ⟨b, hp, hin⟩
        | true => exact hf.mp (hwas page hpage hin)
      subst huse
      refine ⟨if now then .buffer p else .free, ?_, ?_, fun q => ?_⟩
      · simp only [Sys.record, hnow, if_pos hin]
        cases now <;> simp
      · cases now <;> simpa [Sys.record] using ho
      · by_cases hq : q = p
        · subst hq
          cases now <;> simp [hin]
        · have hnot := hb q
          rw [Function.update_of_ne hq]
          cases now <;> simpa [Ne.symm hq] using hnot
    · refine ⟨use, ?_, ho, fun q => ?_⟩
      · simp only [Sys.record, hnow, if_neg hin]
        exact hf
      · by_cases hq : q = p
        · subst hq
          rw [hb, hp, Function.update_self]
          cases now <;> simp [hin]
        · rw [Function.update_of_ne hq]
          exact hb q
  · rw [balance_record, h.balance]
    by_cases hq : q = p
    · subst hq
      rw [hp, Function.update_self]
      by_cases hb : b' = b
      · cases now <;> simp [hb]
      · cases now <;> simp [hb, Ne.symm hb]
    · simp [hq]

/-- A process that holds no buffer gets one. -/
theorem Kept.map {v size k : Nat} (h : Kept s held) (hp : held p = none)
    (hr : ¬RunRestarts s.vm s.vm.kernelPdir (numPages (alignSize (vmResolveVirt s.vm (s.pdirs p) v) size)))
    (hm : s.userToKernel p v size = some (k, s')) :
    k ≠ 0 ∧ Kept s' (Function.update held p (some (k, size))) ∧ SameRest s s' := by
  obtain ⟨⟨kaddr, vm⟩, hmap, heq⟩ := Option.map_eq_some_iff.mp hm
  obtain ⟨rfl, rfl⟩ := Prod.mk.inj heq
  obtain ⟨hdir, hk, hfits, hfree⟩ := vmUserToKernel_free h.dir hr hmap
  exact ⟨hk, h.setHeld true hp hdir hfits (fun page hpage => (hfree page hpage).1) fun page hpage => (hfree page hpage).2, rfl⟩

/-- A process gives its buffer back. -/
theorem Kept.release {b : Nat × Nat} (h : Kept s held) (hp : held p = some b) (hm : s.kmFreeAddr p b.1 b.2 = some s') :
    Kept s' (Function.update held p none) ∧ SameRest s s' := by
  obtain ⟨vm, hfreed, rfl⟩ := Option.map_eq_some_iff.mp hm
  obtain ⟨hdir, hfree⟩ := vmFreeAddr_free h.dir (h.fits p b hp) hfreed
  refine ⟨h.setHeld false hp hdir (h.fits p b hp) (fun page hpage hin => ?_) hfree, rfl⟩
  obtain ⟨use, hf, -, hb⟩ := h.pages page hpage
  obtain rfl := (hb p).mpr ⟨b, hp, hin⟩
  simpa using hf

theorem pageFree_of_notset {vm : Vm} {pdir v : Nat} (h : bnotset (getPtabEntry vm pdir v) pePresent = true) :
    pageFree vm pdir (v / 4096) = true := by
  rw [getPtabEntry_eq] at h
  rw [pageFree]
  cases he : pageEntry vm pdir (v / 4096) with
  | none => rfl
  | some pte =>
    have hp := present_of_pageEntry he
    rw [he, Option.getD_some, bnotset_eq] at h
    simp [hp] at h

/-- A page that belongs to no buffer begins or ceases to be mapped for something else. -/
theorem Kept.setOther {n : Nat} {vm : Vm} {other : Bool} (h : Kept s held) (hdir : PdirOk vm s.vm.kernelPdir)
    (hk : vm.kernelPdir = s.vm.kernelPdir)
    (hfree : ∀ page < 1048576, pageFree vm s.vm.kernelPdir page = if page = n then !other else pageFree s.vm s.vm.kernelPdir page)
    (hn : pageFree s.vm s.vm.kernelPdir n = true ∨ s.others n = true) :
    Kept { s with vm := vm, others := Function.update s.others n other } held := by
  refine ⟨by rw [hk]; exact hdir, h.fits, fun page hpage => ?_, h.balance⟩
  obtain ⟨use, hf, ho, hb⟩ := h.pages page hpage
  have hnow := hfree page hpage
  by_cases he : page = n
  · subst he
    have hno : ∀ p, use ≠ .buffer p := by
      intro p hp
      rcases hn with hn | hn
      · cases (hf.mp hn).symm.trans hp
      · cases (ho.mp hn).symm.trans hp
    refine ⟨if other then .other else .free, ?_, ?_, fun q => ?_⟩
    · simp only [hk, hnow, if_true]
      cases other <;> simp
    · cases other <;> simp
    · have hnot := hb q
      rw [eq_false (hno q)] at hnot
      rw [← hnot]
      cases other <;> simp
  · refine ⟨use, ?_, ?_, hb⟩
    · simp only [hk, hnow, if_neg he]
      exact hf
    · simp only [Function.update_of_ne he]
      exact ho

/-- The kernel maps a page for something else. -/
theorem Kept.kernelMap {paddr v : Nat} (h : Kept s held) (hpa : paddr < 4294967296) (hv : v < 4294967296)
    (hm : s.kernelMap paddr v = some s') : Kept s' held ∧ s'.pm = s.pm ∧ s'.ttys = s.ttys := by
  unfold Sys.kernelMap at hm
  split at hm
  · rename_i hset
    obtain ⟨vm, hmap, rfl⟩ := Option.map_eq_some_iff.mp hm
    obtain ⟨hdir, hk, hfree⟩ := vmMapPage_free h.dir hv hpa (by decide) hmap
    exact ⟨h.setOther hdir hk hfree (.inl (pageFree_of_notset hset)), rfl, rfl⟩
  · cases hm

/-- The kernel unmaps a page that it had mapped for something else. -/
theorem Kept.kernelUnmap {v : Nat} (h : Kept s held) (hv : v < 4294967296) (hm : s.kernelUnmap v = some s') :
    Kept s' held ∧ s'.pm = s.pm ∧ s'.ttys = s.ttys := by
  unfold Sys.kernelUnmap at hm
  split at hm
  · rename_i hother
    obtain ⟨vm, hmap, rfl⟩ := Option.map_eq_some_iff.mp hm
    unfold vmUnmapPage at hmap
    split at hmap
    · cases hmap
    · obtain ⟨hdir, hk, hfree⟩ := vmMapPage_free h.dir hv (by decide) (by decide) hmap
      exact ⟨h.setOther hdir hk hfree (.inr hother), rfl, rfl⟩
  · cases hm

/-! ## Who waits -/

/-- The buffer of a process that waits for a message. -/
def waitBuffer (proc : Proc) : Option (Nat × Nat) :=
  if pmIsBlockedFor proc .receiving then proc.msgWaitbuf.map (·, msgSize) else none

/-- The buffers that processes wait with. -/
def waiting (pm : Pm) : ProcRef → Option (Nat × Nat) := fun p => waitBuffer (pm.procs p)

open ReadyQueueAux MessagesAux

theorem waiting_setProc (pm : Pm) (p : ProcRef) (f : Proc → Proc) :
    waiting (pm.setProc p f) = Function.update (waiting pm) p (waitBuffer (f (pm.procs p))) := by
  funext q
  unfold waiting
  by_cases hq : q = p
  · subst hq
    rw [procs_setProc_self, Function.update_self]
  · rw [procs_setProc_other _ _ hq, Function.update_of_ne hq]

/-- A change of the queue of messages. -/
theorem waiting_setBuffer (pm : Pm) (p : ProcRef) (rb : Ringbuffer) :
    waiting (pm.setProc p fun proc => { proc with msgbuffer := rb }) = waiting pm := by
  rw [waiting_setProc]
  exact Function.update_eq_self p (waiting pm)

/-- A step of the scheduler that leaves the blocked processes blocked. -/
theorem waiting_congr {pm pm' : Pm} (hrest : pm.SameRest pm')
    (hstatus : ∀ q, (pm'.procs q).status = .blocked ↔ (pm.procs q).status = .blocked) : waiting pm' = waiting pm := by
  funext q
  have hblock : (pm'.procs q).block = (pm.procs q).block := hrest.block q
  have hwait : (pm'.procs q).msgWaitbuf = (pm.procs q).msgWaitbuf := (congrArg Proc.msgWaitbuf (hrest q) :)
  have hb : pmIsBlockedFor (pm'.procs q) .receiving = pmIsBlockedFor (pm.procs q) .receiving := by
    rw [Bool.eq_iff_iff, pmIsBlockedFor, pmIsBlockedFor, decide_eq_true_iff, decide_eq_true_iff, hstatus, hblock]
  rw [waiting, waiting, waitBuffer, waitBuffer, hb, hwait]

/-- The scheduler makes processes run that are ready, and leaves the others as they are. -/
theorem waiting_schedule {pm pm' : Pm} (h : ReadyRun pm) (hs : pmSchedule pm = some pm') : waiting pm' = waiting pm := by
  obtain ⟨l, hl, hrun⟩ := h
  cases l with
  | nil => cases hl.2
  | cons a l =>
    obtain ⟨s', hs', hq, hcur⟩ := pmSchedule_queue hl.1
    obtain rfl := Option.some.inj (hs.symm.trans hs')
    refine waiting_congr (pmSchedule_sameRest hs) fun q => ?_
    rw [pmSchedule_status hs]
    by_cases hhead : pm'.plistHead = some q
    · have hmem : q ∈ l ++ [a] := List.mem_of_mem_head? (hq.links.head_eq.symm.trans hhead)
      have hnot := (hrun q (by simpa [or_comm] using hmem)).2
      simp [hhead, hnot]
    · rw [if_neg hhead]
      by_cases hprev : q = pm.curProc ∧ (pm.procs q).status = .running
      · rw [if_pos hprev, hprev.2]
        simp
      · rw [if_neg hprev]

/-- The target of a message is woken. -/
theorem waiting_unblock (pm : Pm) (p : ProcRef) (f : Proc → Proc) :
    waiting (pmUnblock (pm.setProc p f) p) = Function.update (waiting pm) p none := by
  rw [pmUnblock, setProc_setProc, waiting_congr (pmActivate_sameRest _ p) fun q => by rw [pmActivate_status], waiting_setProc]
  congr 1

/-- The current process waits for a message. -/
theorem waiting_block {pm pm' : Pm} {msg : Option Nat} {done : Bool} (h : ReadyRun pm)
    (hs : pmBlock (pm.setProc pm.curProc fun proc => { proc with msgWaitbuf := msg }) pm.curProc .receiving = some (done, pm')) :
    waiting pm' = Function.update (waiting pm) pm.curProc (msg.map (·, msgSize)) := by
  obtain ⟨b, l, hl, hrun, hl', hrest, hstatus⟩ := pmBlock_receiving h hs
  have hcur' : pm'.curProc ∈ b :: l := by simpa [or_comm] using List.mem_of_mem_head? hl'.2
  have hne : pm.curProc ≠ pm'.curProc := fun he => (List.nodup_cons.mp hl.1.nodup).1 (he ▸ hcur')
  funext q
  have hr := hrest q
  by_cases hq : q = pm.curProc
  · subst hq
    rw [procs_setProc_self] at hr
    have hblock : (pm'.procs pm.curProc).block = .receiving := (congrArg Proc.block hr :)
    have hwait : (pm'.procs pm.curProc).msgWaitbuf = msg := (congrArg Proc.msgWaitbuf hr :)
    have hst := hstatus pm.curProc
    rw [if_neg hne, if_pos rfl] at hst
    simp [waiting, waitBuffer, pmIsBlockedFor, hblock, hwait, hst]
  · rw [procs_setProc_other _ _ hq] at hr
    have hblock : (pm'.procs q).block = (pm.procs q).block := (congrArg Proc.block hr :)
    have hwait : (pm'.procs q).msgWaitbuf = (pm.procs q).msgWaitbuf := (congrArg Proc.msgWaitbuf hr :)
    have hst := hstatus q
    rw [if_neg hq] at hst
    rw [Function.update_of_ne hq]
    by_cases hc : q = pm'.curProc
    · have hnot := (hrun q (List.mem_cons_of_mem _ (hc ▸ hcur'))).2
      rw [if_pos hc] at hst
      simp [waiting, waitBuffer, pmIsBlockedFor, hst, hnot]
    · rw [if_neg hc] at hst
      simp [waiting, waitBuffer, pmIsBlockedFor, hblock, hwait, hst]

end BuffersAux

end Kos
