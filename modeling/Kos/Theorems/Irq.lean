import Kos.Idt
import Mathlib.Tactic.Common

/-!
# Interrupt requests are neither lost nor left in service

`idt_handle_irq` ends each interrupt at the controllers that had it in service, and `mask_irq`, which gets a vector instead of a line, takes back
at the end of `idt_handle_int` what it has done at the beginning. So between two interrupts the two controllers are as `init_idt` left them, but
for the requests, and are as good as one (`irqs_refine`). The check for interrupts without a request reads the wrong register: `outb(pic + 3, …)`
goes to a port that the controllers do not have.
-/

namespace Kos

open Pics Irqs

/-- The controllers as `init_idt` leaves them, with these lines pending, these inputs in service and these masks. -/
def Pics.busy (pending isr₁ isr₂ : Nat → Bool) (imr₁ imr₂ : BitVec 8) : Pics where
  pic1 := ⟨fun i => decide (i < 8 ∧ i ≠ 2) && pending i, isr₁, imr₁, false, 0, 0x20, 4⟩
  pic2 := ⟨fun i => pending (i + 8), isr₂, imr₂, false, 0, 0x28, 2⟩

/-- Nothing is in service, and nothing is masked. -/
def Pics.idle (pending : Nat → Bool) : Pics := busy pending (fun _ => false) (fun _ => false) 0 0

namespace IrqAux

variable {f a b : Nat → Bool} {m₁ m₂ : BitVec 8}

theorem initPic_eq (p : Pics) : initPic p = idle fun _ => false := by
  have h : initPic p =
      ⟨⟨fun _ => false, fun _ => false, 0, false, 0, 0x20, 4⟩, ⟨fun _ => false, fun _ => false, 0, false, 0, 0x28, 2⟩⟩ := rfl
  simp only [h, idle, busy, Bool.and_false]

theorem line_busy (request : Bool) (n : Nat) : line request (busy f a b m₁ m₂) n = busy (Lines.set request f n) a b m₁ m₂ := by
  have hset : ∀ i, Lines.set request f n i = if i = n then request else f i := fun i => Function.update_apply ..
  unfold line
  split_ifs with htwo hlow <;> simp only [busy, Pics.mk.injEq, Pic.mk.injEq, and_true, funext_iff, hset, Function.update_apply]
  · exact ⟨by grind, by grind⟩
  · exact ⟨by grind, by grind⟩
  · exact ⟨by grind, by grind⟩

theorem foldl_line (request : Bool) (ns : List Nat) :
    ns.foldl (line request) (busy f a b m₁ m₂) = busy (ns.foldl (Lines.set request) f) a b m₁ m₂ := by
  induction ns generalizing f with
  | nil => rfl
  | cons n ns ih => rw [List.foldl_cons, line_busy, ih, List.foldl_cons]

theorem byteOf_high (f : Nat → Bool) : Pic.byteOf f &&& 0x80 ≠ 0 ↔ f 7 = true := by
  have h : ∀ a₀ a₁ a₂ a₃ a₄ a₅ a₆ a₇ : Bool,
      [a₀, a₁, a₂, a₃, a₄, a₅, a₆, a₇].zipIdx.foldl (fun v b => if b.1 then v ||| 1#8 <<< b.2 else v) 0 &&& 0x80 ≠ 0 ↔ a₇ = true := by
    decide
  exact h (f 0) (f 1) (f 2) (f 3) (f 4) (f 5) (f 6) (f 7)

theorem maskIrq_busy (intr : Nat) : ∃ m₁ m₂, (∀ f a b, maskIrq intr true (busy f a b 0 0) = busy f a b m₁ m₂) ∧
    ∀ f a b, maskIrq intr false (busy f a b m₁ m₂) = busy f a b 0 0 := by
  unfold maskIrq
  by_cases h : intr < 8
  · simp only [if_pos h]
    exact ⟨_, 0, fun f a b => congrArg (busy f a b · 0) BitVec.zero_or, fun f a b => congrArg (busy f a b · 0) (BitVec.and_not_self _)⟩
  · simp only [if_neg h]
    exact ⟨0, _, fun f a b => congrArg (busy f a b 0 ·) BitVec.zero_or, fun f a b => congrArg (busy f a b 0 ·) (BitVec.and_not_self _)⟩

/-! ### Acknowledgement -/

/-- Nothing is in service, or one input. -/
def served : Option (Fin 8) → Nat → Bool
  | none => fun _ => false
  | some i => Function.update (fun _ => false) i true

theorem eoi_served (p : Pic) (o : Option (Fin 8)) : Pic.eoi { p with isr := served o } = { p with isr := served none } := by
  cases o with
  | none => rfl
  | some i =>
    have hfind : ∀ i : Fin 8, (List.range 8).find? (Function.update (fun _ => false) i.val true) = some i.val := by decide
    simp only [Pic.eoi, hfind, served, Function.update_idem, Function.update_eq_self]

theorem serve_first {n : Fin 8} (hne : n.val ≠ 2) :
    { idle f with pic1 := (idle f).pic1.serve n } = busy (Lines.set false f n) (served (some n)) (served none) 0 0 := by
  have h : line false (idle f) n = idle (Lines.set false f n) := line_busy false n
  rw [line, if_neg hne, if_pos n.isLt] at h
  exact congrArg (fun p : Pics => { p with pic1 := { p.pic1 with isr := served (some n) } }) h

theorem serve_second (n : Fin 8) :
    { busy f a (served none) 0 0 with pic2 := (busy f a (served none) 0 0).pic2.serve n } =
      busy (Lines.set false f (n + 8)) a (served (some n)) 0 0 := by
  have h : line false (busy f a (served none) 0 0) (n + 8) = busy (Lines.set false f (n + 8)) a (served none) 0 0 := line_busy false (n + 8)
  rw [line, if_neg (by omega), if_neg (by omega), Nat.add_sub_cancel] at h
  exact congrArg (fun p : Pics => { p with pic2 := { p.pic2 with isr := served (some n) } }) h

theorem next_eq (pending : Nat → Bool) (base : Nat) (slaves : BitVec 8) :
    Pic.next ⟨pending, fun _ => false, 0, false, 0, base, slaves⟩ = (List.range 8).find? pending := by
  have hall : ∀ i, ((List.range (i + 1)).all fun _ => true) = true := fun i => List.all_eq_true.mpr fun _ _ => rfl
  simp only [Pic.next, hall, show ∀ i, (0 : BitVec 8).getLsbD i = false from fun i => BitVec.getLsbD_zero, Bool.not_false, Bool.and_true]

theorem next_second (isr : Nat → Bool) : (busy f isr (served none) 0 0).pic2.next.map (· + 8) = (List.range' 8 8).find? f := by
  rw [busy, served, next_eq, show List.range' 8 8 = (List.range 8).map (· + 8) by decide, List.find?_map]
  rfl

theorem next_first : (idle f).first.next =
    (([0, 1].find? f).or (if ((List.range' 8 8).find? f).isSome then some 2 else none)).or ([3, 4, 5, 6, 7].find? f) := by
  have hsecond : ((List.range' 8 8).find? f).isSome = (idle f).pic2.next.isSome := by
    rw [← next_second (served none), Option.isSome_map]
    rfl
  rw [hsecond]
  change Pic.next ⟨fun i => if (4#8).getLsbD i then (idle f).pic2.next.isSome else (idle f).pic1.irr i, fun _ => false, 0, false, 0, 0x20, 4⟩ = _
  rw [next_eq, show List.range 8 = [0, 1] ++ [2] ++ [3, 4, 5, 6, 7] from rfl, List.find?_append, List.find?_append]
  cases (idle f).pic2.next.isSome <;> rfl

/-- The answer is the line `n`, and the pending lines are `g` then. One input of each controller is in service, or none. -/
def Answers (answer : Nat × Pics) (n : Nat) (g : Nat → Bool) : Prop :=
  ∃ o₁ o₂, answer = (0x20 + n, busy g (served o₁) (served o₂) 0 0) ∧ (n < 8 → o₂ = none)

/-- A line of the first controller. -/
theorem ack_first {n : Nat} (withdrawn : List Nat) (hn : n < 8 ∧ n ≠ 2) (hnext : (idle f).first.next = some n) :
    Answers ((idle f).ack withdrawn) n (Lines.set false f n) := by
  have hslave : ∀ n < 8, n ≠ 2 → ¬(4#8).getLsbD n = true := by decide
  refine ⟨some ⟨n, hn.1⟩, none, ?_, fun _ => rfl⟩
  rw [Pics.ack, hnext]
  simp only
  rw [if_neg (show ¬((idle f).pic1.serve n).slaves.getLsbD n = true from hslave n hn.1 hn.2)]
  exact congrArg (Prod.mk (32 + n)) (serve_first (n := ⟨n, hn.1⟩) hn.2)

/-- A line of the second controller, or the last one if the requests have been withdrawn meanwhile. -/
theorem ack_second (withdrawn : List Nat) {g : Nat → Bool} (hg : withdrawn.foldl (Lines.set false) f = g) (hnext : (idle f).first.next = some 2) :
    Answers ((idle f).ack withdrawn) (((List.range' 8 8).find? g).getD 15) (((List.range' 8 8).find? g).elim g (Lines.set false g)) := by
  have hserve : { idle f with pic1 := (idle f).pic1.serve 2 } = busy f (served (some 2)) (served none) 0 0 := by
    refine congrArg (fun irr => (⟨⟨irr, _, _, _, _, _, _⟩, _⟩ : Pics)) ?_
    exact Function.update_eq_self 2 fun i => decide (i < 8 ∧ i ≠ 2) && f i
  rw [Pics.ack, hnext]
  simp only
  rw [if_pos (show ((idle f).pic1.serve 2).slaves.getLsbD 2 = true from (by decide : (4#8).getLsbD 2 = true)), hserve, foldl_line, hg,
    ← next_second (served (some 2))]
  cases hj : (busy g (served (some 2)) (served none) 0 0).pic2.next with
  | none => exact ⟨some 2, none, rfl, fun _ => rfl⟩
  | some j =>
    have hlt : j < 8 := List.mem_range.mp (List.mem_of_find?_eq_some hj)
    refine ⟨some 2, some ⟨j, hlt⟩, ?_, fun h => ?_⟩
    · rw [Option.map_some, Option.getD_some, Option.elim_some, Nat.add_comm j 8, ← Nat.add_assoc, Nat.add_comm 8 j]
      exact congrArg (Prod.mk (40 + j)) (serve_second ⟨j, hlt⟩)
    · rw [Option.map_some, Option.getD_some] at h
      omega

/-- The two controllers answer like one. -/
theorem ack_idle (withdrawn : List Nat) : Answers ((idle f).ack withdrawn) (Lines.ack withdrawn f).1 (Lines.ack withdrawn f).2 := by
  have hprio : Lines.priorities.find? f = (([0, 1].find? f).or ((List.range' 8 8).find? f)).or ([3, 4, 5, 6, 7].find? f) := by
    rw [Lines.priorities, List.find?_append, List.find?_append]
  have hfirst := next_first (f := f)
  -- a line of the first controller
  have hlow : ∀ n, n < 8 ∧ n ≠ 2 → (idle f).first.next = some n → Lines.priorities.find? f = some n →
      Answers ((idle f).ack withdrawn) (Lines.ack withdrawn f).1 (Lines.ack withdrawn f).2 := by
    intro n hn hnext hfind
    have hack : Lines.ack withdrawn f = (n, Lines.set false f n) := by
      rw [Lines.ack, hfind]
      exact if_pos hn.1
    rw [hack]
    exact ack_first withdrawn hn hnext
  cases hA : [0, 1].find? f with
  | some n =>
    rw [hA, Option.some_or, Option.some_or] at hfirst hprio
    exact hlow n ((by decide : ∀ n ∈ [0, 1], n < 8 ∧ n ≠ 2) n (List.mem_of_find?_eq_some hA)) hfirst hprio
  | none =>
    rw [hA, Option.none_or] at hfirst hprio
    cases hB : (List.range' 8 8).find? f with
    | some n =>
      rw [hB, Option.some_or] at hprio
      rw [hB, Option.isSome_some, if_pos rfl, Option.some_or] at hfirst
      have hn : ¬n < 8 := Nat.not_lt.mpr (List.mem_range'_1.mp (List.mem_of_find?_eq_some hB)).1
      have h := ack_second withdrawn rfl hfirst
      rw [Lines.ack, hprio]
      simp only [if_neg hn]
      cases hC : (List.range' 8 8).find? (withdrawn.foldl (Lines.set false) f) with
      | none => rwa [hC] at h
      | some m => rwa [hC] at h
    | none =>
      rw [hB, Option.none_or] at hprio
      rw [hB, Option.isSome_none, if_neg Bool.false_ne_true, Option.none_or] at hfirst
      cases hC : [3, 4, 5, 6, 7].find? f with
      | some n =>
        rw [hC] at hfirst hprio
        exact hlow n ((by decide : ∀ n ∈ [3, 4, 5, 6, 7], n < 8 ∧ n ≠ 2) n (List.mem_of_find?_eq_some hC)) hfirst hprio
      | none =>
        -- all requests have been withdrawn
        rw [hC] at hfirst hprio
        refine ⟨none, none, ?_, fun _ => rfl⟩
        rw [Pics.ack, hfirst, Lines.ack, hprio]
        rfl

/-! ### Handling -/

theorem call_withCtl {γ δ : Type} (s : Irqs γ) (ctl : δ) (n : Nat) : (s.withCtl ctl).call n = (s.call n).withCtl ctl := by
  by_cases h : s.handlers n = true
  · rw [Irqs.call, if_pos (show (s.withCtl ctl).handlers n = true from h), Irqs.call, if_pos h]
    rfl
  · rw [Irqs.call, if_neg (show ¬(s.withCtl ctl).handlers n = true from h), Irqs.call, if_neg h]

theorem eoi_second (o : Option (Fin 8)) : (busy f a (served o) m₁ m₂).outb pic2Cmd 0x20 = busy f a (served none) m₁ m₂ :=
  congrArg (Pics.mk _) (eoi_served (busy f a a m₁ m₂).pic2 o)

theorem eoi_first (o : Option (Fin 8)) : (busy f (served o) b m₁ m₂).outb pic1Cmd 0x20 = busy f (served none) b m₁ m₂ :=
  congrArg (Pics.mk · _) (eoi_served (busy f b b m₁ m₂).pic1 o)

/-- The register that `idt_handle_irq` reads is that of the requests. -/
theorem inb_busy {n : Nat} (hn : n = 7 ∨ n = 15) :
    (busy f a b m₁ m₂).inb (if n < 8 then pic1Cmd else pic2Cmd) &&& 0x80 ≠ 0 ↔ f n = true := by
  obtain rfl | rfl := hn
  · exact byteOf_high fun i => if (4#8).getLsbD i then (busy f a b m₁ m₂).pic2.next.isSome else decide (i < 8 ∧ i ≠ 2) && f i
  · exact byteOf_high fun i => f (i + 8)

theorem idtHandleIrq_busy {γ : Type} (s : Irqs γ) {n : Nat} (requests : List Nat) {o₁ o₂ : Option (Fin 8)} (hnone : n < 8 → o₂ = none) :
    idtHandleIrq n requests (s.withCtl (busy f (served o₁) (served o₂) m₁ m₂)) =
      (if (n = 7 ∨ n = 15) ∧ requests.foldl (Lines.set true) f n then s.count n else (s.count n).call n).withCtl
        (busy (requests.foldl (Lines.set true) f) (served none) (served none) m₁ m₂) := by
  have hcount : ∀ c : Pics, (s.withCtl c).count n = (s.count n).withCtl c := fun _ => rfl
  have hport : ∀ p : Pics, p.outb ((if n < 8 then pic1Cmd else pic2Cmd) + 3) 0x03 = p := by
    intro p
    split <;> rfl
  have hctl : ∀ (t : Irqs γ) (c c' : Pics), (t.withCtl c).withCtl c' = t.withCtl c' := fun _ _ _ => rfl
  have hread : ∀ (t : Irqs γ) (c : Pics), (t.withCtl c).ctl = c := fun _ _ => rfl
  unfold idtHandleIrq
  simp only [hcount, hctl, hread, foldl_line, hport, ite_self]
  generalize requests.foldl (Lines.set true) f = g
  rw [if_congr (and_congr_right fun hn => inb_busy hn) rfl rfl, call_withCtl,
    ← apply_ite (fun t : Irqs γ => t.withCtl (busy g (served o₁) (served o₂) m₁ m₂))]
  generalize (if (n = 7 ∨ n = 15) ∧ g n then s.count n else (s.count n).call n) = t
  by_cases hn : n < 8
  · rw [if_neg (by omega), hctl, hread, eoi_first, hnone hn]
  · rw [if_pos (by omega), hctl, hctl, hread, hread, eoi_second, eoi_first]

/-- Two controllers instead of one. -/
def toPics (s : Irqs (Nat → Bool)) : Irqs Pics := s.withCtl (idle s.ctl)

theorem idtHandleInt_irq {γ : Type} (s : Irqs γ) (p : Pics) (n : Nat) (requests : List Nat) :
    idtHandleInt (0x20 + n) requests (s.withCtl p) =
      let t := idtHandleIrq n requests (s.withCtl (maskIrq (0x20 + n) true p))
      t.withCtl (maskIrq (0x20 + n) false t.ctl) := by
  unfold idtHandleInt
  simp only [if_neg (show ¬0x20 + n < irqBase from Nat.not_lt.mpr (Nat.le_add_right 32 n)), Nat.add_sub_cancel_left]
  rfl

/-- The bit for `SYSCALL` is not one of the mask. -/
theorem maskIrq_syscall (disable : Bool) : maskIrq syscallIntr disable (idle f) = idle f := by
  cases disable with
  | false => exact congrArg (busy f _ _ 0 ·) (by decide : (0 : BitVec 8) &&& ~~~bit8 40 = 0)
  | true => exact congrArg (busy f _ _ 0 ·) (by decide : (0 : BitVec 8) ||| bit8 40 = 0)

theorem exec_interrupt (s : Irqs (Nat → Bool)) (withdrawn requests : List Nat) :
    IrqEvent.exec (toPics s) (.interrupt withdrawn requests) = toPics (Lines.interrupt withdrawn requests s) := by
  obtain ⟨o₁, o₂, hanswer, hnone⟩ := ack_idle (f := s.ctl) withdrawn
  change idtHandleInt ((idle s.ctl).ack withdrawn).1 requests (s.withCtl ((idle s.ctl).ack withdrawn).2) = _
  rw [hanswer]
  unfold Lines.interrupt
  generalize (Lines.ack withdrawn s.ctl).1 = n at *
  generalize (Lines.ack withdrawn s.ctl).2 = g at *
  obtain ⟨m₁, m₂, hmask, hunmask⟩ := maskIrq_busy (0x20 + n)
  simp only [idtHandleInt_irq, hmask, idtHandleIrq_busy s requests hnone]
  generalize requests.foldl (Lines.set true) g = g'
  change Irqs.withCtl _ (maskIrq (0x20 + n) false (busy g' _ _ m₁ m₂)) = toPics (if (n = 7 ∨ n = 15) ∧ g' n = true then _ else _)
  rw [hunmask, call_withCtl]
  split <;> rfl

theorem exec_exception (s : Irqs (Nat → Bool)) (intr : Fin irqBase) (requests : List Nat) :
    IrqEvent.exec (toPics s) (.exception intr requests) = toPics (s.withCtl (requests.foldl (Lines.set true) s.ctl)) := by
  obtain ⟨m₁, m₂, hmask, hunmask⟩ := maskIrq_busy intr
  change idtHandleInt intr requests (toPics s) = _
  unfold idtHandleInt
  simp only [if_pos intr.isLt]
  change s.withCtl (maskIrq intr false (requests.foldl (line true) (maskIrq intr true (idle s.ctl)))) = _
  rw [idle, hmask, foldl_line, hunmask]
  rfl

/-- One step with two controllers and one with one. -/
theorem exec_toPics (s : Irqs (Nat → Bool)) (e : IrqEvent) : e.exec (toPics s) = toPics (Lines.step s e) := by
  cases e with
  | request n => exact congrArg s.withCtl (line_busy true n)
  | withdraw n => exact congrArg s.withCtl (line_busy false n)
  | interrupt withdrawn requests => exact exec_interrupt s withdrawn requests
  | exception intr requests => exact exec_exception s intr requests
  | syscall => exact congrArg s.withCtl (maskIrq_syscall true)
  | syscallEnd => exact congrArg s.withCtl (maskIrq_syscall false)
  | setHandler n => rfl
  | clrHandler n => rfl

theorem foldl_exec (s : Irqs (Nat → Bool)) (es : List IrqEvent) : es.foldl IrqEvent.exec (toPics s) = toPics (es.foldl Lines.step s) := by
  induction es generalizing s with
  | nil => rfl
  | cons e es ih => rw [List.foldl_cons, exec_toPics, ih, List.foldl_cons]

end IrqAux

open IrqAux

/-- The kernel and the two interrupt controllers behave like one controller for all lines, from `init_idt` on and whatever the devices do: no input
stays in service or masked, so that no line is blocked, and each interrupt is counted and calls the handler of its line, and that of no other. The
handlers of 7 and 15 are also called when all requests have been withdrawn, and not when there is another request already. -/
theorem irqs_refine (p : Pics) (handlers : Nat → Bool) (es : List IrqEvent) :
    es.foldl IrqEvent.exec ⟨initPic p, fun _ => 0, handlers, [], []⟩ =
      let s := es.foldl Lines.step ⟨fun _ => false, fun _ => 0, handlers, [], []⟩
      s.withCtl (idle s.ctl) := by
  rw [initPic_eq]
  exact foldl_exec ⟨fun _ => false, fun _ => 0, handlers, [], []⟩ es

/-! ## Waiting -/

namespace IrqAux

/-- After some events, of which at most `k` were interrupts, those of the list. -/
structure Later (s t : Irqs (Nat → Bool)) (k : Nat) (l : List Nat) : Prop where
  served : t.served = l ++ s.served
  length : l.length ≤ k
  counter : ∀ n, t.counter n = s.counter n + UInt32.ofNat (l.count n)
  ticks : s.ticks ≤ t.ticks

theorem Later.refl (s : Irqs (Nat → Bool)) (k : Nat) : Later s s k [] :=
  ⟨rfl, Nat.zero_le k, fun n => (UInt32.add_zero (s.counter n)).symm, Nat.le_refl _⟩

theorem Later.trans {s t u : Irqs (Nat → Bool)} {k k' : Nat} {l l' : List Nat} (h : Later s t k l) (h' : Later t u k' l') :
    Later s u (k + k') (l' ++ l) where
  served := by rw [h'.served, h.served, List.append_assoc]
  length := by
    have := h.length
    have := h'.length
    rw [List.length_append]
    omega
  counter n := by
    rw [h'.counter, h.counter, List.count_append, UInt32.add_assoc, ← UInt32.ofNat_add, Nat.add_comm (l.count n)]
  ticks := Nat.le_trans h.ticks h'.ticks

theorem later_call {s t : Irqs (Nat → Bool)} {k : Nat} {l : List Nat} (h : Later s t k l) (n : Nat) : Later s (t.call n) k l := by
  unfold Irqs.call
  split
  · refine ⟨h.served, h.length, h.counter, Nat.le_trans h.ticks ?_⟩
    exact List.Sublist.count_le 0 (List.sublist_cons_self n t.calls)
  · exact h

theorem later_interrupt (s : Irqs (Nat → Bool)) (withdrawn requests : List Nat) :
    ∃ l, Later s (Lines.interrupt withdrawn requests s) 1 l := by
  unfold Lines.interrupt
  generalize (Lines.ack withdrawn s.ctl).1 = n
  have hcount : Later s ((s.count n).withCtl (requests.foldl (Lines.set true) (Lines.ack withdrawn s.ctl).2)) 1 [n] := by
    refine ⟨rfl, Nat.le_refl 1, fun m => ?_, Nat.le_refl _⟩
    change Function.update s.counter n (s.counter n + 1) m = _
    rw [Function.update_apply, List.count_singleton]
    by_cases hm : m = n
    · rw [if_pos hm, hm, if_pos (beq_self_eq_true n)]
      rfl
    · rw [if_neg hm, if_neg (by simpa using fun h => hm h.symm)]
      exact (UInt32.add_zero _).symm
  refine ⟨[n], ?_⟩
  simp only
  split
  · exact hcount
  · exact later_call hcount n

theorem later_step (s : Irqs (Nat → Bool)) (e : IrqEvent) : ∃ l, Later s (Lines.step s e) 1 l := by
  cases e with
  | interrupt withdrawn requests => exact later_interrupt s withdrawn requests
  | _ => exact ⟨[], rfl, Nat.zero_le 1, fun n => (UInt32.add_zero (s.counter n)).symm, Nat.le_refl _⟩

theorem later_run (s : Irqs (Nat → Bool)) (es : List IrqEvent) : ∃ l, Later s (es.foldl Lines.step s) es.length l := by
  induction es generalizing s with
  | nil => exact ⟨[], Later.refl s 0⟩
  | cons e es ih =>
    obtain ⟨l, hstep⟩ := later_step s e
    obtain ⟨l', hrest⟩ := ih (Lines.step s e)
    rw [List.length_cons, Nat.add_comm]
    exact ⟨l' ++ l, hstep.trans hrest⟩

section Wait

variable {s t : Irqs (Nat → Bool)} {n k : Nat} {l : List Nat} {ticks : Option Nat} {bs : List (List IrqEvent)} {b : Bool} {u : Irqs Pics}

/-- The counter says whether the interrupt has come. -/
theorem Later.counter_lt_iff (h : Later s t k l) (hreset : s.counter n = 0) (hk : k < UInt32.size) : t.counter n < 1 ↔ n ∉ l := by
  have hcount : l.count n < UInt32.size := Nat.lt_of_le_of_lt (Nat.le_trans List.count_le_length h.length) hk
  rw [h.counter, hreset, UInt32.zero_add, UInt32.lt_iff_toNat_lt, UInt32.toNat_ofNat_of_lt' hcount, ← List.count_eq_zero]
  exact Nat.lt_one_iff

theorem waitResult_spec (h : Later s t k l) (hreset : s.counter n = 0) (hk : k + bs.flatten.length < UInt32.size)
    (hres : waitResult n 1 (toPics t) bs = some (b, u)) :
    ∃ t' k' l', u = toPics t' ∧ Later t t' k' l' ∧ (b = true ↔ n ∈ l' ++ l) := by
  cases bs with
  | nil => cases hres
  | cons es rest =>
    rw [List.flatten_cons, List.length_append] at hk
    obtain ⟨l', hl'⟩ := later_run t es
    have hread := (h.trans hl').counter_lt_iff (n := n) hreset (by omega)
    rw [waitResult, foldl_exec] at hres
    obtain ⟨rfl, rfl⟩ := Prod.mk.inj (Option.some.inj hres)
    refine ⟨_, es.length, l', rfl, hl', ?_⟩
    rw [decide_eq_true_iff, ge_iff_le, ← UInt32.not_lt]
    change ¬(es.foldl Lines.step t).counter n < 1 ↔ _
    rw [hread, not_not]

theorem waitLoop_seen {es : List IrqEvent} (h : ¬(es.foldl Lines.step t).counter n < 1) (rest : List (List IrqEvent)) :
    waitLoop n 1 ticks (toPics t) (es :: rest) = waitResult n 1 (toPics (es.foldl Lines.step t)) rest := by
  rw [waitLoop.eq_def]
  simp only [foldl_exec]
  exact if_neg h

theorem waitLoop_unseen {es : List IrqEvent} (h : (es.foldl Lines.step t).counter n < 1) (es' : List IrqEvent)
    (rest : List (List IrqEvent)) :
    waitLoop n 1 ticks (toPics t) (es :: es' :: rest) =
      if ∀ T ∈ ticks, ((es ++ es').foldl Lines.step t).ticks < T then waitLoop n 1 ticks (toPics ((es ++ es').foldl Lines.step t)) rest
      else waitResult n 1 (toPics ((es ++ es').foldl Lines.step t)) rest := by
  rw [waitLoop.eq_def, List.foldl_append]
  simp only [foldl_exec]
  exact if_pos h

theorem waitLoop_singleton {es : List IrqEvent} (h : (es.foldl Lines.step t).counter n < 1) : waitLoop n 1 ticks (toPics t) [es] = none := by
  rw [waitLoop.eq_def]
  simp only [foldl_exec]
  exact if_pos h

/-- What the loop returns says whether the interrupt has come, and if it has not, the time is over. -/
theorem waitLoop_spec (hreset : s.counter n = 0) : ∀ (bs : List (List IrqEvent)) {t : Irqs (Nat → Bool)} {k : Nat}
    {l : List Nat}, Later s t k l → k + bs.flatten.length < UInt32.size → waitLoop n 1 ticks (toPics t) bs = some (b, u) →
    ∃ t' k' l', u = toPics t' ∧ Later t t' k' l' ∧ (b = true ↔ n ∈ l' ++ l) ∧ (b = false → ∃ T, ticks = some T ∧ T ≤ t'.ticks)
  | [], _, _, _, _, _, hres => by cases hres
  | es :: rest, t, k, l, h, hk, hres => by
    rw [List.flatten_cons, List.length_append] at hk
    obtain ⟨l₁, h₁⟩ := later_run t es
    have hread := (h.trans h₁).counter_lt_iff (n := n) hreset (by omega)
    by_cases hcounter : (es.foldl Lines.step t).counter n < 1
    · cases rest with
      | nil =>
        rw [waitLoop_singleton hcounter] at hres
        cases hres
      | cons es' rest' =>
        rw [waitLoop_unseen hcounter] at hres
        rw [List.flatten_cons, List.length_append] at hk
        obtain ⟨l₂, h₂⟩ := later_run t (es ++ es')
        rw [List.length_append] at h₂
        split at hres
        · obtain ⟨t', k', l', hu, hl', hb, hfalse⟩ := waitLoop_spec hreset rest' (h.trans h₂) (by omega) hres
          exact ⟨t', _, l' ++ l₂, hu, h₂.trans hl', by rw [hb, List.append_assoc], hfalse⟩
        · -- the time is over
          rename_i hticks
          obtain ⟨t', k', l', hu, hl', hb⟩ := waitResult_spec (h.trans h₂) hreset (by omega) hres
          refine ⟨t', _, l' ++ l₂, hu, h₂.trans hl', by rw [hb, List.append_assoc], fun _ => ?_⟩
          obtain ⟨T, hT, hover⟩ : ∃ T ∈ ticks, T ≤ ((es ++ es').foldl Lines.step t).ticks := by
            simpa only [not_forall, Nat.not_lt, exists_prop] using hticks
          exact ⟨T, hT, Nat.le_trans hover hl'.ticks⟩
    · rw [waitLoop_seen hcounter] at hres
      obtain ⟨t', k', l', hu, hl', hb⟩ := waitResult_spec (h.trans h₁) hreset (by omega) hres
      refine ⟨t', _, l' ++ l₁, hu, h₁.trans hl', by rw [hb, List.append_assoc], fun hfalse => ?_⟩
      have hmem : n ∈ l' ++ (l₁ ++ l) := List.mem_append_right l' (not_not.mp fun hnot => hcounter (hread.mpr hnot))
      rw [hb.mpr hmem] at hfalse
      cases hfalse

theorem exists_waitResult (t : Irqs Pics) (hne : bs ≠ []) : ∃ b u, waitResult n 1 t bs = some (b, u) := by
  cases bs with
  | nil => exact absurd rfl hne
  | cons es rest => exact ⟨_, _, rfl⟩

/-- The loop returns once the interrupt has come and both variables have been read again. -/
theorem exists_waitLoop (hreset : s.counter n = 0) {bs₂ : List (List IrqEvent)} (htwo : 2 ≤ bs₂.length) : ∀ (bs₁ : List (List IrqEvent))
    {t : Irqs (Nat → Bool)} {k : Nat} {l : List Nat}, Later s t k l → k + (bs₁ ++ bs₂).flatten.length < UInt32.size →
    ¬(bs₁.flatten.foldl Lines.step t).counter n < 1 → ∃ b u, waitLoop n 1 ticks (toPics t) (bs₁ ++ bs₂) = some (b, u)
  | [], t, k, l, h, hk, hcome => by
    obtain _ | ⟨es, rest⟩ := bs₂
    · cases htwo
    · rw [List.nil_append, List.flatten_cons, List.length_append] at hk
      obtain ⟨l₁, h₁⟩ := later_run t es
      have hmem : n ∈ l := not_not.mp fun hnot => hcome ((h.counter_lt_iff hreset (by omega)).mpr hnot)
      have hread := (h.trans h₁).counter_lt_iff (n := n) hreset (by omega)
      rw [List.nil_append, waitLoop_seen fun hlt => hread.mp hlt (List.mem_append_right l₁ hmem)]
      exact exists_waitResult _ (List.ne_nil_of_length_pos (Nat.lt_of_succ_le (Nat.le_of_succ_le_succ htwo)))
  | [es], t, k, l, h, hk, hcome => by
    rw [List.flatten_singleton] at hcome
    rw [List.singleton_append, waitLoop_seen hcome]
    exact exists_waitResult _ (List.ne_nil_of_length_pos (by omega))
  | es :: es' :: rest, t, k, l, h, hk, hcome => by
    have hne : rest ++ bs₂ ≠ [] := List.append_ne_nil_of_right_ne_nil rest (List.ne_nil_of_length_pos (by omega))
    rw [List.cons_append, List.cons_append]
    by_cases hcounter : (es.foldl Lines.step t).counter n < 1
    · rw [waitLoop_unseen hcounter]
      split
      · obtain ⟨l₂, h₂⟩ := later_run t (es ++ es')
        rw [List.length_append] at h₂
        simp only [List.cons_append, List.flatten_cons, List.length_append] at hk
        refine exists_waitLoop hreset htwo rest (h.trans h₂) (by omega) ?_
        rwa [List.flatten_cons, List.flatten_cons, ← List.append_assoc, List.foldl_append] at hcome
      · exact exists_waitResult _ hne
    · rw [waitLoop_seen hcounter]
      exact exists_waitResult _ (List.cons_ne_nil _ _)

end Wait

end IrqAux

/-- No interrupt is lost between `idt_reset_irq_counter` and the end of `idt_wait_irq`, before the wait or within it, wherever it comes between the
reads of the variables: the wait says that the interrupt has come if and only if it has, it only gives up when the timeout is over, and it returns
once the interrupt has come and the counter has been read again. -/
theorem idtWaitIrq_complete (p : Pics) (handlers : Nat → Bool) (es₀ es : List IrqEvent) (n timeout : Nat) (bs : List (List IrqEvent))
    (hfew : es.length + bs.flatten.length < UInt32.size) :
    let s₀ := es₀.foldl IrqEvent.exec ⟨initPic p, fun _ => 0, handlers, [], []⟩
    let s := es.foldl IrqEvent.exec (idtResetIrqCounter n s₀)
    (∀ b s', idtWaitIrq n true timeout s bs = some (b, s') → ∃ l, s'.served = l ++ s₀.served ∧ (b = true ↔ n ∈ l) ∧
      (b = false → timeout ≠ 0 ∧ s.ticks + timeout ≤ s'.ticks)) ∧
    ∀ bs₁ bs₂, bs = bs₁ ++ bs₂ → 2 ≤ bs₂.length → ∀ l, (bs₁.flatten.foldl IrqEvent.exec s).served = l ++ s₀.served → n ∈ l →
      ∃ b s', idtWaitIrq n true timeout s bs = some (b, s') := by
  obtain ⟨t₀, hstart⟩ : ∃ t₀, es₀.foldl IrqEvent.exec ⟨initPic p, fun _ => 0, handlers, [], []⟩ = toPics t₀ := by
    rw [initPic_eq]
    exact ⟨_, foldl_exec ⟨fun _ => false, fun _ => 0, handlers, [], []⟩ es₀⟩
  simp only [hstart]
  have hresets : idtResetIrqCounter n (toPics t₀) = toPics { t₀ with counter := Function.update t₀.counter n 0 } := rfl
  generalize ht : { t₀ with counter := Function.update t₀.counter n 0 } = t at hresets
  have hreset : t.counter n = 0 := by
    rw [← ht]
    exact Function.update_self ..
  have hserved : t.served = t₀.served := by rw [← ht]
  obtain ⟨l₁, h₁⟩ := later_run t es
  rw [hresets, foldl_exec]
  refine ⟨fun b s' hres => ?_, fun bs₁ bs₂ hbs htwo l hl hmem => ?_⟩
  · obtain ⟨t', k', l', rfl, hl', hb, hfalse⟩ := waitLoop_spec hreset bs h₁ hfew hres
    refine ⟨l' ++ l₁, ?_, hb, fun hf => ?_⟩
    · change t'.served = _ ++ t₀.served
      rw [(h₁.trans hl').served, hserved]
    · obtain ⟨T, hT, hover⟩ := hfalse hf
      split at hT
      · rename_i htimeout
        exact ⟨htimeout, by rwa [← Option.some.inj hT] at hover⟩
      · cases hT
  · subst hbs
    refine exists_waitLoop hreset htwo bs₁ h₁ hfew ?_
    rw [foldl_exec] at hl
    obtain ⟨l₂, h₂⟩ := later_run (es.foldl Lines.step t) bs₁.flatten
    have hboth := h₁.trans h₂
    have heq : l = l₂ ++ l₁ := by
      rw [show (toPics (bs₁.flatten.foldl Lines.step (es.foldl Lines.step t))).served = (l₂ ++ l₁) ++ t₀.served by
        rw [← hserved]; exact hboth.served] at hl
      exact (List.append_cancel_right hl).symm
    have hlen : bs₁.flatten.length ≤ (bs₁ ++ bs₂).flatten.length := by
      rw [List.flatten_append, List.length_append]
      exact Nat.le_add_right _ _
    rw [hboth.counter_lt_iff hreset (by omega), not_not, ← heq]
    exact hmem

/-- The controllers before `init_idt`. -/
def offPics : Pics := ⟨⟨fun _ => true, fun _ => true, 0, true, 0, 0, 0⟩, ⟨fun _ => true, fun _ => true, 0, true, 0, 0, 0⟩⟩

theorem idtWaitIrq_complete_request :
    ∃ s', idtWaitIrq 14 true 0 (idtResetIrqCounter 14 ⟨initPic offPics, fun _ => 0, fun _ => true, [], []⟩)
      [[.request 14, .interrupt [] []], [], []] = some (true, s') ∧ 14 ∈ s'.served := by
  obtain ⟨hanswer, hreturns⟩ := idtWaitIrq_complete offPics (fun _ => true) [] [] 14 0 [[.request 14, .interrupt [] []], [], []] (by decide)
  obtain ⟨b, s', hres⟩ := hreturns [[.request 14, .interrupt [] []]] [[], []] rfl (by decide) [14] rfl (List.mem_singleton_self 14)
  obtain ⟨l, hl, hb, hfalse⟩ := hanswer b s' hres
  cases b with
  | false => exact absurd rfl (hfalse rfl).1
  | true =>
    refine ⟨s', hres, ?_⟩
    rw [hl]
    exact List.mem_append_left _ (hb.mp rfl)

end Kos
