import Mathlib.Logic.Function.Basic
import Mathlib.Data.List.Nodup
import Mathlib.Data.List.TakeWhile

/-!
# Singly linked lists

A list that is threaded through its elements by a function `next`, where `none` is the null pointer. `Links` says what following
`next` visits; `IsQueue` adds a pointer to the last element. The operations on the pointers are those of an intrusive queue:
appending at the end, unlinking an element found by walking from the head, and moving the head to the end.
-/

namespace Kos

variable {α : Type*}

/-- Following `next` from `p` visits exactly the elements of the list, in this order, and then ends. -/
def Links (next : α → Option α) : Option α → List α → Prop
  | p, [] => p = none
  | p, a :: l => p = some a ∧ Links next (next a) l

namespace Links

variable {next next' : α → Option α} {p : Option α} {l l' : List α} {a b : α}

@[simp] theorem nil_iff : Links next p [] ↔ p = none := Iff.rfl

@[simp] theorem cons_iff : Links next p (a :: l) ↔ p = some a ∧ Links next (next a) l := Iff.rfl

theorem head_eq (h : Links next p l) : p = l.head? := by
  cases l with
  | nil => exact h
  | cons a l => exact h.1

/-- What is visited is determined by the pointers. -/
theorem unique (h : Links next p l) (h' : Links next p l') : l = l' := by
  induction l generalizing p l' with
  | nil =>
    cases l' with
    | nil => rfl
    | cons b l' => exact absurd (h.symm.trans h'.1) (Option.some_ne_none b).symm
  | cons a l ih =>
    cases l' with
    | nil => exact absurd (h.1.symm.trans h') (Option.some_ne_none a)
    | cons b l' =>
      obtain ⟨rfl, hl⟩ := h
      obtain ⟨hb, hl'⟩ := h'
      cases hb
      rw [ih hl hl']

/-- Only the pointers of the elements matter. -/
theorem congr (h : Links next p l) (hn : ∀ a ∈ l, next' a = next a) : Links next' p l := by
  induction l generalizing p with
  | nil => exact h
  | cons a l ih =>
    refine ⟨h.1, ?_⟩
    rw [hn a (List.mem_cons_self ..)]
    exact ih h.2 fun b hb => hn b (List.mem_cons_of_mem a hb)

/-- From an element on, the rest of the list is visited. -/
theorem drop {l₁ l₂ : List α} (h : Links next p (l₁ ++ a :: l₂)) : Links next (next a) l₂ := by
  induction l₁ generalizing p with
  | nil => exact h.2
  | cons b l₁ ih => exact ih h.2

variable [DecidableEq α]

/-- Changing the pointer of an element exchanges what comes after it. -/
theorem replace {l₁ l₂ : List α} {q : Option α} (h : Links next p (l₁ ++ b :: l)) (hb : b ∉ l₁) (hb' : b ∉ l₂)
    (h₂ : Links next q l₂) : Links (Function.update next b q) p (l₁ ++ b :: l₂) := by
  induction l₁ generalizing p with
  | nil =>
    refine ⟨h.1, ?_⟩
    rw [Function.update_self]
    refine h₂.congr fun c hc => Function.update_of_ne ?_ _ _
    exact fun hcb => hb' (hcb ▸ hc)
  | cons c l₁ ih =>
    obtain ⟨hc, hb⟩ := not_or.mp (mt List.mem_cons.mpr hb)
    refine ⟨h.1, ?_⟩
    rw [Function.update_of_ne (Ne.symm hc)]
    exact ih h.2 hb

/-- A new first element points to what was first. -/
theorem insertFirst (h : Links next p l) (ha : a ∉ l) : Links (Function.update next a p) (some a) (a :: l) := by
  refine ⟨rfl, ?_⟩
  rw [Function.update_self]
  refine h.congr ?_
  intro b hb
  refine Function.update_of_ne ?_ _ _
  exact fun he => ha (he ▸ hb)

/-- A new element after `b` points to what came after `b`. -/
theorem insertAfter {l₁ l₂ : List α} (h : Links next p (l₁ ++ b :: l₂)) (hnd : (l₁ ++ b :: l₂).Nodup) (ha : a ∉ l₁ ++ b :: l₂) :
    Links (Function.update (Function.update next a (next b)) b (some a)) p (l₁ ++ b :: a :: l₂) := by
  obtain ⟨ha₁, hab, ha₂⟩ : a ∉ l₁ ∧ a ≠ b ∧ a ∉ l₂ := by simpa [not_or] using ha
  obtain ⟨hb₁, hb₂⟩ : b ∉ l₁ ∧ b ∉ l₂ := by simpa [not_or] using (List.nodup_cons.mp (List.nodup_middle.mp hnd)).1
  have hrest : Links (Function.update next a (next b)) (some a) (a :: l₂) := h.drop.insertFirst ha₂
  have hlist : Links (Function.update next a (next b)) p (l₁ ++ b :: l₂) := by
    refine h.congr ?_
    intro c hc
    refine Function.update_of_ne ?_ _ _
    exact fun he => ha (he ▸ hc)
  exact hlist.replace hb₁ (by simpa [not_or] using ⟨hab.symm, hb₂⟩) hrest

/-- Unlinking an element: its predecessor points to what comes after it. -/
theorem unlink {l₁ l₂ : List α} (h : Links next p (l₁ ++ a :: l₂)) (hnd : (l₁ ++ l₂).Nodup) (hb : l₁.getLast? = some b) :
    Links (Function.update next b (next a)) p (l₁ ++ l₂) := by
  obtain ⟨l₀, rfl⟩ := List.getLast?_eq_some_iff.mp hb
  have hsplit := List.nodup_append.mp hnd
  have hb₁ : b ∉ l₀ := fun hm => (List.nodup_append.mp hsplit.1).2.2 b hm b (List.mem_singleton_self b) rfl
  have hb₂ : b ∉ l₂ := fun hm => hsplit.2.2 b (by simp) b hm rfl
  have hrest := h.drop
  rw [List.append_assoc] at h ⊢
  exact h.replace hb₁ hb₂ hrest

end Links

/-! ## Walking to an element -/

/-- `while (cur && !stop(cur)) { prev = cur; cur = cur->next; }`: the pointers `prev` and `cur` at the end of the loop, if it ends
within the given number of rounds. -/
def walkTo (next : α → Option α) (stop : α → Bool) : Nat → Option α → Option α → Option (Option α × Option α)
  | _, prev, none => some (prev, none)
  | fuel, prev, some c =>
    if stop c then some (prev, some c)
    else
      match fuel with
      | 0 => none
      | fuel + 1 => walkTo next stop fuel (some c) (next c)

/-- The walk stops at the first element that it is to stop at, if there is one, with the one before it. -/
theorem walkTo_of_links {next : α → Option α} (stop : α → Bool) {l₁ l₂ : List α} {p : Option α} {fuel : Nat}
    (h : Links next p (l₁ ++ l₂)) (h₁ : ∀ a ∈ l₁, stop a = false) (h₂ : ∀ a, l₂.head? = some a → stop a = true)
    (prev : Option α) (hf : l₁.length ≤ fuel) : walkTo next stop fuel prev p = some (l₁.getLast?.or prev, l₂.head?) := by
  induction l₁ generalizing p prev fuel with
  | nil =>
    have hp : p = l₂.head? := h.head_eq
    cases l₂ with
    | nil =>
      subst hp
      cases fuel <;> rfl
    | cons a l₂ =>
      subst hp
      have ha := h₂ a rfl
      cases fuel <;> simp [walkTo, ha]
  | cons c l₁ ih =>
    obtain ⟨fuel, rfl⟩ : ∃ n, fuel = n + 1 := Nat.exists_eq_succ_of_ne_zero (by rw [List.length_cons] at hf; omega)
    obtain ⟨rfl, h⟩ := h
    have hc := h₁ c (List.mem_cons_self ..)
    simp only [walkTo, hc, Bool.false_eq_true, if_false]
    rw [ih h (fun a ha => h₁ a (List.mem_cons_of_mem c ha)) (some c) (Nat.le_of_succ_le_succ hf)]
    cases hl : l₁.getLast? with
    | none =>
      rw [List.getLast?_eq_none_iff.mp hl]
      rfl
    | some d => simp [List.getLast?_cons, hl]

/-- A walk over a list that is not longer than the number of rounds ends: it splits the list before the element it stops at. -/
theorem exists_walkTo {next : α → Option α} (stop : α → Bool) {l : List α} {p : Option α} {fuel : Nat} (h : Links next p l)
    (hf : l.length ≤ fuel) :
    ∃ l₁ l₂, l = l₁ ++ l₂ ∧ (∀ a ∈ l₁, stop a = false) ∧ (∀ a, l₂.head? = some a → stop a = true) ∧
      walkTo next stop fuel none p = some (l₁.getLast?, l₂.head?) := by
  have hsplit : l.takeWhile (!stop ·) ++ l.dropWhile (!stop ·) = l := List.takeWhile_append_dropWhile
  have h₁ : ∀ a ∈ l.takeWhile (!stop ·), stop a = false := by
    intro a ha
    simpa using List.mem_takeWhile_imp ha
  have h₂ : ∀ a, (l.dropWhile (!stop ·)).head? = some a → stop a = true := by
    intro a ha
    have := List.head?_dropWhile_not (!stop ·) l
    rw [ha] at this
    simpa using this
  refine ⟨_, _, hsplit.symm, h₁, h₂, ?_⟩
  rw [walkTo_of_links stop (hsplit.symm ▸ h) h₁ h₂ none, Option.or_none]
  exact Nat.le_trans (List.takeWhile_prefix _).length_le hf

/-! ## Queues -/

/-- A linked list with a pointer to its last element; no element occurs twice. -/
structure IsQueue (next : α → Option α) (head tail : Option α) (l : List α) : Prop where
  links : Links next head l
  tail_eq : tail = l.getLast?
  nodup : l.Nodup

namespace IsQueue

variable [DecidableEq α] {next : α → Option α} {head tail : Option α} {l : List α} {a t : α}

/-- The first element of an empty queue. -/
theorem enqueue_nil (next : α → Option α) (a : α) : IsQueue (Function.update next a none) (some a) (some a) [a] :=
  ⟨⟨rfl, by simp⟩, rfl, List.nodup_singleton a⟩

/-- Appending behind the last element. -/
theorem enqueue (h : IsQueue next head (some t) l) (ha : a ∉ l) :
    IsQueue (Function.update (Function.update next t (some a)) a none) head (some a) (l ++ [a]) := by
  obtain ⟨l', rfl⟩ := List.getLast?_eq_some_iff.mp h.tail_eq.symm
  have hnd := h.nodup
  have ht : t ∉ l' := fun ht => (List.nodup_append.mp hnd).2.2 t ht t (List.mem_singleton_self t) rfl
  have hat : a ≠ t := fun he => ha (by simp [he])
  refine ⟨?_, by simp, List.nodup_append.mpr ⟨hnd, List.nodup_singleton a, ?_⟩⟩
  · have hend : Links (Function.update next a none) (some a) [a] := ⟨rfl, by simp⟩
    have hlinks : Links (Function.update next a none) head (l' ++ [t]) := by
      refine h.links.congr fun b hb => Function.update_of_ne ?_ _ _
      exact fun he => ha (he ▸ hb)
    rw [Function.update_comm hat.symm, List.append_assoc]
    exact hlinks.replace ht (by simpa using hat.symm) hend
  · intro b hb c hc hbc
    rw [List.mem_singleton.mp hc] at hbc
    exact ha (hbc ▸ hb)

/-- Moving the head to the end. -/
theorem rotate (h : IsQueue next (some a) (some t) (a :: l)) :
    IsQueue (Function.update (Function.update next t (some a)) a none) (Function.update next t (some a) a) (some a) (l ++ [a]) := by
  have hnd := List.nodup_cons.mp h.nodup
  cases hl : l.getLast? with
  | none =>
    obtain rfl := List.getLast?_eq_none_iff.mp hl
    have hta : t = a := by simpa using h.tail_eq
    subst hta
    rw [Function.update_self]
    exact enqueue_nil _ t
  | some u =>
    have htail : some t = l.getLast? := by
      rw [h.tail_eq]
      simp [List.getLast?_cons, hl]
    have hta : a ≠ t := by
      rintro rfl
      exact hnd.1 (List.mem_of_getLast? htail.symm)
    rw [Function.update_of_ne hta]
    exact IsQueue.enqueue ⟨h.links.2, htail, hnd.2⟩ hnd.1

end IsQueue

end Kos
