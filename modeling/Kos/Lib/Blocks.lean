import Mathlib.Algebra.BigOperators.Group.List.Basic
import Mathlib.Algebra.Order.Ring.Nat
import Mathlib.Data.List.Pairwise
import Mathlib.Data.List.Perm.Basic
import Mathlib.Data.Set.Basic
import Mathlib.Tactic.Common

/-!
# Blocks of memory

A block is a run of bytes; `Separate` lists have no empty block and no two blocks with a byte in common. An allocator splits blocks,
leaves blocks out and adds blocks of new memory: all of this keeps a list separate, and `total` and `Covers` say what happens to the
memory that the list describes.
-/

namespace Kos

/-- A run of bytes. -/
structure Block where
  ptr : Nat
  size : Nat
  deriving DecidableEq, Repr

namespace Block

/-- The byte lies in the block. -/
def Has (b : Block) (x : Nat) : Prop := b.ptr ≤ x ∧ x < b.ptr + b.size

/-- The blocks have no byte in common. -/
def Disjoint (b c : Block) : Prop := ∀ x, b.Has x → ¬c.Has x

theorem Disjoint.symm {b c : Block} (h : b.Disjoint c) : c.Disjoint b := fun x hc hb => h x hb hc

instance : Std.Symm Block.Disjoint := ⟨fun _ _ h => h.symm⟩

/-- The first `n` bytes of a block. -/
def first (b : Block) (n : Nat) : Block := ⟨b.ptr, n⟩

/-- The bytes of a block after the first `n`. -/
def rest (b : Block) (n : Nat) : Block := ⟨b.ptr + n, b.size - n⟩

variable {b : Block} {n x : Nat}

theorem has_ptr (h : 0 < b.size) : b.Has b.ptr := ⟨Nat.le_refl _, by omega⟩

/-- The two parts of a block are the block. -/
theorem has_iff_parts (h : n ≤ b.size) : b.Has x ↔ (b.first n).Has x ∨ (b.rest n).Has x := by
  simp only [Has, first, rest]
  omega

theorem disjoint_parts (b : Block) (n : Nat) : (b.first n).Disjoint (b.rest n) := by
  intro x hx hx'
  simp only [Has, first, rest] at hx hx'
  omega

end Block

/-- No block is empty, and no two have a byte in common. -/
structure Separate (l : List Block) : Prop where
  pos : ∀ b ∈ l, 0 < b.size
  disjoint : l.Pairwise Block.Disjoint

/-- The byte lies in a block of the list. -/
def Covers (l : List Block) (x : Nat) : Prop := ∃ b ∈ l, b.Has x

/-- The number of bytes of the blocks. -/
def total (l : List Block) : Nat := (l.map Block.size).sum

namespace Separate

variable {l l' : List Block} {b c : Block} {n : Nat}

theorem perm (h : Separate l) (hp : l.Perm l') : Separate l' :=
  ⟨fun b hb => h.pos b (hp.mem_iff.mpr hb), h.disjoint.perm hp fun h => h.symm⟩

theorem sublist (h : Separate l) (hs : l'.Sublist l) : Separate l' :=
  ⟨fun b hb => h.pos b (hs.subset hb), h.disjoint.sublist hs⟩

/-- No two blocks begin at the same address. -/
theorem eq_of_ptr (h : Separate l) (hb : b ∈ l) (hc : c ∈ l) (hptr : b.ptr = c.ptr) : b = c := by
  by_contra hne
  exact h.disjoint.forall hb hc hne b.ptr (Block.has_ptr (h.pos b hb)) (hptr ▸ Block.has_ptr (h.pos c hc))

/-- No other block begins where the first one does. -/
theorem ptr_ne (h : Separate (b :: l)) (hc : c ∈ l) : b.ptr ≠ c.ptr := by
  intro hptr
  have hdis := (List.pairwise_cons.mp h.disjoint).1 c hc
  exact hdis b.ptr (Block.has_ptr (h.pos b List.mem_cons_self)) (hptr ▸ Block.has_ptr (h.pos c (List.mem_cons_of_mem b hc)))

/-- A block of new memory joins a list. -/
theorem cons (h : Separate l) (hb : 0 < b.size) (hnew : ∀ x, b.Has x → ¬Covers l x) : Separate (b :: l) := by
  refine ⟨?_, List.pairwise_cons.mpr ⟨fun c hc x hx hx' => hnew x hx ⟨c, hc, hx'⟩, h.disjoint⟩⟩
  intro c hc
  rcases List.mem_cons.mp hc with rfl | hc
  · exact hb
  · exact h.pos c hc

/-- A block is split into two. -/
theorem split (h : Separate (b :: l)) (hn : 0 < n) (hb : n < b.size) : Separate (b.first n :: b.rest n :: l) := by
  obtain ⟨hhead, htail⟩ := List.pairwise_cons.mp h.disjoint
  have hparts : ∀ x, b.Has x ↔ (b.first n).Has x ∨ (b.rest n).Has x := fun x => Block.has_iff_parts (Nat.le_of_lt hb)
  refine ⟨?_, ?_⟩
  · intro c hc
    rcases List.mem_cons.mp hc with rfl | hc
    · exact hn
    rcases List.mem_cons.mp hc with rfl | hc
    · exact Nat.sub_pos_of_lt hb
    · exact h.pos c (List.mem_cons_of_mem b hc)
  · refine List.pairwise_cons.mpr ⟨fun c hc => ?_, List.pairwise_cons.mpr ⟨fun c hc => ?_, htail⟩⟩
    · rcases List.mem_cons.mp hc with rfl | hc
      · exact b.disjoint_parts n
      · exact fun x hx => hhead c hc x ((hparts x).mpr (.inl hx))
    · exact fun x hx => hhead c hc x ((hparts x).mpr (.inr hx))

end Separate

section total

variable {l l' : List Block}

@[simp] theorem total_nil : total [] = 0 := rfl

@[simp] theorem total_cons (b : Block) (l : List Block) : total (b :: l) = b.size + total l := by simp [total]

@[simp] theorem total_append (l l' : List Block) : total (l ++ l') = total l + total l' := by simp [total]

theorem total_perm (h : l.Perm l') : total l = total l' := (h.map Block.size).sum_eq

theorem total_take_add_drop (k : Nat) (l : List Block) : total (l.take k) + total (l.drop k) = total l := by
  rw [← total_append, List.take_append_drop]

theorem total_eq_zero (h : Separate l) : total l = 0 ↔ l = [] := by
  cases l with
  | nil => simp
  | cons b l =>
    have := h.pos b (List.mem_cons_self ..)
    simp only [total_cons, reduceCtorEq, iff_false]
    omega

end total

section Covers

variable {l l' : List Block} {b : Block} {x n : Nat}

theorem Covers.perm (h : l.Perm l') : Covers l x ↔ Covers l' x := by
  simp only [Covers, h.mem_iff]

theorem Covers.sublist (h : l.Sublist l') (hx : Covers l x) : Covers l' x := by
  obtain ⟨b, hb, hbx⟩ := hx
  exact ⟨b, h.subset hb, hbx⟩

@[simp] theorem covers_cons : Covers (b :: l) x ↔ b.Has x ∨ Covers l x := by simp [Covers]

@[simp] theorem covers_append : Covers (l ++ l') x ↔ Covers l x ∨ Covers l' x := by
  simp [Covers, or_and_right, exists_or]

theorem covers_map {α : Type*} (f : α → Block) (l : List α) : Covers (l.map f) x ↔ ∃ a ∈ l, (f a).Has x := by
  simp [Covers]

theorem covers_take_or_drop (k : Nat) : Covers l x ↔ Covers (l.take k) x ∨ Covers (l.drop k) x := by
  rw [← covers_append, List.take_append_drop]

theorem covers_split (h : n ≤ b.size) : Covers (b.first n :: b.rest n :: l) x ↔ Covers (b :: l) x := by
  simp only [covers_cons, Block.has_iff_parts h, or_assoc]

end Covers

end Kos
