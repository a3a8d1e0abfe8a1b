import Mathlib.Data.Set.Basic
import Kos.Lib.Blocks

/-!
# The heap as two lists of blocks

What `kmalloc` and `kfree` do, without nodes and pointers. A block is allocated from the first free block that is large enough, which
is split if it is larger, or from new memory. The descriptor for the other part of a block, and those for new memory, are taken from
the front of the free list while there are any: the blocks that they described are left out of the heap.
-/

namespace Kos

/-- The blocks in use, the free blocks, the ranges that the memory came from, and the bytes that the kernel's memory has handed out. -/
structure Heap where
  used : List Block
  free : List Block
  obtained : List Block
  given : Set Nat

/-- All blocks of the heap. -/
def Heap.all (h : Heap) : List Block := h.used ++ h.free

/-- An allocation of `size` bytes: where they are, and the heap afterwards. -/
inductive HeapAlloc (h : Heap) (size : Nat) : Nat → Heap → Prop where
  | whole {l₁ l₂ : List Block} {b : Block} (hfree : h.free = l₁ ++ b :: l₂) (hfirst : ∀ c ∈ l₁, c.size < size)
      (hsize : b.size = size) : HeapAlloc h size b.ptr { h with used := b :: h.used, free := l₁ ++ l₂ }
  | split {l₁ l₂ : List Block} {b : Block} (hfree : h.free = l₁ ++ b :: l₂) (hfirst : ∀ c ∈ l₁, c.size < size)
      (hsize : size < b.size) {given : Set Nat} (hgiven : h.given ⊆ given) :
      HeapAlloc h size b.ptr ⟨b.first size :: h.used, b.rest size :: (l₁ ++ l₂).tail, h.obtained, given⟩
  | new {b : Block} (hfree : ∀ c ∈ h.free, c.size < size) (hsize : b.size = size) {given : Set Nat} (hpos : 0 < b.ptr)
      (hend : b.ptr + b.size ≤ 4294967296) (hnew : ∀ x, b.Has x → x ∉ h.given ∧ x ∈ given) (hgiven : h.given ⊆ given) :
      HeapAlloc h size b.ptr ⟨b :: h.used, h.free.tail, b :: h.obtained, given⟩
  | newSplit {b : Block} (hfree : ∀ c ∈ h.free, c.size < size) (hsize : size < b.size) {given : Set Nat} (hpos : 0 < b.ptr)
      (hend : b.ptr + b.size ≤ 4294967296) (hnew : ∀ x, b.Has x → x ∉ h.given ∧ x ∈ given) (hgiven : h.given ⊆ given) :
      HeapAlloc h size b.ptr ⟨b.first size :: h.used, b.rest size :: h.free.tail.tail, b :: h.obtained, given⟩

/-- An allocation of any number of bytes; no bytes are at the null pointer. -/
inductive HeapMalloc (h : Heap) (size : Nat) : Nat → Heap → Prop where
  | nothing (hsize : size = 0) : HeapMalloc h size 0 h
  | alloc {p : Nat} {h' : Heap} (hsize : 0 < size) (ha : HeapAlloc h size p h') : HeapMalloc h size p h'

/-- A block is freed by its address, if there is one there. -/
inductive HeapFree (h : Heap) (ptr : Nat) : Heap → Prop where
  | found {l₁ l₂ : List Block} {b : Block} (hused : h.used = l₁ ++ b :: l₂) (hptr : b.ptr = ptr) :
      HeapFree h ptr { h with used := l₁ ++ l₂, free := b :: h.free }
  | missing (hused : ∀ b ∈ h.used, b.ptr ≠ ptr) : HeapFree h ptr h

/-- A reallocation: to a block of the given size, or to none; the old block, if there is one, is freed afterwards. -/
inductive HeapRealloc (h : Heap) (ptr size : Nat) : Nat → Heap → Prop where
  | nothing (hsize : ptr = 0 → size = 0) (hused : ∀ b ∈ h.used, b.ptr ≠ ptr) : HeapRealloc h ptr size 0 h
  | alloc {p : Nat} {h' : Heap} (hptr : ptr = 0) (hsize : 0 < size) (ha : HeapAlloc h size p h') : HeapRealloc h ptr size p h'
  | free {h' : Heap} (hsize : size = 0) (hf : HeapFree h ptr h') : HeapRealloc h ptr size 0 h'
  | move {p : Nat} {h₁ h' : Heap} {b : Block} (hsize : 0 < size) (hb : b ∈ h.used) (hptr : b.ptr = ptr)
      (ha : HeapAlloc h size p h₁) (hf : HeapFree h₁ ptr h') : HeapRealloc h ptr size p h'

/-- The blocks are separate, not at address 0, and lie in memory that was handed out. -/
structure BlocksOk (l : List Block) (given : Set Nat) : Prop where
  separate : Separate l
  ptr_pos : ∀ b ∈ l, 0 < b.ptr
  inside : ∀ b ∈ l, b.ptr + b.size ≤ 4294967296
  given : ∀ x, Covers l x → x ∈ given

/-- The heap's blocks are as they should be. -/
def Heap.Ok (h : Heap) : Prop := BlocksOk h.all h.given

/-- The heap describes all the memory that it got, and as many bytes. -/
structure Heap.Conserves (h : Heap) : Prop where
  total : Kos.total h.all = Kos.total h.obtained
  covers : ∀ x, Covers h.obtained x → Covers h.all x

/-- An allocation of `size` bytes needs no descriptor of another free block. -/
def Heap.Keeps (h : Heap) (size : Nat) : Prop :=
  h.free = [] ∨ ∃ b, h.free.find? (fun c => size ≤ c.size) = some b ∧ (b.size = size ∨ h.free.length = 1)

namespace BlocksOk

variable {l l' : List Block} {given given' : Set Nat} {b : Block} {n : Nat}

theorem perm (h : BlocksOk l given) (hp : l.Perm l') : BlocksOk l' given :=
  ⟨h.separate.perm hp, fun b hb => h.ptr_pos b (hp.mem_iff.mpr hb), fun b hb => h.inside b (hp.mem_iff.mpr hb),
    fun x hx => h.given x ((Covers.perm hp).mpr hx)⟩

theorem sublist (h : BlocksOk l given) (hs : l'.Sublist l) : BlocksOk l' given :=
  ⟨h.separate.sublist hs, fun b hb => h.ptr_pos b (hs.subset hb), fun b hb => h.inside b (hs.subset hb),
    fun x hx => h.given x (hx.sublist hs)⟩

/-- New memory joins the blocks. -/
theorem cons (h : BlocksOk l given) (hb : 0 < b.size) (hpos : 0 < b.ptr) (hend : b.ptr + b.size ≤ 4294967296)
    (hnew : ∀ x, b.Has x → x ∉ given ∧ x ∈ given') (hsub : given ⊆ given') : BlocksOk (b :: l) given' := by
  refine ⟨h.separate.cons hb fun x hx hc => (hnew x hx).1 (h.given x hc), List.forall_mem_cons.mpr ⟨hpos, h.ptr_pos⟩,
    List.forall_mem_cons.mpr ⟨hend, h.inside⟩, fun x hx => ?_⟩
  rcases covers_cons.mp hx with hx | hx
  · exact (hnew x hx).2
  · exact hsub (h.given x hx)

/-- A block is split into two. -/
theorem split (h : BlocksOk (b :: l) given) (hn : 0 < n) (hb : n < b.size) : BlocksOk (b.first n :: b.rest n :: l) given := by
  obtain ⟨hpos, hpos'⟩ := List.forall_mem_cons.mp h.ptr_pos
  obtain ⟨hend, hend'⟩ := List.forall_mem_cons.mp h.inside
  refine ⟨h.separate.split hn hb, ?_, ?_, fun x hx => h.given x ((covers_split (Nat.le_of_lt hb)).mp hx)⟩
  · exact List.forall_mem_cons.mpr ⟨hpos, List.forall_mem_cons.mpr ⟨Nat.add_pos_left hpos n, hpos'⟩⟩
  · refine List.forall_mem_cons.mpr ⟨?_, List.forall_mem_cons.mpr ⟨?_, hend'⟩⟩
    · exact Nat.le_trans (Nat.add_le_add_left (Nat.le_of_lt hb) _) hend
    · simp only [Block.rest]
      omega

end BlocksOk

namespace HeapAux

variable {h h' : Heap} {size ptr : Nat} {l₁ l₂ used kept : List Block} {b : Block}

/-- A free block, before the others. -/
theorem all_perm (hfree : h.free = l₁ ++ b :: l₂) : h.all.Perm (b :: (h.used ++ (l₁ ++ l₂))) := by
  rw [Heap.all, hfree, ← List.append_assoc, ← List.append_assoc]
  exact List.perm_middle

/-- A block goes to the used ones, and the free ones are thinned out. -/
theorem carve_whole {given : Set Nat} (h : BlocksOk (b :: (used ++ l₁)) given) (hk : kept.Sublist l₁) :
    BlocksOk ((b :: used) ++ kept) given :=
  h.sublist (((List.Sublist.refl used).append hk).cons_cons b)

/-- The first part of a block goes to the used ones and the rest to the free ones, which are thinned out. -/
theorem carve_split {given : Set Nat} (h : BlocksOk (b :: (used ++ l₁)) given) (hn : 0 < size) (hb : size < b.size)
    (hk : kept.Sublist l₁) : BlocksOk ((b.first size :: used) ++ (b.rest size :: kept)) given := by
  have hsub := (h.split hn hb).sublist ((((List.Sublist.refl used).append hk).cons_cons (b.rest size)).cons_cons (b.first size))
  exact hsub.perm (List.perm_middle.symm.cons (b.first size))

theorem find?_first (hfree : h.free = l₁ ++ b :: l₂) (hfirst : ∀ c ∈ l₁, c.size < size) (hb : size ≤ b.size) :
    h.free.find? (fun c => size ≤ c.size) = some b := by
  have hnone : l₁.find? (fun c => size ≤ c.size) = none := by
    rw [List.find?_eq_none]
    intro c hc
    simpa using hfirst c hc
  rw [hfree, List.find?_append, hnone, Option.none_or, List.find?_cons_of_pos (by simpa using hb)]

theorem keeps_of_larger (hne : h.free ≠ []) (hfind : h.free.find? (fun c => size ≤ c.size) = some b) (hb : size < b.size) :
    h.Keeps size ↔ h.free.length = 1 := by
  simp [Heap.Keeps, hne, hfind, Nat.ne_of_gt hb]

theorem keeps_of_small (hfree : ∀ c ∈ h.free, c.size < size) : h.Keeps size ↔ h.free = [] := by
  have hnone : h.free.find? (fun c => size ≤ c.size) = none := by
    rw [List.find?_eq_none]
    intro c hc
    simpa using hfree c hc
  simp [Heap.Keeps, hnone]

theorem take_succ_eq_nil {l : List Block} {k : Nat} : l.take (k + 1) = [] ↔ l = [] := by simp

end HeapAux

open HeapAux

/-- An allocation keeps the blocks as they should be. -/
theorem HeapAlloc.ok {h h' : Heap} {size ptr : Nat} (ha : HeapAlloc h size ptr h') (hs : 0 < size) (hok : h.Ok) : h'.Ok := by
  cases ha with
  | whole hfree hfirst hsize => exact carve_whole (hok.perm (all_perm hfree)) (.refl _)
  | split hfree hfirst hsize hgiven =>
    have hcarved := carve_split (hok.perm (all_perm hfree)) hs hsize (List.tail_sublist _)
    exact { hcarved with given := fun x hx => hgiven (hcarved.given x hx) }
  | new hfree hsize hpos hend hnew hgiven =>
    exact carve_whole (hok.cons (hsize ▸ hs) hpos hend hnew hgiven) (List.tail_sublist _)
  | newSplit hfree hsize hpos hend hnew hgiven =>
    exact carve_split (hok.cons (Nat.zero_lt_of_lt hsize) hpos hend hnew hgiven) hs hsize
      ((List.tail_sublist _).trans (List.tail_sublist _))

/-- What is allocated is not at the null pointer. -/
theorem HeapAlloc.ptr_pos {h h' : Heap} {size ptr : Nat} (ha : HeapAlloc h size ptr h') (hok : h.Ok) : 0 < ptr := by
  cases ha with
  | whole hfree hfirst hsize | split hfree hfirst hsize hgiven =>
    refine BlocksOk.ptr_pos hok _ (List.mem_append_right _ ?_)
    rw [hfree]
    exact List.mem_append_right _ (List.mem_cons_self ..)
  | new hfree hsize hpos hend hnew hgiven | newSplit hfree hsize hpos hend hnew hgiven => exact hpos

/-- The block that was allocated is the first of those in use. -/
theorem HeapAlloc.used_eq {h h' : Heap} {size ptr : Nat} (ha : HeapAlloc h size ptr h') : h'.used = ⟨ptr, size⟩ :: h.used := by
  cases ha with
  | whole hfree hfirst hsize => rw [← hsize]
  | split hfree hfirst hsize hgiven => rfl
  | new hfree hsize hpos hend hnew hgiven => rw [← hsize]
  | newSplit hfree hsize hpos hend hnew hgiven => rfl

theorem HeapMalloc.alloc_of_pos {h h' : Heap} {size ptr : Nat} (hm : HeapMalloc h size ptr h') (hs : size ≠ 0) :
    HeapAlloc h size ptr h' := by
  cases hm with
  | nothing hsize => exact absurd hsize hs
  | alloc hsize ha => exact ha

/-- Freeing moves a block from one list to the other. -/
theorem HeapFree.all_perm {h h' : Heap} {ptr : Nat} (hf : HeapFree h ptr h') : h.all.Perm h'.all := by
  cases hf with
  | @found l₁ l₂ b hused hptr =>
    rw [Heap.all, Heap.all, hused]
    have hleft : (l₁ ++ b :: l₂ ++ h.free).Perm (b :: (l₁ ++ l₂ ++ h.free)) := List.perm_middle.append_right h.free
    exact hleft.trans List.perm_middle.symm
  | missing hused => exact .refl _

theorem HeapFree.given_eq {h h' : Heap} {ptr : Nat} (hf : HeapFree h ptr h') : h'.given = h.given := by
  cases hf <;> rfl

theorem HeapFree.obtained_eq {h h' : Heap} {ptr : Nat} (hf : HeapFree h ptr h') : h'.obtained = h.obtained := by
  cases hf <;> rfl

/-- Freeing keeps the blocks as they should be. -/
theorem HeapFree.ok {h h' : Heap} {ptr : Nat} (hf : HeapFree h ptr h') (hok : h.Ok) : h'.Ok := by
  unfold Heap.Ok
  rw [hf.given_eq]
  exact BlocksOk.perm hok hf.all_perm

/-- Freeing loses no memory. -/
theorem HeapFree.conserves_iff {h h' : Heap} {ptr : Nat} (hf : HeapFree h ptr h') : h'.Conserves ↔ h.Conserves := by
  have htotal := total_perm hf.all_perm
  have hcovers : ∀ x, Covers h.all x ↔ Covers h'.all x := fun x => Covers.perm hf.all_perm
  constructor
  · intro hc
    refine ⟨by rw [htotal, hc.total, hf.obtained_eq], fun x hx => (hcovers x).mpr (hc.covers x ?_)⟩
    rwa [hf.obtained_eq]
  · intro hc
    refine ⟨by rw [← htotal, hc.total, hf.obtained_eq], fun x hx => (hcovers x).mp (hc.covers x ?_)⟩
    rwa [← hf.obtained_eq]

/-- Freeing leaves the blocks at other addresses in use. -/
theorem HeapFree.mem_used {h h' : Heap} {ptr : Nat} {b : Block} (hf : HeapFree h ptr h') (hb : b ∈ h.used) (hptr : b.ptr ≠ ptr) :
    b ∈ h'.used := by
  cases hf with
  | @found l₁ l₂ c hused hc =>
    rw [hused, List.mem_append, List.mem_cons] at hb
    have hne : b ≠ c := fun he => hptr (he ▸ hc)
    simpa [hne] using hb
  | missing hused => exact hb

/-! ## What an allocation loses -/

/-- The free blocks that an allocation leaves out are none exactly when it needs no descriptor of another free block; with them, no
memory is lost. -/
theorem HeapAlloc.account {h h' : Heap} {size ptr : Nat} (ha : HeapAlloc h size ptr h') :
    ∃ lost, lost.Sublist h.free ∧ (lost = [] ↔ h.Keeps size) ∧
      total h'.all + total lost + total h.obtained = total h.all + total h'.obtained ∧
      (∀ x, Covers h'.obtained x → Covers h.obtained x ∨ Covers h'.all x) ∧
      ∀ x, Covers h.all x → Covers h'.all x ∨ Covers lost x := by
  cases ha with
  | @whole l₁ l₂ b hfree hfirst hsize =>
    have hperm := all_perm hfree
    refine ⟨[], List.nil_sublist _, ?_, ?_, fun x hx => .inl hx, fun x hx => .inl ?_⟩
    · exact ⟨fun _ => .inr ⟨b, find?_first hfree hfirst (Nat.le_of_eq hsize.symm), .inl hsize⟩, fun _ => rfl⟩
    · rw [total_perm hperm]
      simp [Heap.all]
    · exact (Covers.perm hperm).mp hx
  | @split l₁ l₂ b hfree hfirst hsize given hgiven =>
    have hperm := all_perm hfree
    refine ⟨(l₁ ++ l₂).take 1, ?_, ?_, ?_, fun x hx => .inl hx, fun x hx => ?_⟩
    · rw [hfree]
      exact (List.take_sublist 1 _).trans ((List.Sublist.refl l₁).append (List.sublist_cons_self b l₂))
    · have hfind := find?_first hfree hfirst (Nat.le_of_lt hsize)
      have hlen : h.free.length = (l₁ ++ l₂).length + 1 := by rw [hfree]; simp; omega
      have hne : h.free ≠ [] := by rw [hfree]; simp
      rw [keeps_of_larger hne hfind hsize, hlen, take_succ_eq_nil, ← List.length_eq_zero_iff, Nat.add_eq_right]
    · have hsum := total_take_add_drop 1 (l₁ ++ l₂)
      rw [total_perm hperm]
      simp only [Heap.all, List.cons_append, total_cons, total_append, Block.first, Block.rest, ← List.drop_one] at hsum ⊢
      omega
    · have hx := (Covers.perm hperm).mp hx
      rw [covers_cons, covers_append, Block.has_iff_parts (Nat.le_of_lt hsize), covers_take_or_drop 1 (l := l₁ ++ l₂)] at hx
      simp only [Heap.all, List.cons_append, covers_cons, covers_append, ← List.drop_one]
      tauto
  | @new b hfree hsize given hpos hend hnew hgiven =>
    refine ⟨h.free.take 1, List.take_sublist 1 _, ?_, ?_, fun x hx => ?_, fun x hx => ?_⟩
    · rw [keeps_of_small hfree, take_succ_eq_nil]
    · have hsum := total_take_add_drop 1 h.free
      simp only [Heap.all, List.cons_append, total_cons, total_append, ← List.drop_one] at hsum ⊢
      omega
    · simp only [Heap.all, List.cons_append, covers_cons] at hx ⊢
      tauto
    · rw [Heap.all, covers_append, covers_take_or_drop 1 (l := h.free)] at hx
      simp only [Heap.all, List.cons_append, covers_cons, covers_append, ← List.drop_one]
      tauto
  | @newSplit b hfree hsize given hpos hend hnew hgiven =>
    have hdrop : h.free.tail.tail = h.free.drop 2 := by rw [← List.drop_one, ← List.drop_one, List.drop_drop]
    rw [hdrop]
    refine ⟨h.free.take 2, List.take_sublist 2 _, ?_, ?_, fun x hx => ?_, fun x hx => ?_⟩
    · rw [keeps_of_small hfree, take_succ_eq_nil]
    · have hsum := total_take_add_drop 2 h.free
      simp only [Heap.all, List.cons_append, total_cons, total_append, Block.first, Block.rest] at hsum ⊢
      omega
    · rw [covers_cons, Block.has_iff_parts (Nat.le_of_lt hsize)] at hx
      simp only [Heap.all, List.cons_append, covers_cons, covers_append]
      tauto
    · rw [Heap.all, covers_append, covers_take_or_drop 2 (l := h.free)] at hx
      simp only [Heap.all, List.cons_append, covers_cons, covers_append]
      tauto

/-- An allocation loses no memory exactly when it needs no descriptor of another free block. -/
theorem HeapAlloc.conserves_iff {h h' : Heap} {size ptr : Nat} (ha : HeapAlloc h size ptr h') (hok : h.Ok) (hc : h.Conserves) :
    h'.Conserves ↔ h.Keeps size := by
  obtain ⟨lost, hsub, hkeeps, htotal, hobt, hcov⟩ := ha.account
  have hsep : Separate lost := hok.separate.sublist (hsub.trans (List.sublist_append_right h.used h.free))
  have htot := hc.total
  rw [← hkeeps]
  constructor
  · intro hc'
    have htot' := hc'.total
    exact (total_eq_zero hsep).mp (by omega)
  · rintro rfl
    refine ⟨by rw [total_nil] at htotal; omega, fun x hx => ?_⟩
    rcases hobt x hx with hx | hx
    · exact (hcov x (hc.covers x hx)).resolve_right (by simp [Covers])
    · exact hx

end Kos
