import Kos.Theorems.Heap

/-!
# The memory of the heap

`create_node` takes the node of a new block from the front of the free list, and what that node described is forgotten. An allocation
therefore loses memory unless it takes a free block whole, or splits the only free block, or there is no free block
(`conserved_of_keepsFree`).
-/

namespace Kos

variable {κ : Type}

/-- Every byte that `kmallocu` has obtained lies in the block of a node, and the sizes of the nodes add up to the bytes obtained. -/
def Kheap.Conserved (h : Kheap κ) : Prop :=
  ∃ used free, Links h.next (h.heads .used) used ∧ Links h.next (h.heads .free) free ∧
    ((used ++ free).map fun a => (h.nodes a).size).sum = (h.obtained.map Block.size).sum ∧
    ∀ x, (∃ b ∈ h.obtained, b.Has x) → ∃ a ∈ used ++ free, (h.block a).Has x

/-- An allocation of `size` bytes needs no node of another free block: there is no free block, or the first one that is large enough
has this size, or it is the only free block. -/
def Kheap.NoLoss (h : Kheap κ) (size : Nat) : Prop :=
  ∃ free, Links h.next (h.heads .free) free ∧
    (free = [] ∨ ∃ a, free.find? (fun a => size ≤ (h.nodes a).size) = some a ∧ ((h.nodes a).size = size ∨ free.length = 1))

/-- The number of bytes that a call allocates, if it allocates: `krealloc` does so only with the null pointer or a block in use. -/
def HeapCall.Takes (h : Kheap κ) : HeapCall → Nat → Prop
  | .malloc size, n => n = size.toNat
  | .calloc num size, n => n = w32 (num.toNat * size.toNat)
  | .realloc ptr size, n => n = size.toNat ∧
      (ptr.toNat = 0 ∨ ∃ used, Links h.next (h.heads .used) used ∧ ∃ a ∈ used, (h.nodes a).ptr = ptr.toNat)
  | .free _, _ => False

/-- What the call allocates needs no node of another free block. -/
def KeepsFree (r : HeapRun κ) (c : HeapCall) : Prop := ∀ n, 0 < n → c.Takes r.heap n → r.heap.NoLoss n

namespace HeapMemoryAux

open HeapRunAux

variable {km : KernelMemory κ} {h : Kheap κ} {used free : List Nat}

theorem conserved_iff (hrep : h.Rep km used free) : h.Conserved ↔ (h.toHeap km used free).Conserves := by
  have hall : (h.toHeap km used free).all = (used ++ free).map h.block := (List.map_append ..).symm
  have htotal : total ((used ++ free).map h.block) = ((used ++ free).map fun a => (h.nodes a).size).sum := by
    rw [total, List.map_map]
    rfl
  have hcovers : ∀ x, Covers ((used ++ free).map h.block) x ↔ ∃ a ∈ used ++ free, (h.block a).Has x := fun x =>
    covers_map h.block (used ++ free)
  constructor
  · rintro ⟨used', free', hused, hfree, hsum, hcov⟩
    obtain rfl := hrep.left.unique hused
    obtain rfl := hrep.right.unique hfree
    refine ⟨by rw [hall, htotal, hsum]; rfl, fun x hx => ?_⟩
    rw [hall, hcovers]
    exact hcov x hx
  · intro hc
    have hsum := hc.total
    have hcov := hc.covers
    rw [hall, htotal] at hsum
    simp only [hall, hcovers] at hcov
    exact ⟨used, free, hrep.left, hrep.right, hsum, hcov⟩

theorem noLoss_iff (hrep : h.Rep km used free) (size : Nat) : h.NoLoss size ↔ (h.toHeap km used free).Keeps size := by
  have hkeeps : (h.toHeap km used free).Keeps size ↔
      free = [] ∨ ∃ a, free.find? (fun a => size ≤ (h.nodes a).size) = some a ∧ ((h.nodes a).size = size ∨ free.length = 1) := by
    simp only [Heap.Keeps, Kheap.toHeap, List.map_eq_nil_iff, List.find?_map, List.length_map, Option.map_eq_some_iff]
    constructor
    · rintro (hnil | ⟨b, ⟨a, ha, rfl⟩, hb⟩)
      · exact .inl hnil
      · exact .inr ⟨a, ha, hb⟩
    · rintro (hnil | ⟨a, ha, hb⟩)
      · exact .inl hnil
      · exact .inr ⟨_, ⟨a, ha, rfl⟩, hb⟩
  rw [hkeeps]
  constructor
  · rintro ⟨free', hfree, hcase⟩
    obtain rfl := hrep.right.unique hfree
    exact hcase
  · exact fun hcase => ⟨free, hrep.right, hcase⟩

theorem takes_realloc_iff (hrep : h.Rep km used free) {ptr size : UInt32} {n : Nat} :
    HeapCall.Takes h (.realloc ptr size) n ↔
      n = size.toNat ∧ (ptr.toNat = 0 ∨ ∃ b ∈ (h.toHeap km used free).used, b.ptr = ptr.toNat) := by
  refine and_congr_right fun _ => or_congr_right ?_
  constructor
  · rintro ⟨used', hused, a, ha, hptr⟩
    obtain rfl := hrep.left.unique hused
    exact ⟨h.block a, List.mem_map_of_mem ha, hptr⟩
  · rintro ⟨b, hb, hptr⟩
    obtain ⟨a, ha, rfl⟩ := List.mem_map.mp hb
    exact ⟨used, hrep.left, a, ha, hptr⟩

variable {H H' : Heap} {p size : Nat}

theorem malloc_conserves_iff (hm : HeapMalloc H size p H') (hok : H.Ok) (hc : H.Conserves) :
    H'.Conserves ↔ (0 < size → H.Keeps size) := by
  cases hm with
  | nothing hsize => simp [hc, hsize]
  | alloc hsize ha => simp [ha.conserves_iff hok hc, hsize]

theorem realloc_conserves_iff {ptr : Nat} (hm : HeapRealloc H ptr size p H') (hok : H.Ok) (hc : H.Conserves) :
    H'.Conserves ↔ (0 < size → (ptr = 0 ∨ ∃ b ∈ H.used, b.ptr = ptr) → H.Keeps size) := by
  cases hm with
  | nothing hsize hused =>
    refine iff_of_true hc fun hpos hor => ?_
    rcases hor with hptr | ⟨b, hb, hptr⟩
    · exact absurd (hsize hptr) (Nat.ne_of_gt hpos)
    · exact absurd hptr (hused b hb)
  | alloc hptr hsize ha => simp [ha.conserves_iff hok hc, hsize, hptr]
  | free hsize hf => simp [hf.conserves_iff, hc, hsize]
  | @move _ _ _ b hsize hb hptr ha hf =>
    have hor : ptr = 0 ∨ ∃ b ∈ H.used, b.ptr = ptr := .inr ⟨b, hb, hptr⟩
    rw [hf.conserves_iff, ha.conserves_iff hok hc]
    exact ⟨fun hk _ _ => hk, fun hk => hk hsize hor⟩

/-- A call loses no memory exactly when it needs no node of another free block. -/
theorem conserved_step_iff {r r' : HeapRun κ} {c : HeapCall} (hrep : r.heap.Rep km used free)
    (hok : (r.heap.toHeap km used free).Ok) (hc : (r.heap.toHeap km used free).Conserves) (hs : heapStep km r c = some r') :
    ∃ used' free', r'.heap.Rep km used' free' ∧ (r'.heap.toHeap km used' free').Ok ∧
      ((r'.heap.toHeap km used' free').Conserves ↔ KeepsFree r c) := by
  obtain ⟨⟨p, k⟩, hexec, rfl⟩ := Option.map_eq_some_iff.mp hs
  obtain ⟨used', free', hrep', he⟩ := exec_heap hrep hok hexec
  refine ⟨used', free', hrep', effect_ok he hok, ?_⟩
  simp only [KeepsFree, noLoss_iff hrep]
  cases he with
  | malloc hm =>
    rw [malloc_conserves_iff hm hok hc]
    exact ⟨fun hk n hn he => he ▸ hk (he ▸ hn), fun hk hn => hk _ hn rfl⟩
  | calloc hm =>
    rw [malloc_conserves_iff hm hok hc]
    exact ⟨fun hk n hn he => he ▸ hk (he ▸ hn), fun hk hn => hk _ hn rfl⟩
  | realloc hm =>
    simp only [takes_realloc_iff hrep]
    rw [realloc_conserves_iff hm hok hc]
    exact ⟨fun hk n hn he => he.1 ▸ hk (he.1 ▸ hn) he.2, fun hk hn hor => hk _ hn ⟨rfl, hor⟩⟩
  | free hf => exact iff_of_true (hf.conserves_iff.mpr hc) fun n _ he => he.elim

end HeapMemoryAux

open HeapMemoryAux HeapRunAux

/-- In every run whose allocations need no node of another free block, no memory is lost. And this is the exact condition for a call to
lose none. -/
theorem conserved_of_keepsFree (km : KernelMemory κ) (k : κ) (mem : Memory) (r : HeapRun κ)
    (h : Reach (heapStep km) KeepsFree (heapStart k mem) r) :
    r.heap.Conserved ∧ ∀ c r', heapStep km r c = some r' → (r'.heap.Conserved ↔ KeepsFree r c) := by
  have hinv : ∃ used free, r.heap.Rep km used free ∧ (r.heap.toHeap km used free).Ok ∧
      (r.heap.toHeap km used free).Conserves := by
    refine h.inv (fun r => ∃ used free, r.heap.Rep km used free ∧ (r.heap.toHeap km used free).Ok ∧
      (r.heap.toHeap km used free).Conserves) ?_ ?_
    · obtain ⟨used, free, hrep, hok, -⟩ := heapInv_start km k mem
      refine ⟨used, free, hrep, hok, (conserved_iff hrep).mp ⟨[], [], rfl, rfl, rfl, ?_⟩⟩
      rintro x ⟨b, hb, -⟩
      exact absurd hb List.not_mem_nil
    · rintro r c r' ⟨used, free, hrep, hok, hc⟩ hk hs
      obtain ⟨used', free', hrep', hok', hiff⟩ := conserved_step_iff hrep hok hc hs
      exact ⟨used', free', hrep', hok', hiff.mpr hk⟩
  obtain ⟨used, free, hrep, hok, hc⟩ := hinv
  refine ⟨(conserved_iff hrep).mpr hc, fun c r' hs => ?_⟩
  obtain ⟨used', free', hrep', -, hiff⟩ := conserved_step_iff hrep hok hc hs
  rw [conserved_iff hrep', hiff]

/-- One block, from new memory. -/
theorem conserved_first_malloc :
    ∃ r, heapStep nextMemory (heapStart 4096 fun _ => 0) (.malloc 100) = some r ∧ r.heap.Conserved := by
  have hrun : (heapStep nextMemory (heapStart 4096 fun _ => 0) (.malloc 100)).isSome := by decide +kernel
  obtain ⟨r, hr⟩ := Option.isSome_iff_exists.mp hrun
  refine ⟨r, hr, (conserved_of_keepsFree nextMemory 4096 (fun _ => 0) r (.step _ .init ?_ hr)).1⟩
  exact fun n _ _ => ⟨[], rfl, .inl rfl⟩

/-- A block of 100 bytes leaves 3996 bytes of its page free; a block of 5000 bytes then comes from two new pages, and its node is that
of the 3996 bytes. Of the 12288 bytes obtained, 8292 are left. -/
theorem malloc_loses_rest :
    ∃ r₁ r₂, heapStep nextMemory (heapStart 4096 fun _ => 0) (.malloc 100) = some r₁ ∧
      heapStep nextMemory r₁ (.malloc 5000) = some r₂ ∧ total r₂.heap.obtained = 12288 ∧
      (∃ used free, Links r₂.heap.next (r₂.heap.heads .used) used ∧ Links r₂.heap.next (r₂.heap.heads .free) free ∧
        ((used ++ free).map fun a => (r₂.heap.nodes a).size).sum = 8292) ∧ ¬r₂.heap.Conserved := by
  have hrun : ((heapStep nextMemory (heapStart 4096 fun _ => 0) (.malloc 100)).bind (heapStep nextMemory · (.malloc 5000))).map
      (fun r => ([r.heap.heads .used, r.heap.next 12288, r.heap.next 8192, r.heap.heads .free, r.heap.next 24576],
        [total r.heap.obtained, (([12288, 8192] ++ [24576]).map fun a => (r.heap.nodes a).size).sum])) =
      some ([some 12288, some 8192, none, some 24576, none], [12288, 8292]) := by decide +kernel
  obtain ⟨r₂, hbind, hres⟩ := Option.map_eq_some_iff.mp hrun
  obtain ⟨r₁, h₁, h₂⟩ := Option.bind_eq_some_iff.mp hbind
  simp only [Prod.mk.injEq, List.cons.injEq, and_true] at hres
  obtain ⟨⟨hused, hnext₁, hnext₂, hfree, hnext₃⟩, hobt, hsum⟩ := hres
  have hlused : Links r₂.heap.next (r₂.heap.heads .used) [12288, 8192] := ⟨hused, hnext₁, hnext₂⟩
  have hlfree : Links r₂.heap.next (r₂.heap.heads .free) [24576] := ⟨hfree, hnext₃⟩
  refine ⟨r₁, r₂, h₁, h₂, hobt, ⟨_, _, hlused, hlfree, hsum⟩, ?_⟩
  rintro ⟨used, free, hu, hf, htotal, -⟩
  obtain rfl := hlused.unique hu
  obtain rfl := hlfree.unique hf
  exact absurd (hsum.symm.trans (htotal.trans hobt)) (by decide)

end Kos
