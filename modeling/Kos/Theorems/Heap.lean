import Mathlib.Data.List.Pairwise
import Kos.Lib.Run
import Kos.Lemmas.Kmalloc

/-!
# The blocks of the heap

Every block that `kmalloc`, `kcalloc` and `krealloc` return is described by one node, with the size that was requested, and no two
blocks overlap, except that `kcalloc` multiplies its arguments as 32-bit numbers: a request of 2^32 bytes or more gets a smaller block
(`heapOk_of_exactCalloc`).
-/

namespace Kos

/-- The calls, with the arguments that they can have. -/
inductive HeapCall where
  | malloc (size : UInt32)
  | calloc (num size : UInt32)
  | realloc (ptr size : UInt32)
  | free (ptr : UInt32)
  deriving DecidableEq, Repr

variable {κ : Type}

/-- The pointer that a call returns (0 for `kfree`), and the heap. -/
def HeapCall.exec (km : KernelMemory κ) (h : Kheap κ) : HeapCall → Option (Nat × Kheap κ)
  | .malloc size => kmalloc km h size.toNat
  | .calloc num size => kcalloc km h num.toNat size.toNat
  | .realloc ptr size => krealloc km h ptr.toNat size.toNat
  | .free ptr => (kfree h ptr.toNat).map (0, ·)

/-- The blocks that were returned and not yet freed, by address, with the number of bytes requested. -/
abbrev LiveBlocks := Nat → Option Nat

def LiveBlocks.returned (live : LiveBlocks) (ptr size : Nat) : LiveBlocks :=
  if ptr = 0 then live else Function.update live ptr (some size)

def LiveBlocks.freed (live : LiveBlocks) (ptr : Nat) : LiveBlocks := Function.update live ptr none

/-- The blocks after a call that returned `p`. -/
def HeapCall.live (live : LiveBlocks) (p : Nat) : HeapCall → LiveBlocks
  | .malloc size => live.returned p size.toNat
  | .calloc num size => live.returned p (num.toNat * size.toNat)
  | .realloc ptr size =>
    if size = 0 then live.freed ptr.toNat else if p = 0 then live else (live.freed ptr.toNat).returned p size.toNat
  | .free ptr => live.freed ptr.toNat

structure HeapRun (κ : Type) where
  heap : Kheap κ
  live : LiveBlocks

def heapStep (km : KernelMemory κ) (r : HeapRun κ) (c : HeapCall) : Option (HeapRun κ) :=
  (c.exec km r.heap).map fun (p, h) => ⟨h, c.live r.live p⟩

/-- The heap at the start: the lists are empty. -/
def heapStart (k : κ) (mem : Memory) : HeapRun κ :=
  ⟨{ heads := fun _ => none, nodes := fun _ => ⟨0, 0, none⟩, mem := mem, km := k, obtained := [] }, fun _ => none⟩

/-- The nodes of the two lists describe blocks that are not empty and have no byte in common, and each block that was returned and not
yet freed is described by exactly one node of those in use, with the size requested. -/
def HeapOk (r : HeapRun κ) : Prop :=
  ∃ used free, Links r.heap.next (r.heap.heads .used) used ∧ Links r.heap.next (r.heap.heads .free) free ∧
    (∀ a ∈ used ++ free, 0 < (r.heap.block a).size ∧ (r.heap.block a).ptr + (r.heap.block a).size ≤ 4294967296) ∧
    (used ++ free).Pairwise (fun a b => (r.heap.block a).Disjoint (r.heap.block b)) ∧
    ∀ p n, r.live p = some n → ∃ a ∈ used, r.heap.block a = ⟨p, n⟩ ∧ ∀ b ∈ used, (r.heap.block b).ptr = p → b = a

/-- A call of `kcalloc` requests fewer than 2^32 bytes, or a multiple of 2^32: then it returns the null pointer. -/
def ExactCalloc : HeapCall → Prop
  | .calloc num size => num.toNat * size.toNat < 4294967296 ∨ w32 (num.toNat * size.toNat) = 0
  | _ => True

/-- What a call that returns `p` does to the blocks. -/
inductive HeapEffect (h : Heap) : HeapCall → Nat → Heap → Prop where
  | malloc {size : UInt32} {p : Nat} {h' : Heap} (hm : HeapMalloc h size.toNat p h') : HeapEffect h (.malloc size) p h'
  | calloc {num size : UInt32} {p : Nat} {h' : Heap} (hm : HeapMalloc h (w32 (num.toNat * size.toNat)) p h') :
      HeapEffect h (.calloc num size) p h'
  | realloc {ptr size : UInt32} {p : Nat} {h' : Heap} (hm : HeapRealloc h ptr.toNat size.toNat p h') :
      HeapEffect h (.realloc ptr size) p h'
  | free {ptr : UInt32} {h' : Heap} (hf : HeapFree h ptr.toNat h') : HeapEffect h (.free ptr) 0 h'

/-- The blocks that were returned are in use. -/
def LiveIn (used : List Block) (live : LiveBlocks) : Prop := ∀ p n, live p = some n → ⟨p, n⟩ ∈ used

/-- What holds in every state of a run. -/
def HeapInv (km : KernelMemory κ) (r : HeapRun κ) : Prop :=
  ∃ used free, r.heap.Rep km used free ∧ (r.heap.toHeap km used free).Ok ∧ LiveIn (r.heap.toHeap km used free).used r.live

namespace HeapRunAux

variable {km : KernelMemory κ} {r r' : HeapRun κ} {c : HeapCall} {h h' : Heap} {live : LiveBlocks} {p size : Nat}

theorem exec_heap {used free : List Nat} {k k' : Kheap κ} (hrep : k.Rep km used free) (hok : (k.toHeap km used free).Ok)
    (hc : c.exec km k = some (p, k')) :
    ∃ used' free', k'.Rep km used' free' ∧ HeapEffect (k.toHeap km used free) c p (k'.toHeap km used' free') := by
  cases c with
  | malloc size =>
    obtain ⟨used', free', hrep', -, hm⟩ := kmalloc_heap hrep hok hc
    exact ⟨used', free', hrep', .malloc hm⟩
  | calloc num size =>
    obtain ⟨used', free', hrep', hm⟩ := kcalloc_heap hrep hok hc
    exact ⟨used', free', hrep', .calloc hm⟩
  | realloc ptr size =>
    obtain ⟨used', free', hrep', hm⟩ := krealloc_heap hrep hok hc
    exact ⟨used', free', hrep', .realloc hm⟩
  | free ptr =>
    obtain ⟨k₁, used', free', hfree, hrep', -, hf⟩ := kfree_heap ptr.toNat hrep
    simp only [HeapCall.exec, hfree, Option.map_some, Option.some.injEq, Prod.mk.injEq] at hc
    obtain ⟨rfl, rfl⟩ := hc
    exact ⟨used', free', hrep', .free hf⟩

theorem malloc_ok (hm : HeapMalloc h size p h') (hok : h.Ok) : h'.Ok := by
  cases hm with
  | nothing hsize => exact hok
  | alloc hsize ha => exact ha.ok hsize hok

theorem effect_ok (he : HeapEffect h c p h') (hok : h.Ok) : h'.Ok := by
  cases he with
  | malloc hm => exact malloc_ok hm hok
  | calloc hm => exact malloc_ok hm hok
  | realloc hm =>
    cases hm with
    | nothing hsize hused => exact hok
    | alloc hptr hsize ha => exact ha.ok hsize hok
    | free hsize hf => exact hf.ok hok
    | move hsize hb hptr ha hf => exact hf.ok (ha.ok hsize hok)
  | free hf => exact hf.ok hok

theorem live_alloc (ha : HeapAlloc h size p h') (hl : LiveIn h.used live) : LiveIn h'.used (live.returned p size) := by
  intro q n hq
  rw [ha.used_eq]
  unfold LiveBlocks.returned at hq
  split at hq
  · exact List.mem_cons_of_mem _ (hl q n hq)
  · by_cases hqp : q = p
    · subst hqp
      rw [Function.update_self] at hq
      cases hq
      exact List.mem_cons_self ..
    · rw [Function.update_of_ne hqp] at hq
      exact List.mem_cons_of_mem _ (hl q n hq)

theorem live_malloc (hm : HeapMalloc h size p h') (hl : LiveIn h.used live) : LiveIn h'.used (live.returned p size) := by
  cases hm with
  | nothing hsize => exact hl
  | alloc hsize ha => exact live_alloc ha hl

theorem live_free (hf : HeapFree h p h') (hl : LiveIn h.used live) : LiveIn h'.used (live.freed p) := by
  intro q n hq
  have hqp : q ≠ p := by
    rintro rfl
    simp [LiveBlocks.freed] at hq
  rw [LiveBlocks.freed, Function.update_of_ne hqp] at hq
  exact hf.mem_used (hl q n hq) hqp

/-- A block that is allocated is not at the address of a block in use. -/
theorem ptr_ne_of_alloc {b : Block} (ha : HeapAlloc h size p h') (hs : 0 < size) (hok : h.Ok) (hb : b ∈ h.used) : p ≠ b.ptr := by
  have hsep := (ha.ok hs hok).separate
  rw [Heap.all, ha.used_eq, List.cons_append] at hsep
  exact hsep.ptr_ne (List.mem_append_left _ hb)

theorem liveIn_freed {used : List Block} (hl : LiveIn used live) (ptr : Nat) : LiveIn used (live.freed ptr) := by
  intro q n hq
  by_cases hqp : q = ptr
  · subst hqp
    simp [LiveBlocks.freed] at hq
  · rw [LiveBlocks.freed, Function.update_of_ne hqp] at hq
    exact hl q n hq

/-- Allocating a block and then freeing another one. -/
theorem live_move {h₁ : Heap} {ptr : Nat} {b : Block} (hs : 0 < size) (hok : h.Ok) (hb : b ∈ h.used) (hptr : b.ptr = ptr)
    (ha : HeapAlloc h size p h₁) (hf : HeapFree h₁ ptr h') (hl : LiveIn h.used live) :
    LiveIn h'.used ((live.freed ptr).returned p size) := by
  intro q n hq
  have hmem := live_alloc ha (liveIn_freed hl ptr) q n hq
  have hne : ptr ≠ p := hptr ▸ (ptr_ne_of_alloc ha hs hok hb).symm
  have hqp : q ≠ ptr := by
    rintro rfl
    rw [LiveBlocks.returned, if_neg (Nat.ne_of_gt (ha.ptr_pos hok)), Function.update_of_ne hne] at hq
    simp [LiveBlocks.freed] at hq
  exact hf.mem_used hmem hqp

theorem effect_live (he : HeapEffect h c p h') (hok : h.Ok) (hc : ExactCalloc c) (hl : LiveIn h.used live) :
    LiveIn h'.used (c.live live p) := by
  cases he with
  | malloc hm => exact live_malloc hm hl
  | @calloc num size _ _ hm =>
    rcases hc with hlt | hzero
    · rw [w32_of_lt hlt] at hm
      exact live_malloc hm hl
    · cases hm with
      | nothing hsize => exact hl
      | alloc hsize ha => exact absurd hzero (Nat.ne_of_gt hsize)
  | @realloc ptr size _ _ hm =>
    have hzero : size = 0 ↔ size.toNat = 0 := by rw [← UInt32.toNat_inj]; rfl
    simp only [HeapCall.live, hzero]
    cases hm with
    | nothing hsize hused =>
      split
      · exact liveIn_freed hl _
      · exact hl
    | alloc hptr hsize ha =>
      rw [if_neg (Nat.ne_of_gt hsize), if_neg (Nat.ne_of_gt (ha.ptr_pos hok))]
      exact live_alloc ha (liveIn_freed hl _)
    | free hsize hf =>
      rw [if_pos hsize]
      exact live_free hf hl
    | move hsize hb hptr ha hf =>
      rw [if_neg (Nat.ne_of_gt hsize), if_neg (Nat.ne_of_gt (ha.ptr_pos hok))]
      exact live_move hsize hok hb hptr ha hf hl
  | free hf => exact live_free hf hl

theorem heapInv_start (km : KernelMemory κ) (k : κ) (mem : Memory) : HeapInv km (heapStart k mem) := by
  refine ⟨[], [], ⟨⟨by decide, rfl, rfl, List.nodup_nil⟩, fun a ha => absurd ha List.not_mem_nil⟩, ?_, fun p n hp => nomatch hp⟩
  exact ⟨⟨fun b hb => absurd hb List.not_mem_nil, .nil⟩, fun b hb => absurd hb List.not_mem_nil,
    fun b hb => absurd hb List.not_mem_nil, fun x ⟨b, hb, _⟩ => absurd hb List.not_mem_nil⟩

theorem heapInv_step (hi : HeapInv km r) (hc : ExactCalloc c) (hs : heapStep km r c = some r') : HeapInv km r' := by
  obtain ⟨used, free, hrep, hok, hl⟩ := hi
  obtain ⟨⟨p, k⟩, hexec, rfl⟩ := Option.map_eq_some_iff.mp hs
  obtain ⟨used', free', hrep', he⟩ := exec_heap hrep hok hexec
  exact ⟨used', free', hrep', effect_ok he hok, effect_live he hok hc hl⟩

/-- The invariant, in terms of the nodes. -/
theorem heapOk_of_inv (hi : HeapInv km r) : HeapOk r := by
  obtain ⟨used, free, hrep, hok, hl⟩ := hi
  have hall : (r.heap.toHeap km used free).all = (used ++ free).map r.heap.block := (List.map_append ..).symm
  have hdis : (used ++ free).Pairwise (fun a b => (r.heap.block a).Disjoint (r.heap.block b)) := by
    have := hok.separate.disjoint
    rwa [hall, List.pairwise_map] at this
  have hpos : ∀ a ∈ used ++ free, 0 < (r.heap.block a).size := fun a ha =>
    hok.separate.pos _ (by rw [hall]; exact List.mem_map_of_mem ha)
  refine ⟨used, free, hrep.left, hrep.right, fun a ha => ⟨hpos a ha, ?_⟩, hdis, fun p n hp => ?_⟩
  · exact hok.inside _ (by rw [hall]; exact List.mem_map_of_mem ha)
  · obtain ⟨a, ha, hblock⟩ := List.mem_map.mp (hl p n hp)
    refine ⟨a, ha, hblock, fun b hb hptr => ?_⟩
    by_contra hne
    have : Std.Symm (fun a b => (r.heap.block a).Disjoint (r.heap.block b)) := ⟨fun _ _ h => h.symm⟩
    have hb := List.mem_append_left free hb
    have ha := List.mem_append_left free ha
    have haptr : (r.heap.block a).ptr = p := by rw [hblock]
    exact hdis.forall hb ha hne p (hptr ▸ Block.has_ptr (hpos b hb)) (haptr ▸ Block.has_ptr (hpos a ha))

/-- After a call of `kcalloc` the heap is as it should be only if the request was exact. -/
theorem exactCalloc_of_heapOk {num size : UInt32} (hi : HeapInv km r) (hs : heapStep km r (.calloc num size) = some r')
    (hok' : HeapOk r') : ExactCalloc (.calloc num size) := by
  obtain ⟨used, free, hrep, hok, hl⟩ := hi
  obtain ⟨⟨p, k⟩, hexec, rfl⟩ := Option.map_eq_some_iff.mp hs
  obtain ⟨used', free', hrep', he⟩ := exec_heap hrep hok hexec
  cases he with
  | calloc hm =>
    by_cases hzero : w32 (num.toNat * size.toNat) = 0
    · exact .inr hzero
    have ha := hm.alloc_of_pos hzero
    obtain ⟨used'', free'', hused, -, -, -, hlive⟩ := hok'
    obtain rfl := hrep'.left.unique hused
    have hlivep : HeapCall.live r.live p (.calloc num size) p = some (num.toNat * size.toNat) := by
      simp [HeapCall.live, LiveBlocks.returned, Nat.ne_of_gt (ha.ptr_pos hok)]
    obtain ⟨a, -, hblock, hunique⟩ := hlive p _ hlivep
    have hmem : ⟨p, w32 (num.toNat * size.toNat)⟩ ∈ used'.map k.block := by
      have hcons : used'.map k.block = _ := ha.used_eq
      rw [hcons]
      exact List.mem_cons_self ..
    obtain ⟨b, hb, hblock'⟩ := List.mem_map.mp hmem
    obtain rfl := hunique b hb (congrArg Block.ptr hblock')
    have hsizes : w32 (num.toNat * size.toNat) = num.toNat * size.toNat := congrArg Block.size (hblock'.symm.trans hblock)
    exact .inl (hsizes ▸ w32_lt _)

end HeapRunAux

open HeapRunAux

/-- In every run whose calls of `kcalloc` request fewer than 2^32 bytes, or a multiple of 2^32, the heap is as it should be in every
state. And this is the exact condition for a call of `kcalloc`. -/
theorem heapOk_of_exactCalloc (km : KernelMemory κ) (k : κ) (mem : Memory) (r : HeapRun κ)
    (h : Reach (heapStep km) (fun _ => ExactCalloc) (heapStart k mem) r) :
    HeapOk r ∧ ∀ c r', heapStep km r c = some r' → (HeapOk r' ↔ ExactCalloc c) := by
  have hinv : HeapInv km r := h.inv (HeapInv km) (heapInv_start km k mem) fun _ _ _ hi hc hs => heapInv_step hi hc hs
  refine ⟨heapOk_of_inv hinv, fun c r' hs => ⟨fun hok => ?_, fun hc => heapOk_of_inv (heapInv_step hinv hc hs)⟩⟩
  cases c with
  | calloc num size => exact exactCalloc_of_heapOk hinv hs hok
  | malloc size => trivial
  | realloc ptr size => trivial
  | free ptr => trivial

/-- A kernel memory that hands out one range after the other; the state is the next address. -/
def nextMemory : KernelMemory Nat where
  allocRange k n := if 0 < k ∧ k + n * 4096 ≤ 4294967296 then some (k, k + n * 4096) else none
  allocPage k := if 0 < k ∧ k + 4096 ≤ 4294967296 then some (k, k + 4096) else none
  Given k a := a < k
  range_pos h := by
    obtain ⟨hk, h⟩ := Option.ite_none_right_eq_some.mp h
    cases h
    exact hk
  range_new h := by
    obtain ⟨-, h⟩ := Option.ite_none_right_eq_some.mp h
    cases h
    exact fun a ha ha' => ⟨Nat.not_lt.mpr ha, ha'⟩
  range_keeps h := by
    obtain ⟨-, h⟩ := Option.ite_none_right_eq_some.mp h
    cases h
    exact fun a ha => Nat.lt_of_lt_of_le ha (Nat.le_add_right _ _)
  page_pos h := by
    obtain ⟨hk, h⟩ := Option.ite_none_right_eq_some.mp h
    cases h
    exact hk
  page_new h := by
    obtain ⟨-, h⟩ := Option.ite_none_right_eq_some.mp h
    cases h
    exact fun a ha ha' => ⟨Nat.not_lt.mpr ha, ha'⟩
  page_keeps h := by
    obtain ⟨-, h⟩ := Option.ite_none_right_eq_some.mp h
    cases h
    exact fun a ha => Nat.lt_of_lt_of_le ha (Nat.le_add_right _ _)

/-- An array of 16 elements of 16 bytes. -/
theorem heapOk_small_calloc :
    ∃ r, heapStep nextMemory (heapStart 4096 fun _ => 0) (.calloc 16 16) = some r ∧ r.live 4096 = some 256 ∧ HeapOk r := by
  have hrun : (heapStep nextMemory (heapStart 4096 fun _ => 0) (.calloc 16 16)).map (fun r => r.live 4096) = some (some 256) := by
    decide +kernel
  obtain ⟨r, hr, hlive⟩ := Option.map_eq_some_iff.mp hrun
  refine ⟨r, hr, hlive, ?_⟩
  exact (heapOk_of_exactCalloc nextMemory 4096 (fun _ => 0) r (.step (.calloc 16 16) .init (Or.inl (by decide)) hr)).1

/-- An array of 65537 elements of 65536 bytes, more than 2^32 bytes, gets a block of 65536 bytes. -/
theorem calloc_block_short :
    ∃ r, heapStep nextMemory (heapStart 4096 fun _ => 0) (.calloc 65537 65536) = some r ∧
      r.live 4096 = some 4295032832 ∧ (r.heap.heads .used).map r.heap.block = some ⟨4096, 65536⟩ ∧ ¬HeapOk r := by
  have hrun : (heapStep nextMemory (heapStart 4096 fun _ => 0) (.calloc 65537 65536)).map
      (fun r => (r.live 4096, (r.heap.heads .used).map r.heap.block)) = some (some 4295032832, some ⟨4096, 65536⟩) := by
    decide +kernel
  obtain ⟨r, hr, hres⟩ := Option.map_eq_some_iff.mp hrun
  obtain ⟨hlive, hblock⟩ := Prod.mk.inj hres
  refine ⟨r, hr, hlive, hblock, fun hok => ?_⟩
  rcases exactCalloc_of_heapOk (heapInv_start nextMemory 4096 fun _ => 0) hr hok with hlt | hzero
  · exact absurd hlt (by decide)
  · exact absurd hzero (by decide)

end Kos
