import Kos.Theorems.Heap

/-!
# Reallocating a block

`krealloc` allocates a block of the new size, copies the bytes and frees the old block. The blocks of the heap have no byte in common,
so the copy is that of the old bytes and writes into no other block (`krealloc_moves`). Which blocks are in use is said by the list
of their nodes; in a run of `kmalloc`, `kfree` and `krealloc` they are just the blocks that were returned and not yet freed.
-/

namespace Kos

variable {κ : Type}

/-- A node of the blocks in use describes the block of `n` bytes at `p`. -/
def Kheap.InUse (h : Kheap κ) (p n : Nat) : Prop :=
  ∃ used, Links h.next (h.heads .used) used ∧ ∃ a ∈ used, h.block a = ⟨p, n⟩

/-- The heap with these bytes in its blocks, which the programs that use them write. -/
def Kheap.withMem (h : Kheap κ) (mem : Memory) : Kheap κ := { h with mem := mem }

/-- The calls without `kcalloc`. -/
def NoCalloc : HeapCall → Prop
  | .calloc _ _ => False
  | _ => True

/-- The pages that `kmallocu` asks for when no free block is large enough. -/
def pagesFor (size : Nat) : Nat := size / 4096 + if size % 4096 ≠ 0 then 1 else 0

/-- The kernel's memory has the pages for a block of this size, and a page for each of the nodes that may be needed. -/
structure Serves (km : KernelMemory κ) (k : κ) (size : Nat) : Prop where
  page : (km.allocPage k).isSome
  range : ∃ p k₁ q k₂, km.allocRange k (pagesFor size) = some (p, k₁) ∧ km.allocPage k₁ = some (q, k₂) ∧ (km.allocPage k₂).isSome

/-- What reallocating the block of `n` bytes at `ptr` to `size` bytes at `p` makes of the heap. -/
structure Reallocated (h h' : Kheap κ) (ptr n size p : Nat) : Prop where
  returned : p ≠ 0 ∧ h'.InUse p size
  contents : ∀ i < min n size, h'.mem (p + i) = h.mem (ptr + i)
  freed : ∀ m, ¬h'.InUse ptr m
  others : ∀ q m, q ≠ ptr → h.InUse q m → h'.InUse q m ∧ ∀ i < m, h'.mem (q + i) = h.mem (q + i)
  no_more : ∀ q m, h'.InUse q m → (q = p ∧ m = size) ∨ (q ≠ ptr ∧ h.InUse q m)

/-- The blocks in use are those that were returned. -/
def UsedIn (used : List Block) (live : LiveBlocks) : Prop := ∀ b ∈ used, live b.ptr = some b.size

namespace ReallocAux

open HeapRunAux KmallocAux

variable {km : KernelMemory κ} {h h' : Kheap κ} {H H' : Heap} {live : LiveBlocks} {c : HeapCall} {p ptr n size : Nat}

theorem inUse_iff {used free : List Nat} (hrep : h.Rep km used free) : h.InUse p n ↔ ⟨p, n⟩ ∈ (h.toHeap km used free).used := by
  constructor
  · rintro ⟨used', hused, a, ha, hblock⟩
    obtain rfl := hrep.left.unique hused
    exact List.mem_map.mpr ⟨a, ha, hblock⟩
  · intro hb
    obtain ⟨a, ha, hblock⟩ := List.mem_map.mp hb
    exact ⟨used, hrep.left, a, ha, hblock⟩

/-! ## The blocks in use are the live ones -/

theorem used_of_free (hf : HeapFree H ptr H') : ∀ b ∈ H'.used, b ∈ H.used := by
  cases hf with
  | @found l₁ l₂ c hused hc =>
    intro b hb
    rw [hused]
    exact List.mem_append.mpr ((List.mem_append.mp hb).imp_right (List.mem_cons_of_mem c))
  | missing hused => exact fun b hb => hb

/-- A freed block is not in use any more. -/
theorem not_used_of_free (hf : HeapFree H ptr H') (hok : H.Ok) : ∀ b ∈ H'.used, b.ptr ≠ ptr := by
  cases hf with
  | @found l₁ l₂ c hused hc =>
    have hsep : Separate H.used := hok.separate.sublist (List.sublist_append_left _ _)
    rw [hused] at hsep
    intro b hb
    rw [← hc]
    exact ((hsep.perm List.perm_middle).ptr_ne hb).symm
  | missing hused => exact hused

theorem usedIn_alloc (ha : HeapAlloc H size p H') (hs : 0 < size) (hok : H.Ok) (hu : UsedIn H.used live) :
    UsedIn H'.used (live.returned p size) := by
  intro b hb
  rw [ha.used_eq] at hb
  rw [LiveBlocks.returned, if_neg (Nat.ne_of_gt (ha.ptr_pos hok))]
  rcases List.mem_cons.mp hb with rfl | hb
  · exact Function.update_self ..
  · rw [Function.update_of_ne (ptr_ne_of_alloc ha hs hok hb).symm]
    exact hu b hb

theorem usedIn_free (hf : HeapFree H ptr H') (hok : H.Ok) (hu : UsedIn H.used live) : UsedIn H'.used (live.freed ptr) := by
  intro b hb
  rw [LiveBlocks.freed, Function.update_of_ne (not_used_of_free hf hok b hb)]
  exact hu b (used_of_free hf b hb)

theorem usedIn_malloc (hm : HeapMalloc H size p H') (hok : H.Ok) (hu : UsedIn H.used live) :
    UsedIn H'.used (live.returned p size) := by
  cases hm with
  | nothing hsize => exact hu
  | alloc hsize ha => exact usedIn_alloc ha hsize hok hu

/-- Allocating a block and then freeing another one. -/
theorem usedIn_move {H₁ : Heap} (hs : 0 < size) (hok : H.Ok) (ha : HeapAlloc H size p H₁) (hf : HeapFree H₁ ptr H')
    (hu : UsedIn H.used live) : UsedIn H'.used ((live.freed ptr).returned p size) := by
  have hfreed := usedIn_free hf (ha.ok hs hok) (usedIn_alloc ha hs hok hu)
  intro b hb
  have hlive := hfreed b hb
  have hbptr := not_used_of_free hf (ha.ok hs hok) b hb
  rw [LiveBlocks.returned, if_neg (Nat.ne_of_gt (ha.ptr_pos hok))] at hlive ⊢
  rw [LiveBlocks.freed, Function.update_of_ne hbptr] at hlive
  by_cases hbp : b.ptr = p
  · rw [hbp, Function.update_self] at hlive ⊢
    exact hlive
  · rw [Function.update_of_ne hbp] at hlive ⊢
    rw [LiveBlocks.freed, Function.update_of_ne hbptr]
    exact hlive

theorem usedIn_freed_of_missing (hu : UsedIn H.used live) (hmiss : ∀ b ∈ H.used, b.ptr ≠ ptr) : UsedIn H.used (live.freed ptr) := by
  intro b hb
  rw [LiveBlocks.freed, Function.update_of_ne (hmiss b hb)]
  exact hu b hb

theorem effect_usedIn (he : HeapEffect H c p H') (hok : H.Ok) (hc : NoCalloc c) (hu : UsedIn H.used live) :
    UsedIn H'.used (c.live live p) := by
  cases he with
  | malloc hm => exact usedIn_malloc hm hok hu
  | calloc hm => exact hc.elim
  | @realloc ptr size _ _ hm =>
    have hzero : size = 0 ↔ size.toNat = 0 := by rw [← UInt32.toNat_inj]; rfl
    simp only [HeapCall.live, hzero]
    cases hm with
    | nothing hsize hused =>
      split
      · exact usedIn_freed_of_missing hu hused
      · exact hu
    | alloc hptr hsize ha =>
      rw [if_neg (Nat.ne_of_gt hsize), if_neg (Nat.ne_of_gt (ha.ptr_pos hok)), hptr]
      refine usedIn_alloc ha hsize hok (usedIn_freed_of_missing hu fun b hb => ?_)
      exact Nat.ne_of_gt (hok.ptr_pos b (List.mem_append_left _ hb))
    | free hsize hf =>
      rw [if_pos hsize]
      exact usedIn_free hf hok hu
    | move hsize hb hptr ha hf =>
      rw [if_neg (Nat.ne_of_gt hsize), if_neg (Nat.ne_of_gt (ha.ptr_pos hok))]
      exact usedIn_move hsize hok ha hf hu
  | free hf => exact usedIn_free hf hok hu

/-- What holds in every state of a run without `kcalloc`. -/
def ExactInv (km : KernelMemory κ) (r : HeapRun κ) : Prop :=
  ∃ used free, r.heap.Rep km used free ∧ (r.heap.toHeap km used free).Ok ∧
    LiveIn (r.heap.toHeap km used free).used r.live ∧ UsedIn (r.heap.toHeap km used free).used r.live

theorem exactInv_start (km : KernelMemory κ) (k : κ) (mem : Memory) : ExactInv km (heapStart k mem) := by
  obtain ⟨used, free, hrep, hok, hl⟩ := heapInv_start km k mem
  refine ⟨used, free, hrep, hok, hl, ?_⟩
  obtain rfl : [] = used := Links.unique rfl hrep.left
  exact fun b hb => absurd hb List.not_mem_nil

theorem exactCalloc_of_noCalloc (hc : NoCalloc c) : ExactCalloc c := by
  cases c with
  | calloc num size => exact hc.elim
  | malloc size => trivial
  | realloc ptr size => trivial
  | free ptr => trivial

theorem exactInv_step {r r' : HeapRun κ} (hi : ExactInv km r) (hc : NoCalloc c) (hs : heapStep km r c = some r') : ExactInv km r' := by
  obtain ⟨used, free, hrep, hok, hl, hu⟩ := hi
  obtain ⟨⟨p, k⟩, hexec, rfl⟩ := Option.map_eq_some_iff.mp hs
  obtain ⟨used', free', hrep', he⟩ := exec_heap hrep hok hexec
  exact ⟨used', free', hrep', effect_ok he hok, effect_live he hok (exactCalloc_of_noCalloc hc) hl, effect_usedIn he hok hc hu⟩

/-! ## The call returns -/

/-- There is a descriptor if there is a page for new ones. -/
theorem takeDescriptor_returns {q : Nat} {k : κ} (hpage : km.allocPage h.km = some (q, k)) :
    ∃ node h', h.takeDescriptor km = some (node, h') ∧ (h'.km = h.km ∨ h'.km = k) := by
  cases hhead : h.heads .free with
  | none =>
    have hsome : (createUnusedNodes km h).isSome := by
      rw [createUnusedNodes, hpage]
      rfl
    obtain ⟨⟨node, h'⟩, hc⟩ := Option.isSome_iff_exists.mp hsome
    obtain ⟨k', hpage', honly⟩ := createUnusedNodes_spec hc
    obtain ⟨rfl, rfl⟩ := Prod.mk.inj (Option.some.inj (hpage.symm.trans hpage'))
    exact ⟨q, h', by rw [Kheap.takeDescriptor, hhead, hc], .inr honly.km⟩
  | some node => exact ⟨node, h.setHead .free (h.next node), by rw [Kheap.takeDescriptor, hhead], .inl rfl⟩

theorem createNode_returns (size ptr : Nat) (isFree : Bool) {q : Nat} {k : κ} (hpage : km.allocPage h.km = some (q, k)) :
    ∃ node h', createNode km h size ptr isFree = some (node, h') ∧ (h'.km = h.km ∨ h'.km = k) := by
  obtain ⟨node, h₁, htake, hkm⟩ := takeDescriptor_returns hpage
  have hcreate : createNode km h size ptr isFree =
      some (node, appendNode (h₁.setNode node fun n => { n with size := size, ptr := ptr }) (if isFree then .free else .used) node) := by
    rw [createNode, htake]
    rfl
  exact ⟨node, _, hcreate, hkm⟩

theorem moreMemory_returns (hserves : Serves km h.km size) : (h.moreMemory km size).isSome := by
  obtain ⟨p, k₁, q, k₂, hrange, hpage₁, hpage₂⟩ := hserves.range
  obtain ⟨⟨q', k₃⟩, hpage₂⟩ := Option.isSome_iff_exists.mp hpage₂
  rw [pagesFor] at hrange
  simp only [Kheap.moreMemory, hrange, Option.bind_eq_bind, Option.bind_some]
  generalize hn : size / 4096 + (if size % 4096 ≠ 0 then 1 else 0) = n
  generalize hh₀ : { h with km := k₁, obtained := ⟨p, n * 4096⟩ :: h.obtained } = h₀
  have hkm₀ : h₀.km = k₁ := by rw [← hh₀]
  obtain ⟨cur, h₁, hcreate, hkm₁⟩ := createNode_returns size p false (hkm₀ ▸ hpage₁)
  rw [hcreate, Option.bind_some]
  dsimp only
  split
  · -- the page for the second node is there, whether or not one was needed for the first
    have hsecond : ∃ q k, km.allocPage h₁.km = some (q, k) := by
      rcases hkm₁ with hkm₁ | hkm₁
      · exact ⟨q, k₂, by rw [hkm₁, hkm₀]; exact hpage₁⟩
      · exact ⟨q', k₃, by rw [hkm₁]; exact hpage₂⟩
    obtain ⟨q₁, k₄, hpage⟩ := hsecond
    obtain ⟨node, h₂, hcreate₂, -⟩ := createNode_returns (sub32 (n * 4096) size) (w32 (p + size)) true hpage
    rw [hcreate₂]
    rfl
  · rfl

theorem takeNode_returns (hserves : Serves km h.km size) (prev : Option Nat) (cur : Nat) : (h.takeNode km prev cur size).isSome := by
  simp only [Kheap.takeNode]
  generalize hh₁ : appendNode (h.unlinkNode .free prev cur) .used cur = h₁
  have hkm₁ : h₁.km = h.km := by
    rw [← hh₁]
    exact km_unlinkNode h .free prev cur
  split
  · obtain ⟨⟨q, k⟩, hpage⟩ := Option.isSome_iff_exists.mp hserves.page
    obtain ⟨node, h₂, hcreate, -⟩ := createNode_returns (sub32 (h₁.nodes cur).size size) (w32 ((h₁.nodes cur).ptr + size)) true
      (hkm₁.symm ▸ hpage)
    rw [hcreate]
    rfl
  · rfl

theorem kmalloc_returns {used free : List Nat} (hrep : h.Rep km used free) (hok : (h.toHeap km used free).Ok)
    (hserves : Serves km h.km size) : (kmalloc km h size).isSome := by
  by_cases hs : size < 1
  · rw [kmalloc, if_pos hs]
    rfl
  have hsome : (kmallocu km h size).isSome := by
    have hlen := length_le_nodeRounds hrep (List.sublist_append_right used free)
    obtain ⟨l₁, l₂, -, -, -, hwalk⟩ := exists_walkTo (fun a => size ≤ (h.nodes a).size) hrep.right hlen
    rw [kmallocu, if_neg hs, hwalk]
    cases l₂ with
    | nil => exact moreMemory_returns hserves
    | cons cur l₂ => exact takeNode_returns hserves _ cur
  obtain ⟨⟨p, h₁⟩, hm⟩ := Option.isSome_iff_exists.mp hsome
  obtain ⟨used', free', -, -, ha⟩ := kmallocu_heap hrep hok (Nat.not_lt.mp hs) hm
  rw [kmalloc, if_neg hs, hm]
  simp only [Option.bind_eq_bind, Option.bind_some, Nat.ne_of_gt (ha.ptr_pos hok), if_false, Option.isSome_some]

/-! ## What it does -/

section Live

variable {used free : List Nat} (hrep : h.Rep km used free) (hok : (h.toHeap km used free).Ok)
  (hlive : ⟨ptr, n⟩ ∈ (h.toHeap km used free).used) (hs : size ≠ 0)

include hrep hok hlive hs in
theorem krealloc_returns (hserves : Serves km h.km size) : (krealloc km h ptr size).isSome := by
  obtain ⟨⟨p, h₁⟩, hm⟩ := Option.isSome_iff_exists.mp (kmalloc_returns hrep hok hserves)
  obtain ⟨used', free', hrep', -, -⟩ := kmalloc_heap hrep hok hm
  obtain ⟨h₂, -, -, hfree, -⟩ := kfree_heap ptr (rep_mem (h₁.mem.copy p ptr (if size > n then n else size)) hrep')
  rw [krealloc_live hrep hok hlive hs, hm, Option.bind_some]
  dsimp only
  rw [hfree]
  rfl

include hrep hok hlive hs in
theorem krealloc_reallocated (hm : krealloc km h ptr size = some (p, h')) : Reallocated h h' ptr n size p := by
  rw [krealloc_live hrep hok hlive hs] at hm
  obtain ⟨⟨q, h₁⟩, hmalloc, hm⟩ := Option.bind_eq_some_iff.mp hm
  obtain ⟨h₂, hfree, he⟩ := Option.map_eq_some_iff.mp hm
  obtain ⟨rfl, rfl⟩ := Prod.mk.inj he
  obtain ⟨used₁, free₁, hrep₁, hmem₁, hm₁⟩ := kmalloc_heap hrep hok hmalloc
  obtain ⟨h₃, used₂, free₂, hfree', hrep₂, hmem₂, hf⟩ :=
    kfree_heap ptr (rep_mem (h₁.mem.copy q ptr (if size > n then n else size)) hrep₁)
  obtain rfl := Option.some.inj (hfree.symm.trans hfree')
  have hf : HeapFree (h₁.toHeap km used₁ free₁) ptr (h₂.toHeap km used₂ free₂) := hf
  have ha := hm₁.alloc_of_pos hs
  have hpos : 0 < size := Nat.pos_of_ne_zero hs
  have hok₁ := ha.ok hpos hok
  have hused₁ := ha.used_eq
  have hcopied : h₂.mem = h.mem.copy q ptr (min n size) := by
    rw [hmem₂]
    show h₁.mem.copy _ _ _ = _
    rw [hmem₁]
    congr 1
    split <;> omega
  have hne : q ≠ ptr := ptr_ne_of_alloc ha hpos hok hlive
  have hkept : ∀ c : Block, c ∈ (h.toHeap km used free).used → c.ptr ≠ ptr → c ∈ (h₂.toHeap km used₂ free₂).used := fun c hc hcp =>
    hf.mem_used (by rw [hused₁]; exact List.mem_cons_of_mem _ hc) hcp
  refine ⟨⟨Nat.ne_of_gt (ha.ptr_pos hok), ?_⟩, ?_, ?_, ?_, ?_⟩
  · rw [inUse_iff hrep₂]
    exact hf.mem_used (by rw [hused₁]; exact List.mem_cons_self) hne
  · intro i hi
    rw [hcopied, Memory.copy, if_pos (by omega), Nat.add_sub_cancel_left]
  · intro m hm
    rw [inUse_iff hrep₂] at hm
    exact not_used_of_free hf hok₁ _ hm rfl
  · intro r m hr hin
    rw [inUse_iff hrep] at hin
    refine ⟨(inUse_iff hrep₂).mpr (hkept _ hin hr), fun i hi => ?_⟩
    -- the new block has no byte in common with this one
    have hdis := hok₁.separate.disjoint
    rw [Heap.all, hused₁, List.cons_append] at hdis
    have hapart := (List.pairwise_cons.mp hdis).1 ⟨r, m⟩ (List.mem_append_left _ hin)
    rw [hcopied, Memory.copy, if_neg]
    rintro ⟨hlo, hhi⟩
    exact hapart (r + i) ⟨hlo, by show r + i < q + size; omega⟩ ⟨by show r ≤ r + i; omega, by show r + i < r + m; omega⟩
  · intro r m hin
    rw [inUse_iff hrep₂] at hin
    have hold := used_of_free hf _ hin
    rw [hused₁] at hold
    rcases List.mem_cons.mp hold with he | hold
    · exact .inl (Block.mk.inj he)
    · exact .inr ⟨not_used_of_free hf hok₁ _ hin, (inUse_iff hrep).mpr hold⟩

end Live

end ReallocAux

open ReallocAux KmallocAux

/-- In every state of a run of `kmalloc`, `kfree` and `krealloc`, whatever the blocks hold: the blocks in use are those that were
returned and not yet freed. For such a block, `krealloc` returns if the kernel's memory serves it, and when it returns, the block is
reallocated. For any other pointer but the null pointer it returns the null pointer and changes nothing. -/
theorem krealloc_moves (km : KernelMemory κ) (k : κ) (mem₀ mem : Memory) (r : HeapRun κ)
    (hr : Reach (heapStep km) (fun _ => NoCalloc) (heapStart k mem₀) r) :
    (∀ p n, r.live p = some n ↔ (r.heap.withMem mem).InUse p n) ∧
    (∀ ptr n size, r.live ptr = some n → 1 ≤ size →
      (Serves km r.heap.km size → (krealloc km (r.heap.withMem mem) ptr size).isSome) ∧
      ∀ p h', krealloc km (r.heap.withMem mem) ptr size = some (p, h') →
        Reallocated (r.heap.withMem mem) h' ptr n size p) ∧
    ∀ ptr size, ptr ≠ 0 → r.live ptr = none →
      krealloc km (r.heap.withMem mem) ptr size = some (0, r.heap.withMem mem) := by
  obtain ⟨used, free, hrep₀, hok, hl, hu⟩ := hr.inv (ExactInv km) (exactInv_start km k mem₀) fun _ _ _ hi hc hs => exactInv_step hi hc hs
  have hrep : (r.heap.withMem mem).Rep km used free := rep_mem mem hrep₀
  refine ⟨fun p n => ?_, fun ptr n size hlive hsize => ?_, fun ptr size hptr hlive => ?_⟩
  · rw [inUse_iff hrep]
    exact ⟨hl p n, fun hb => hu _ hb⟩
  · have hs : size ≠ 0 := Nat.ne_of_gt hsize
    have hok : ((r.heap.withMem mem).toHeap km used free).Ok := hok
    have hused : ⟨ptr, n⟩ ∈ ((r.heap.withMem mem).toHeap km used free).used := hl ptr n hlive
    refine ⟨fun hserves => ?_, fun p h' hm => krealloc_reallocated hrep hok hused hs hm⟩
    have hserves : Serves km (r.heap.withMem mem).km size := hserves
    exact krealloc_returns hrep hok hused hs hserves
  · refine krealloc_missing hrep hptr (fun b hb he => ?_) size
    have hblock := hu b hb
    rw [he, hlive] at hblock
    cases hblock

/-- A block of 100 bytes, each of which holds its address, grows to 200 bytes. -/
theorem grown_block :
    ∃ r p h', heapStep nextMemory (heapStart 4096 fun _ => 0) (.malloc 100) = some r ∧
      krealloc nextMemory (r.heap.withMem fun a => UInt8.ofNat a) 4096 200 = some (p, h') ∧ h'.InUse p 200 ∧
      (∀ m, ¬h'.InUse 4096 m) ∧ ∀ i < 100, h'.mem (p + i) = UInt8.ofNat (4096 + i) := by
  have hrun : (heapStep nextMemory (heapStart 4096 fun _ => 0) (.malloc 100)).map (fun r => (r.live 4096, r.heap.km)) =
      some (some 100, 16384) := by decide +kernel
  obtain ⟨r, hr, hres⟩ := Option.map_eq_some_iff.mp hrun
  obtain ⟨hlive, hkm⟩ := Prod.mk.inj hres
  have hreach : Reach (heapStep nextMemory) (fun _ => NoCalloc) (heapStart 4096 fun _ => 0) r := .step (.malloc 100) .init trivial hr
  have hserves : Serves nextMemory r.heap.km 200 := by
    rw [hkm]
    exact ⟨rfl, 16384, 20480, 20480, 24576, rfl, rfl, rfl⟩
  obtain ⟨-, hmoves, -⟩ := krealloc_moves nextMemory 4096 (fun _ => 0) (fun a => UInt8.ofNat a) r hreach
  obtain ⟨hreturns, hspec⟩ := hmoves 4096 100 200 hlive (by decide)
  obtain ⟨⟨p, h'⟩, hm⟩ := Option.isSome_iff_exists.mp (hreturns hserves)
  have hre := hspec p h' hm
  exact ⟨r, p, h', hr, hm, hre.returned.2, hre.freed, fun i hi => hre.contents i (by omega)⟩

end Kos
