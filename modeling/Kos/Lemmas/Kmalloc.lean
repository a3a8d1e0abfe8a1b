import Kos.Mm.Kmalloc
import Kos.Mm.Heap

/-!
# The heap's functions on lists of blocks

`kmallocu` and `kfree`, which work on nodes and pointers, do to the blocks that the two lists describe what `HeapAlloc` and `HeapFree`
say (`kmallocu_heap`, `kfree_heap`).
-/

namespace Kos

variable {κ : Type} {km : KernelMemory κ} {h h' : Kheap κ}

/-- The block that a node describes. -/
def Kheap.block (h : Kheap κ) (a : Nat) : Block := ⟨(h.nodes a).ptr, (h.nodes a).size⟩

/-- Two of the lists, and the nodes in them: no node is in both, or twice in one. -/
structure Kheap.Lists (h : Kheap κ) (x y : NodeList) (lx ly : List Nat) : Prop where
  ne : x ≠ y
  left : Links h.next (h.heads x) lx
  right : Links h.next (h.heads y) ly
  nodup : (lx ++ ly).Nodup

/-- The nodes of the blocks in use and of the free ones; they lie in memory that was handed out. -/
structure Kheap.Rep (km : KernelMemory κ) (h : Kheap κ) (used free : List Nat) : Prop
    extends h.Lists .used .free used free where
  node : ∀ a ∈ used ++ free, a < 4294967296 ∧ km.Given h.km a

/-- The heap that the nodes describe. -/
def Kheap.toHeap (km : KernelMemory κ) (h : Kheap κ) (used free : List Nat) : Heap :=
  ⟨used.map h.block, free.map h.block, h.obtained, {x | km.Given h.km x}⟩

namespace KmallocAux

/-! ## The pointers -/

@[simp] theorem next_setNext (h : Kheap κ) (a : Nat) (q : Option Nat) : (h.setNext a q).next = Function.update h.next a q := by
  funext b
  by_cases hb : b = a
  · subst hb
    simp [Kheap.next, Kheap.setNext, Kheap.setNode]
  · simp [Kheap.next, Kheap.setNext, Kheap.setNode, hb]

theorem next_setNode (h : Kheap κ) (a : Nat) {f : MemNode → MemNode} (hf : ∀ n, (f n).next = n.next) :
    (h.setNode a f).next = h.next := by
  funext b
  by_cases hb : b = a
  · subst hb
    simp [Kheap.next, Kheap.setNode, hf]
  · simp [Kheap.next, Kheap.setNode, hb]

@[simp] theorem next_setHead (h : Kheap κ) (list : NodeList) (q : Option Nat) : (h.setHead list q).next = h.next := rfl

@[simp] theorem heads_setHead_self (h : Kheap κ) (list : NodeList) (q : Option Nat) : (h.setHead list q).heads list = q := by
  simp [Kheap.setHead]

theorem heads_setHead_ne (h : Kheap κ) {list list' : NodeList} (q : Option Nat) (hl : list' ≠ list) :
    (h.setHead list q).heads list' = h.heads list' := by
  simp [Kheap.setHead, hl]

@[simp] theorem block_setNext (h : Kheap κ) (a : Nat) (q : Option Nat) : (h.setNext a q).block = h.block := by
  funext b
  by_cases hb : b = a
  · subst hb
    simp [Kheap.block, Kheap.setNext, Kheap.setNode]
  · simp [Kheap.block, Kheap.setNext, Kheap.setNode, hb]

theorem block_setNode_ne (h : Kheap κ) {a b : Nat} (f : MemNode → MemNode) (hb : b ≠ a) :
    (h.setNode a f).block b = h.block b := by
  simp [Kheap.block, Kheap.setNode, hb]

@[simp] theorem block_appendNode (h : Kheap κ) (list : NodeList) (node : Nat) : (appendNode h list node).block = h.block :=
  block_setNext h node _

@[simp] theorem block_unlinkNode (h : Kheap κ) (list : NodeList) (prev : Option Nat) (cur : Nat) :
    (h.unlinkNode list prev cur).block = h.block := by
  cases prev with
  | none => rfl
  | some b => exact block_setNext h b _

variable {x y : NodeList} {lx ly l₁ l₂ : List Nat} {a : Nat}

theorem lists_swap (h₁ : h.Lists x y lx ly) : h.Lists y x ly lx :=
  ⟨h₁.ne.symm, h₁.right, h₁.left, List.nodup_append_comm.mp h₁.nodup⟩

/-- A node that is in neither list is put in front of one. -/
theorem lists_push (h₁ : h.Lists x y lx ly) (ha : a ∉ lx ++ ly) : (appendNode h x a).Lists x y (a :: lx) ly := by
  have hother : ∀ b ∈ lx ++ ly, Function.update h.next a (h.heads x) b = h.next b := by
    intro b hb
    refine Function.update_of_ne ?_ _ _
    rintro rfl
    exact ha hb
  have hnext : (appendNode h x a).next = Function.update h.next a (h.heads x) := next_setNext h a _
  refine ⟨h₁.ne, ?_, ?_, List.nodup_cons.mpr ⟨ha, h₁.nodup⟩⟩
  · rw [hnext]
    refine ⟨heads_setHead_self _ x _, ?_⟩
    rw [Function.update_self]
    exact h₁.left.congr fun b hb => hother b (List.mem_append_left ly hb)
  · have hhead : (appendNode h x a).heads y = h.heads y := heads_setHead_ne _ _ h₁.ne.symm
    rw [hnext, hhead]
    exact h₁.right.congr fun b hb => hother b (List.mem_append_right lx hb)

/-- A node is taken out of its list. -/
theorem lists_unlink (h₁ : h.Lists x y (l₁ ++ a :: l₂) ly) : (h.unlinkNode x l₁.getLast? a).Lists x y (l₁ ++ l₂) ly := by
  have hsub : (l₁ ++ l₂ ++ ly).Sublist (l₁ ++ a :: l₂ ++ ly) :=
    ((List.Sublist.refl l₁).append (List.sublist_cons_self a l₂)).append (List.Sublist.refl ly)
  have hnd := h₁.nodup.sublist hsub
  cases hprev : l₁.getLast? with
  | none =>
    obtain rfl := List.getLast?_eq_none_iff.mp hprev
    refine ⟨h₁.ne, ?_, ?_, hnd⟩
    · rw [Kheap.unlinkNode, next_setHead, heads_setHead_self]
      exact h₁.left.2
    · rw [Kheap.unlinkNode, next_setHead, heads_setHead_ne _ _ h₁.ne.symm]
      exact h₁.right
  | some b =>
    have hb : b ∉ ly := fun hm => (List.nodup_append.mp hnd).2.2 b (List.mem_append_left l₂ (List.mem_of_getLast? hprev)) b hm rfl
    refine ⟨h₁.ne, ?_, ?_, hnd⟩
    · rw [Kheap.unlinkNode, next_setNext]
      exact h₁.left.unlink (List.nodup_append.mp hnd).1 hprev
    · rw [Kheap.unlinkNode, next_setNext]
      refine h₁.right.congr fun c hc => Function.update_of_ne ?_ _ _
      rintro rfl
      exact hb hc

/-! ## New nodes -/

/-- The bytes of the blocks and the ranges are the same, and no memory was given back. -/
structure Kept (km : KernelMemory κ) (h h' : Kheap κ) : Prop where
  mem : h'.mem = h.mem
  obtained : h'.obtained = h.obtained
  given : ∀ a, km.Given h.km a → km.Given h'.km a

theorem Kept.refl (km : KernelMemory κ) (h : Kheap κ) : Kept km h h := ⟨rfl, rfl, fun _ => id⟩

/-- Only the nodes of one page, and the list of the unused ones, were changed. -/
structure OnlyPage (p : Nat) (h h' : Kheap κ) : Prop where
  used : h'.heads .used = h.heads .used
  free : h'.heads .free = h.heads .free
  nodes : ∀ a, ¬(p ≤ a ∧ a < p + 4096) → h'.nodes a = h.nodes a
  mem : h'.mem = h.mem
  obtained : h'.obtained = h.obtained
  km : h'.km = h.km

theorem onlyPage_append {p i : Nat} (h₁ : OnlyPage p h h') (hi : i < 4096 / memNodeSize) :
    OnlyPage p h (appendNode h' .unused (p + i * memNodeSize)) := by
  refine ⟨?_, ?_, fun a ha => ?_, h₁.mem, h₁.obtained, h₁.km⟩
  · exact (heads_setHead_ne _ _ (by decide)).trans h₁.used
  · exact (heads_setHead_ne _ _ (by decide)).trans h₁.free
  · have hne : a ≠ p + i * memNodeSize := by
      rintro rfl
      simp only [memNodeSize, Nat.reduceDiv] at hi ha
      omega
    rw [← h₁.nodes a ha]
    simp [appendNode, Kheap.setHead, Kheap.setNext, Kheap.setNode, hne]

/-- The nodes of a new page; none of them was known before. -/
theorem createUnusedNodes_spec {p : Nat} (hc : createUnusedNodes km h = some (p, h')) :
    ∃ k, km.allocPage h.km = some (p, k) ∧ OnlyPage p { h with km := k } h' := by
  obtain ⟨⟨q, k⟩, hpage, hc⟩ := Option.bind_eq_some_iff.mp hc
  simp only [Option.some.injEq, Prod.mk.injEq] at hc
  obtain ⟨rfl, rfl⟩ := hc
  refine ⟨k, hpage, ?_⟩
  have hclear : OnlyPage q { h with km := k } ({ h with km := k }.clearNodes q) :=
    ⟨rfl, rfl, fun a ha => if_neg ha, rfl, rfl, rfl⟩
  refine List.foldlRecOn (motive := OnlyPage q { h with km := k }) _ _ hclear fun h₁ hh₁ i hi => ?_
  exact onlyPage_append hh₁ (List.mem_range.mp hi)

/-! ## `create_node` -/

theorem lists_congr (h₁ : h.Lists x y lx ly) (hx : h'.heads x = h.heads x) (hy : h'.heads y = h.heads y)
    (hn : ∀ a ∈ lx ++ ly, h'.next a = h.next a) : h'.Lists x y lx ly := by
  refine ⟨h₁.ne, ?_, ?_, h₁.nodup⟩
  · rw [hx]
    exact h₁.left.congr fun a ha => hn a (List.mem_append_left ly ha)
  · rw [hy]
    exact h₁.right.congr fun a ha => hn a (List.mem_append_right lx ha)

/-- The node that `create_node` takes is in neither list any more. -/
theorem takeDescriptor_spec {used free : List Nat} {node : Nat} (hrep : h.Rep km used free)
    (ht : h.takeDescriptor km = some (node, h')) :
    h'.Rep km used free.tail ∧ node ∉ used ++ free.tail ∧ node < 4294967296 ∧ km.Given h'.km node ∧ Kept km h h' ∧
      ∀ a ∈ used ++ free.tail, h'.block a = h.block a := by
  cases free with
  | nil =>
    have hhead : h.heads .free = none := hrep.right
    rw [Kheap.takeDescriptor, hhead] at ht
    obtain ⟨k, hpage, honly⟩ := createUnusedNodes_spec ht
    have hold : ∀ a ∈ used ++ [], h'.nodes a = h.nodes a := by
      intro a ha
      refine honly.nodes a fun hin => ?_
      exact (km.page_new hpage a hin.1 hin.2).1 (hrep.node a ha).2
    obtain ⟨hpos, hend⟩ := km.page_pos hpage
    have hnode := km.page_new hpage node (Nat.le_refl _) (by omega)
    refine ⟨⟨lists_congr hrep.toLists honly.used honly.free fun a ha => congrArg MemNode.next (hold a ha), fun a ha => ?_⟩,
      fun hm => hnode.1 (hrep.node node hm).2, by omega, honly.km ▸ hnode.2, ⟨honly.mem, honly.obtained, ?_⟩, fun a ha => ?_⟩
    · rw [honly.km]
      exact ⟨(hrep.node a ha).1, km.page_keeps hpage a (hrep.node a ha).2⟩
    · rw [honly.km]
      exact km.page_keeps hpage
    · simp only [Kheap.block, hold a ha]
  | cons b free =>
    have hhead : h.heads .free = some b := hrep.right.1
    rw [Kheap.takeDescriptor, hhead] at ht
    cases ht
    have hswap : h.Lists .free .used ([] ++ node :: free) used := lists_swap hrep.toLists
    have hlists := lists_swap (lists_unlink hswap)
    have hsub : ∀ a ∈ used ++ free, a ∈ used ++ node :: free := fun a ha =>
      (List.Sublist.append (.refl used) (List.sublist_cons_self node free)).subset ha
    have hnode := hrep.node node (by simp)
    refine ⟨⟨hlists, fun a ha => hrep.node a (hsub a ha)⟩, ?_, hnode.1, hnode.2, ⟨rfl, rfl, fun _ => id⟩, fun a _ => rfl⟩
    exact (List.nodup_cons.mp (List.nodup_middle.mp hrep.nodup)).1

theorem rep_push_used {used free : List Nat} {node : Nat} (hrep : h.Rep km used free) (hn : node ∉ used ++ free)
    (hnode : node < 4294967296 ∧ km.Given h.km node) : (appendNode h .used node).Rep km (node :: used) free :=
  ⟨lists_push hrep.toLists hn, List.forall_mem_cons.mpr ⟨hnode, hrep.node⟩⟩

theorem rep_push_free {used free : List Nat} {node : Nat} (hrep : h.Rep km used free) (hn : node ∉ used ++ free)
    (hnode : node < 4294967296 ∧ km.Given h.km node) : (appendNode h .free node).Rep km used (node :: free) := by
  have hn' : node ∉ free ++ used := fun hm => hn (List.mem_append.mpr (List.mem_append.mp hm).symm)
  refine ⟨lists_swap (lists_push (lists_swap hrep.toLists) hn'), fun a ha => ?_⟩
  rcases List.mem_cons.mp (List.perm_middle.mem_iff.mp ha) with rfl | ha
  · exact hnode
  · exact hrep.node a ha

theorem unlinkNode_kept (h : Kheap κ) (list : NodeList) (prev : Option Nat) (cur : Nat) :
    Kept km h (h.unlinkNode list prev cur) := by
  cases prev <;> exact ⟨rfl, rfl, fun _ => id⟩

theorem km_unlinkNode (h : Kheap κ) (list : NodeList) (prev : Option Nat) (cur : Nat) :
    (h.unlinkNode list prev cur).km = h.km := by
  cases prev <;> rfl

theorem rep_unlink_free {used l₁ l₂ : List Nat} {a : Nat} (hrep : h.Rep km used (l₁ ++ a :: l₂)) :
    (h.unlinkNode .free l₁.getLast? a).Rep km used (l₁ ++ l₂) ∧ Kept km h (h.unlinkNode .free l₁.getLast? a) := by
  have hkept : Kept km h (h.unlinkNode .free l₁.getLast? a) := unlinkNode_kept h .free _ a
  refine ⟨⟨lists_swap (lists_unlink (lists_swap hrep.toLists)), fun b hb => ?_⟩, hkept⟩
  have hb := hrep.node b
    (((List.Sublist.refl used).append ((List.Sublist.refl l₁).append (List.sublist_cons_self a l₂))).subset hb)
  exact ⟨hb.1, hkept.given b hb.2⟩

theorem rep_unlink_used {free l₁ l₂ : List Nat} {a : Nat} (hrep : h.Rep km (l₁ ++ a :: l₂) free) :
    (h.unlinkNode .used l₁.getLast? a).Rep km (l₁ ++ l₂) free ∧ Kept km h (h.unlinkNode .used l₁.getLast? a) := by
  have hkept : Kept km h (h.unlinkNode .used l₁.getLast? a) := unlinkNode_kept h .used _ a
  refine ⟨⟨lists_unlink hrep.toLists, fun b hb => ?_⟩, hkept⟩
  have hb := hrep.node b
    ((((List.Sublist.refl l₁).append (List.sublist_cons_self a l₂)).append (List.Sublist.refl free)).subset hb)
  exact ⟨hb.1, hkept.given b hb.2⟩

theorem rep_setNode {used free : List Nat} (a : Nat) {f : MemNode → MemNode} (hf : ∀ n, (f n).next = n.next)
    (hrep : h.Rep km used free) : (h.setNode a f).Rep km used free :=
  ⟨lists_congr hrep.toLists rfl rfl fun b _ => congrFun (next_setNode h a hf) b, hrep.node⟩

/-- What `create_node` does: the front of the free list is left out, and the new node is in front of its list. -/
structure Created (km : KernelMemory κ) (h h' : Kheap κ) (used free : List Nat) (node : Nat) (b : Block) (isFree : Bool) : Prop where
  rep : h'.Rep km (if isFree then used else node :: used) (if isFree then node :: free.tail else free.tail)
  new : node ∉ used ++ free.tail
  kept : Kept km h h'
  block : h'.block node = b
  others : ∀ a ∈ used ++ free.tail, h'.block a = h.block a

theorem createNode_spec {used free : List Nat} {size ptr node : Nat} {isFree : Bool} (hrep : h.Rep km used free)
    (hc : createNode km h size ptr isFree = some (node, h')) : Created km h h' used free node ⟨ptr, size⟩ isFree := by
  obtain ⟨⟨n, h₁⟩, ht, hc⟩ := Option.bind_eq_some_iff.mp hc
  simp only [Option.some.injEq, Prod.mk.injEq] at hc
  obtain ⟨rfl, rfl⟩ := hc
  obtain ⟨hrep₁, hnew, hlt, hgiven, hkept, hblocks⟩ := takeDescriptor_spec hrep ht
  have hrep₂ : (h₁.setNode n fun n => { n with size := size, ptr := ptr }).Rep km used free.tail := by
    refine rep_setNode n ?_ hrep₁
    exact fun _ => rfl
  refine ⟨?_, hnew, ⟨hkept.mem, hkept.obtained, hkept.given⟩, ?_, fun a ha => ?_⟩
  · cases isFree with
    | false => exact rep_push_used hrep₂ hnew ⟨hlt, hgiven⟩
    | true => exact rep_push_free hrep₂ hnew ⟨hlt, hgiven⟩
  · rw [block_appendNode]
    simp [Kheap.block, Kheap.setNode]
  · have hne : a ≠ n := fun he => hnew (he ▸ ha)
    rw [block_appendNode, block_setNode_ne _ _ hne, hblocks a ha]

/-- The lists do not depend on what is in the blocks. -/
theorem rep_mem {used free : List Nat} (mem : Memory) (hrep : h.Rep km used free) : Kheap.Rep km { h with mem := mem } used free :=
  ⟨⟨hrep.ne, hrep.left, hrep.right, hrep.nodup⟩, hrep.node⟩

/-! ## The walks -/

/-- There are fewer nodes in the lists than addresses, so the walks over them end. -/
theorem length_le_nodeRounds {used free l : List Nat} (hrep : h.Rep km used free) (hl : l.Sublist (used ++ free)) :
    l.length ≤ nodeRounds := by
  have hsub : l ⊆ List.range nodeRounds := fun a ha => List.mem_range.mpr (hrep.node a (hl.subset ha)).1
  have hle := (List.subperm_of_subset (hrep.nodup.sublist hl) hsub).length_le
  rwa [List.length_range] at hle

/-- The blocks of a list of nodes are the same when each node's is. -/
theorem map_block_congr {l : List Nat} (hb : ∀ a ∈ l, h'.block a = h.block a) : l.map h'.block = l.map h.block :=
  List.map_congr_left hb

/-! ## `kmallocu` -/

/-- The heap after a node was created for a block in use. -/
theorem created_toHeap {used free : List Nat} {node : Nat} {b : Block} (hc : Created km h h' used free node b false) :
    h'.toHeap km (node :: used) free.tail =
      ⟨b :: used.map h.block, (free.map h.block).tail, h.obtained, {x | km.Given h'.km x}⟩ := by
  have hused : used.map h'.block = used.map h.block := map_block_congr fun a ha => hc.others a (List.mem_append_left _ ha)
  have hfree : free.tail.map h'.block = (free.map h.block).tail := by
    rw [← List.map_tail]
    exact map_block_congr fun a ha => hc.others a (List.mem_append_right _ ha)
  simp only [Kheap.toHeap, List.map_cons, hc.block, hused, hfree, hc.kept.obtained]

/-- The heap after another node was created, for a free block. -/
theorem created_free_toHeap {h₁ h₂ : Kheap κ} {used free : List Nat} {cur node : Nat} {b c : Block}
    (h₁c : Created km h h₁ used free cur b false) (h₂c : Created km h₁ h₂ (cur :: used) free.tail node c true) :
    h₂.block cur = b ∧ h₂.toHeap km (cur :: used) (node :: free.tail.tail) =
      ⟨b :: used.map h.block, c :: (free.map h.block).tail.tail, h.obtained, {x | km.Given h₂.km x}⟩ := by
  have hcur : h₂.block cur = b := by
    rw [h₂c.others cur (List.mem_append_left _ List.mem_cons_self), h₁c.block]
  have hused : used.map h₂.block = used.map h.block := map_block_congr fun a ha =>
    (h₂c.others a (List.mem_append_left _ (List.mem_cons_of_mem cur ha))).trans (h₁c.others a (List.mem_append_left _ ha))
  have hfree : free.tail.tail.map h₂.block = (free.map h.block).tail.tail := by
    rw [← List.map_tail, ← List.map_tail]
    exact map_block_congr fun a ha =>
      (h₂c.others a (List.mem_append_right _ ha)).trans (h₁c.others a (List.mem_append_right _ (List.mem_of_mem_tail ha)))
  refine ⟨hcur, ?_⟩
  simp only [Kheap.toHeap, List.map_cons, hcur, h₂c.block, hused, hfree, h₂c.kept.obtained, h₁c.kept.obtained]

/-- The part for a size that no free node has. -/
theorem moreMemory_heap {used free : List Nat} {size ptr : Nat} (hrep : h.Rep km used free)
    (hfree : ∀ a ∈ free, (h.nodes a).size < size) (hm : h.moreMemory km size = some (ptr, h')) :
    ∃ used' free', h'.Rep km used' free' ∧ h'.mem = h.mem ∧
      HeapAlloc (h.toHeap km used free) size ptr (h'.toHeap km used' free') := by
  simp only [Kheap.moreMemory] at hm
  generalize hn : size / 4096 + (if size % 4096 ≠ 0 then 1 else 0) = n at hm
  have hle : size ≤ n * 4096 := by
    split at hn <;> omega
  obtain ⟨⟨p, k⟩, hrange, hm⟩ := Option.bind_eq_some_iff.mp hm
  obtain ⟨⟨cur, h₁⟩, hcreate, hm⟩ := Option.bind_eq_some_iff.mp hm
  obtain ⟨hpos, hend⟩ := km.range_pos hrange
  have hrep₀ : Kheap.Rep km { h with km := k, obtained := ⟨p, n * 4096⟩ :: h.obtained } used free :=
    ⟨⟨hrep.ne, hrep.left, hrep.right, hrep.nodup⟩, fun a ha => ⟨(hrep.node a ha).1, km.range_keeps hrange a (hrep.node a ha).2⟩⟩
  have h₁c := createNode_spec hrep₀ hcreate
  have hnew : ∀ x, Block.Has ⟨p, n * 4096⟩ x → x ∉ (h.toHeap km used free).given ∧ km.Given k x := fun x hx =>
    km.range_new hrange x hx.1 hx.2
  have hsmall : ∀ c ∈ (h.toHeap km used free).free, c.size < size := List.forall_mem_map.mpr hfree
  have hw : w32 (n * 4096) = n * 4096 := w32_of_lt (by omega)
  rw [hw] at hm
  by_cases hlt : n * 4096 > size
  · rw [if_pos hlt] at hm
    obtain ⟨⟨node, h₂⟩, hcreate₂, hm⟩ := Option.bind_eq_some_iff.mp hm
    cases hm
    have hrest : (⟨w32 (p + size), sub32 (n * 4096) size⟩ : Block) = Block.rest ⟨p, n * 4096⟩ size := by
      rw [sub32_of_le (Nat.le_of_lt hlt) (by omega), w32_of_lt (by omega)]
      rfl
    have h₂c := createNode_spec h₁c.rep hcreate₂
    rw [hrest] at h₂c
    obtain ⟨hcur, heq⟩ := created_free_toHeap h₁c h₂c
    have hptr₂ : (h₂.nodes cur).ptr = p := congrArg Block.ptr hcur
    refine ⟨cur :: used, node :: free.tail.tail, h₂c.rep, h₂c.kept.mem.trans h₁c.kept.mem, ?_⟩
    rw [heq, hptr₂]
    refine .newSplit hsmall hlt hpos hend (fun x hx => ⟨(hnew x hx).1, ?_⟩) fun x hx => ?_
    · exact h₂c.kept.given x (h₁c.kept.given x (hnew x hx).2)
    · exact h₂c.kept.given x (h₁c.kept.given x (km.range_keeps hrange x hx))
  · rw [if_neg hlt] at hm
    cases hm
    have hsize : n * 4096 = size := Nat.le_antisymm (Nat.not_lt.mp hlt) hle
    have hptr₁ : (h₁.nodes cur).ptr = p := congrArg Block.ptr h₁c.block
    rw [← hsize] at h₁c
    refine ⟨cur :: used, free.tail, h₁c.rep, h₁c.kept.mem, ?_⟩
    rw [created_toHeap h₁c, hptr₁]
    refine .new hsmall hsize hpos hend (fun x hx => ⟨(hnew x hx).1, ?_⟩) fun x hx => ?_
    · exact h₁c.kept.given x (hnew x hx).2
    · exact h₁c.kept.given x (km.range_keeps hrange x hx)

/-- A node of a block in use is cut to the first bytes, and a new free node has the rest. -/
theorem cut_toHeap {h₁ h₂ : Kheap κ} {used free : List Nat} {cur node size : Nat} {f : MemNode → MemNode}
    (hcur : cur ∉ used ++ free) (hc : Created km h₁ h₂ (cur :: used) free node ((h₁.block cur).rest size) true)
    (hf : ∀ n, f n = { n with size := size }) :
    (h₂.setNode cur f).block cur = (h₁.block cur).first size ∧
      (h₂.setNode cur f).toHeap km (cur :: used) (node :: free.tail) = ⟨(h₁.block cur).first size :: used.map h₁.block,
        (h₁.block cur).rest size :: (free.map h₁.block).tail, h₁.obtained, {x | km.Given h₂.km x}⟩ := by
  have hnode : node ≠ cur := by
    rintro rfl
    exact hc.new (List.mem_append_left _ List.mem_cons_self)
  have hfirst : (h₂.setNode cur f).block cur = (h₁.block cur).first size := by
    have hptr : (h₂.nodes cur).ptr = (h₁.nodes cur).ptr :=
      congrArg Block.ptr (hc.others cur (List.mem_append_left _ List.mem_cons_self))
    simp [Kheap.block, Kheap.setNode, Block.first, hf, hptr]
  have hrest : (h₂.setNode cur f).block node = (h₁.block cur).rest size := by
    rw [block_setNode_ne _ _ hnode, hc.block]
  have hothers : ∀ a ∈ used ++ free.tail, (h₂.setNode cur f).block a = h₁.block a := by
    intro a ha
    have hne : a ≠ cur := by
      rintro rfl
      exact hcur (((List.Sublist.refl used).append (List.tail_sublist _)).subset ha)
    rw [block_setNode_ne _ _ hne, hc.others a (List.mem_cons_of_mem cur ha)]
  have hused : used.map (h₂.setNode cur f).block = used.map h₁.block :=
    map_block_congr fun a ha => hothers a (List.mem_append_left _ ha)
  have hfree : free.tail.map (h₂.setNode cur f).block = free.tail.map h₁.block :=
    map_block_congr fun a ha => hothers a (List.mem_append_right _ ha)
  have hobt : (h₂.setNode cur f).obtained = h₁.obtained := hc.kept.obtained
  refine ⟨hfirst, ?_⟩
  simp only [Kheap.toHeap, List.map_cons, hfirst, hrest, hused, hfree, hobt, List.map_tail]
  rfl

/-- The part for a free node that is large enough. -/
theorem takeNode_heap {used l₁ l₂ : List Nat} {cur size ptr : Nat} (hrep : h.Rep km used (l₁ ++ cur :: l₂))
    (hend : (h.nodes cur).ptr + (h.nodes cur).size ≤ 4294967296) (hpos : 0 < (h.nodes cur).ptr)
    (hsize : size ≤ (h.nodes cur).size) (hfirst : ∀ a ∈ l₁, (h.nodes a).size < size)
    (hm : h.takeNode km l₁.getLast? cur size = some (ptr, h')) :
    ∃ used' free', h'.Rep km used' free' ∧ h'.mem = h.mem ∧
      HeapAlloc (h.toHeap km used (l₁ ++ cur :: l₂)) size ptr (h'.toHeap km used' free') := by
  obtain ⟨hrep₁, hkept₁⟩ := rep_unlink_free hrep
  have hcur : cur ∉ used ++ (l₁ ++ l₂) := by
    have hnd := hrep.nodup
    rw [← List.append_assoc] at hnd ⊢
    exact (List.nodup_cons.mp (List.nodup_middle.mp hnd)).1
  have hnode := hrep.node cur (by simp)
  have hrep₂ := rep_push_used hrep₁ hcur ⟨hnode.1, hkept₁.given cur hnode.2⟩
  simp only [Kheap.takeNode] at hm
  generalize hh₂ : appendNode (h.unlinkNode .free l₁.getLast? cur) .used cur = h₂ at hm hrep₂
  have hblock₂ : h₂.block = h.block := by rw [← hh₂, block_appendNode, block_unlinkNode]
  have hkept₂ : Kept km h h₂ := by
    rw [← hh₂]
    exact ⟨hkept₁.mem, hkept₁.obtained, hkept₁.given⟩
  have hcursize : (h₂.nodes cur).size = (h.nodes cur).size := congrArg Block.size (congrFun hblock₂ cur)
  have hcurptr : (h₂.nodes cur).ptr = (h.nodes cur).ptr := congrArg Block.ptr (congrFun hblock₂ cur)
  have hfree : (h.toHeap km used (l₁ ++ cur :: l₂)).free = l₁.map h.block ++ h.block cur :: l₂.map h.block := by
    simp [Kheap.toHeap]
  have hsmall : ∀ c ∈ l₁.map h.block, c.size < size := List.forall_mem_map.mpr hfirst
  rw [hcursize, hcurptr] at hm
  by_cases hlt : (h.nodes cur).size > size
  · rw [if_pos hlt] at hm
    obtain ⟨⟨node, h₃⟩, hcreate, hm⟩ := Option.bind_eq_some_iff.mp hm
    have hrest : (⟨w32 ((h.nodes cur).ptr + size), sub32 (h.nodes cur).size size⟩ : Block) = (h₂.block cur).rest size := by
      rw [hblock₂, sub32_of_le hsize (by omega), w32_of_lt (by omega)]
      rfl
    have h₃c := createNode_spec hrep₂ hcreate
    rw [hrest] at h₃c
    obtain ⟨hptr, rfl⟩ := Prod.mk.inj (Option.some.inj hm)
    obtain ⟨hcut, heq⟩ := cut_toHeap (f := fun n => { n with size := size }) hcur h₃c fun _ => rfl
    have hptr : ptr = (h.block cur).ptr := by
      rw [← hptr, ← hblock₂]
      exact congrArg Block.ptr hcut
    refine ⟨cur :: used, node :: (l₁ ++ l₂).tail, rep_setNode cur (fun _ => rfl) h₃c.rep, h₃c.kept.mem.trans hkept₂.mem, ?_⟩
    rw [heq, hptr, hblock₂, hkept₂.obtained, List.map_append]
    exact .split hfree hsmall hlt fun x hx => h₃c.kept.given x (hkept₂.given x hx)
  · rw [if_neg hlt] at hm
    obtain ⟨hptr, hh'⟩ := Prod.mk.inj (Option.some.inj hm)
    have hexact : (h.nodes cur).size = size := Nat.le_antisymm (Nat.not_lt.mp hlt) hsize
    have hkm : h₂.km = h.km := by
      rw [← hh₂]
      exact km_unlinkNode h .free _ cur
    have heq : h₂.toHeap km (cur :: used) (l₁ ++ l₂) = { h.toHeap km used (l₁ ++ cur :: l₂) with
        used := h.block cur :: used.map h.block, free := l₁.map h.block ++ l₂.map h.block } := by
      simp only [Kheap.toHeap, hblock₂, hkept₂.obtained, List.map_cons, List.map_append, hkm]
    subst hh'
    refine ⟨cur :: used, l₁ ++ l₂, hrep₂, hkept₂.mem, ?_⟩
    rw [heq, ← hptr]
    exact .whole hfree hsmall hexact

end KmallocAux

open KmallocAux

/-- `kmallocu` allocates. -/
theorem kmallocu_heap {used free : List Nat} {size ptr : Nat} (hrep : h.Rep km used free) (hok : (h.toHeap km used free).Ok)
    (hs : 0 < size) (hm : kmallocu km h size = some (ptr, h')) :
    ∃ used' free', h'.Rep km used' free' ∧ h'.mem = h.mem ∧
      HeapAlloc (h.toHeap km used free) size ptr (h'.toHeap km used' free') := by
  have hlen := length_le_nodeRounds hrep (List.sublist_append_right used free)
  obtain ⟨l₁, l₂, rfl, hl₁, hl₂, hwalk⟩ := exists_walkTo (fun a => size ≤ (h.nodes a).size) hrep.right hlen
  have hfirst : ∀ a ∈ l₁, (h.nodes a).size < size := fun a ha => by simpa using hl₁ a ha
  rw [kmallocu, if_neg (by omega), hwalk] at hm
  cases l₂ with
  | nil =>
    rw [List.append_nil] at hrep ⊢
    exact moreMemory_heap hrep hfirst hm
  | cons cur l₂ =>
    have hmem : h.block cur ∈ (h.toHeap km used (l₁ ++ cur :: l₂)).all := by simp [Heap.all, Kheap.toHeap]
    have hsize : size ≤ (h.nodes cur).size := by simpa using hl₂ cur rfl
    exact takeNode_heap hrep (hok.inside _ hmem) (hok.ptr_pos _ hmem) hsize hfirst hm

/-- `kfree` frees, and always returns. -/
theorem kfree_heap {used free : List Nat} (ptr : Nat) (hrep : h.Rep km used free) :
    ∃ h' used' free', kfree h ptr = some h' ∧ h'.Rep km used' free' ∧ h'.mem = h.mem ∧
      HeapFree (h.toHeap km used free) ptr (h'.toHeap km used' free') := by
  have hlen := length_le_nodeRounds hrep (List.sublist_append_left used free)
  obtain ⟨l₁, l₂, rfl, hl₁, hl₂, hwalk⟩ := exists_walkTo (fun a => (h.nodes a).ptr == ptr) hrep.left hlen
  cases l₂ with
  | nil =>
    refine ⟨h, l₁, free, by rw [kfree, hwalk]; rfl, by rwa [List.append_nil] at hrep, rfl, ?_⟩
    rw [List.append_nil]
    refine .missing (List.forall_mem_map.mpr fun a ha => ?_)
    exact ne_of_beq_false (hl₁ a ha)
  | cons cur l₂ =>
    have hcur : cur ∉ l₁ ++ l₂ ++ free := by
      have hnd := hrep.nodup
      rw [List.append_assoc, List.cons_append] at hnd
      rw [List.append_assoc]
      exact (List.nodup_cons.mp (List.nodup_middle.mp hnd)).1
    obtain ⟨hrep₁, hkept₁⟩ := rep_unlink_used hrep
    have hnode := hrep.node cur (by simp)
    have hrep₂ := rep_push_free hrep₁ hcur ⟨hnode.1, hkept₁.given cur hnode.2⟩
    refine ⟨_, l₁ ++ l₂, cur :: free, by rw [kfree, hwalk]; rfl, hrep₂, hkept₁.mem, ?_⟩
    have heq : (appendNode (h.unlinkNode .used l₁.getLast? cur) .free cur).toHeap km (l₁ ++ l₂) (cur :: free) =
        { h.toHeap km (l₁ ++ cur :: l₂) free with
          used := l₁.map h.block ++ l₂.map h.block, free := h.block cur :: free.map h.block } := by
      have hkm : (appendNode (h.unlinkNode .used l₁.getLast? cur) .free cur).km = h.km := km_unlinkNode h .used _ cur
      have hobt : (appendNode (h.unlinkNode .used l₁.getLast? cur) .free cur).obtained = h.obtained := hkept₁.obtained
      simp only [Kheap.toHeap, block_appendNode, block_unlinkNode, List.map_append, List.map_cons, hkm, hobt]
    rw [heq]
    refine .found ?_ ?_
    · simp [Kheap.toHeap]
    · exact eq_of_beq (hl₂ cur rfl)

/-- `kmalloc` allocates, or returns the null pointer for no bytes. -/
theorem kmalloc_heap {used free : List Nat} {size ptr : Nat} (hrep : h.Rep km used free) (hok : (h.toHeap km used free).Ok)
    (hm : kmalloc km h size = some (ptr, h')) :
    ∃ used' free', h'.Rep km used' free' ∧ h'.mem = h.mem ∧
      HeapMalloc (h.toHeap km used free) size ptr (h'.toHeap km used' free') := by
  by_cases hs : size < 1
  · rw [kmalloc, if_pos hs] at hm
    cases hm
    exact ⟨used, free, hrep, rfl, .nothing (Nat.lt_one_iff.mp hs)⟩
  · rw [kmalloc, if_neg hs] at hm
    obtain ⟨⟨p, h₁⟩, hu, hm⟩ := Option.bind_eq_some_iff.mp hm
    have hpos : 0 < size := Nat.not_lt.mp hs
    obtain ⟨used', free', hrep', hmem, ha⟩ := kmallocu_heap hrep hok hpos hu
    simp only [Nat.ne_of_gt (ha.ptr_pos hok), if_false, Option.some.injEq, Prod.mk.injEq] at hm
    obtain ⟨rfl, rfl⟩ := hm
    exact ⟨used', free', hrep', hmem, .alloc hpos ha⟩

/-- `kcalloc` allocates the product of its arguments, as a 32-bit number. -/
theorem kcalloc_heap {used free : List Nat} {num size ptr : Nat} (hrep : h.Rep km used free) (hok : (h.toHeap km used free).Ok)
    (hm : kcalloc km h num size = some (ptr, h')) :
    ∃ used' free', h'.Rep km used' free' ∧
      HeapMalloc (h.toHeap km used free) (w32 (num * size)) ptr (h'.toHeap km used' free') := by
  obtain ⟨⟨p, h₁⟩, hmalloc, hm⟩ := Option.bind_eq_some_iff.mp hm
  obtain ⟨used', free', hrep', -, ha⟩ := kmalloc_heap hrep hok hmalloc
  cases hm
  refine ⟨used', free', ?_, ?_⟩
  · split
    · exact hrep'
    · exact rep_mem _ hrep'
  · split
    · exact ha
    · exact ha

/-- A pointer that is not that of a block in use is not reallocated, and nothing changes. -/
theorem krealloc_missing {used free : List Nat} {ptr : Nat} (hrep : h.Rep km used free) (hptr : ptr ≠ 0)
    (hused : ∀ b ∈ (h.toHeap km used free).used, b.ptr ≠ ptr) (size : Nat) : krealloc km h ptr size = some (0, h) := by
  have hlen := length_le_nodeRounds hrep (List.sublist_append_left used free)
  obtain ⟨l₁, l₂, rfl, -, hl₂, hwalk⟩ := exists_walkTo (fun a => (h.nodes a).ptr == ptr) hrep.left hlen
  cases l₂ with
  | nil =>
    rw [krealloc, if_neg (fun h₁ => hptr h₁.1), if_neg hptr]
    by_cases hs : size = 0
    · rw [if_pos hs, kfree, hwalk]
      rfl
    · rw [if_neg hs, hwalk]
      rfl
  | cons a l₂ => exact absurd (eq_of_beq (hl₂ a rfl)) (hused (h.block a) (by simp [Kheap.toHeap]))

/-- A block in use is reallocated: a block of the given size is allocated, the bytes are copied and the old block is freed. -/
theorem krealloc_live {used free : List Nat} {ptr n size : Nat} (hrep : h.Rep km used free) (hok : (h.toHeap km used free).Ok)
    (hb : ⟨ptr, n⟩ ∈ (h.toHeap km used free).used) (hs : size ≠ 0) :
    krealloc km h ptr size = (kmalloc km h size).bind fun (p, h₁) =>
      (kfree { h₁ with mem := h₁.mem.copy p ptr (if size > n then n else size) } ptr).map (p, ·) := by
  have hpos : 0 < ptr ∧ 0 < n := ⟨hok.ptr_pos _ (List.mem_append_left _ hb), hok.separate.pos _ (List.mem_append_left _ hb)⟩
  have hlen := length_le_nodeRounds hrep (List.sublist_append_left used free)
  obtain ⟨l₁, l₂, rfl, hl₁, hl₂, hwalk⟩ := exists_walkTo (fun a => (h.nodes a).ptr == ptr) hrep.left hlen
  obtain ⟨a, ha, hblock⟩ := List.mem_map.mp hb
  have hptr : (h.nodes a).ptr = ptr := congrArg Block.ptr hblock
  cases l₂ with
  | nil =>
    rw [List.append_nil] at ha
    exact absurd (beq_iff_eq.mpr hptr) (Bool.eq_false_iff.mp (hl₁ a ha))
  | cons c l₂ =>
    have hc : h.block c = ⟨ptr, n⟩ := by
      have hmem : h.block c ∈ (h.toHeap km (l₁ ++ c :: l₂) free).used := by simp [Kheap.toHeap]
      exact hok.separate.eq_of_ptr (List.mem_append_left _ hmem) (List.mem_append_left _ hb) (eq_of_beq (hl₂ c rfl))
    have hsize : (h.nodes c).size = n := congrArg Block.size hc
    have hn : ¬n = 0 := Nat.ne_of_gt hpos.2
    rw [krealloc, if_neg (fun h₁ => hs h₁.2), if_neg (Nat.ne_of_gt hpos.1), if_neg hs, hwalk]
    simp only [Option.bind_eq_bind, Option.bind_some, List.head?_cons, Option.elim_some, hsize, hn, if_false]
    cases hm : kmalloc km h size with
    | none => rfl
    | some r =>
      obtain ⟨p, h₁⟩ := r
      obtain ⟨used', free', -, -, hm'⟩ := kmalloc_heap hrep hok hm
      have hp : p ≠ 0 := Nat.ne_of_gt ((hm'.alloc_of_pos hs).ptr_pos hok)
      simp only [Option.bind_some, hp, if_false]
      rw [Option.map_eq_bind]
      rfl

/-- `krealloc` reallocates. -/
theorem krealloc_heap {used free : List Nat} {ptr size p : Nat} (hrep : h.Rep km used free) (hok : (h.toHeap km used free).Ok)
    (hm : krealloc km h ptr size = some (p, h')) :
    ∃ used' free', h'.Rep km used' free' ∧ HeapRealloc (h.toHeap km used free) ptr size p (h'.toHeap km used' free') := by
  by_cases hptr : ptr = 0
  · subst hptr
    have hused : ∀ b ∈ (h.toHeap km used free).used, b.ptr ≠ 0 := fun b hb =>
      Nat.ne_of_gt (hok.ptr_pos b (List.mem_append_left _ hb))
    by_cases hs : size = 0
    · rw [krealloc, if_pos ⟨rfl, hs⟩] at hm
      cases hm
      exact ⟨used, free, hrep, .nothing (fun _ => hs) hused⟩
    · rw [krealloc, if_neg (fun h₁ => hs h₁.2), if_pos rfl] at hm
      obtain ⟨used', free', hrep', -, ha⟩ := kmalloc_heap hrep hok hm
      exact ⟨used', free', hrep', .alloc rfl (Nat.pos_of_ne_zero hs) (ha.alloc_of_pos hs)⟩
  · by_cases hused : ∀ b ∈ (h.toHeap km used free).used, b.ptr ≠ ptr
    · rw [krealloc_missing hrep hptr hused] at hm
      cases hm
      exact ⟨used, free, hrep, .nothing (fun h₁ => absurd h₁ hptr) hused⟩
    · push Not at hused
      obtain ⟨⟨_, n⟩, hb, rfl⟩ := hused
      by_cases hs : size = 0
      · rw [krealloc, if_neg (fun h₁ => hptr h₁.1), if_neg hptr, if_pos hs] at hm
        obtain ⟨h₄, used', free', hfree, hrep', -, hf⟩ := kfree_heap _ hrep
        rw [hfree] at hm
        cases hm
        exact ⟨used', free', hrep', .free hs hf⟩
      · rw [krealloc_live hrep hok hb hs] at hm
        obtain ⟨⟨q, h₁⟩, hmalloc, hm⟩ := Option.bind_eq_some_iff.mp hm
        obtain ⟨used', free', hrep', -, hm'⟩ := kmalloc_heap hrep hok hmalloc
        obtain ⟨h₂, hfree, hm⟩ := Option.map_eq_some_iff.mp hm
        cases hm
        obtain ⟨h₃, used'', free'', hfree', hrep'', -, hf⟩ := kfree_heap _ (rep_mem _ hrep')
        obtain rfl := Option.some.inj (hfree.symm.trans hfree')
        exact ⟨used'', free'', hrep'', .move (Nat.pos_of_ne_zero hs) hb rfl (hm'.alloc_of_pos hs) hf⟩

end Kos
