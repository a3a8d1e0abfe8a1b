import Kos.Lib.Bytes
import Kos.Lib.Links
import Kos.Lib.Blocks

/-!
# The kernel's heap

`kernel/mm/kmalloc.c`. The blocks of the heap are described by nodes, which lie in pages of their own; the nodes of the blocks in use
and of the free ones are linked into two lists, and a third one holds the nodes of new pages. The memory itself comes from
`km_alloc_range` and `km_alloc_page`, which are given by `KernelMemory`.
-/

namespace Kos

/-- What the heap needs of the kernel's memory: its state, how a range of pages and a page are allocated (`none` when this panics),
and which bytes have been handed out. What is allocated is not the null pointer, fits into the address space and was not handed out
before. -/
structure KernelMemory (κ : Type) where
  allocRange : κ → Nat → Option (Nat × κ)
  allocPage : κ → Option (Nat × κ)
  Given : κ → Nat → Prop
  range_pos : ∀ {k n p k'}, allocRange k n = some (p, k') → 0 < p ∧ p + n * 4096 ≤ 4294967296
  range_new : ∀ {k n p k'}, allocRange k n = some (p, k') → ∀ a, p ≤ a → a < p + n * 4096 → ¬Given k a ∧ Given k' a
  range_keeps : ∀ {k n p k'}, allocRange k n = some (p, k') → ∀ a, Given k a → Given k' a
  page_pos : ∀ {k p k'}, allocPage k = some (p, k') → 0 < p ∧ p + 4096 ≤ 4294967296
  page_new : ∀ {k p k'}, allocPage k = some (p, k') → ∀ a, p ≤ a → a < p + 4096 → ¬Given k a ∧ Given k' a
  page_keeps : ∀ {k p k'}, allocPage k = some (p, k') → ∀ a, Given k a → Given k' a

/-- `struct mem_node`. -/
structure MemNode where
  size : Nat
  ptr : Nat
  next : Option Nat
  deriving DecidableEq, Repr

/-- `sizeof(mem_node_t)`. -/
abbrev memNodeSize : Nat := 12

/-- The three lists of nodes. -/
inductive NodeList where
  | used
  | free
  | unused
  deriving DecidableEq, Repr

/-- The state of the heap: the heads of the lists, the nodes by their addresses, the bytes of the blocks, and the kernel's memory.
`obtained` records the ranges that came from `km_alloc_range`. -/
structure Kheap (κ : Type) where
  heads : NodeList → Option Nat
  nodes : Nat → MemNode
  mem : Memory
  km : κ
  obtained : List Block

namespace Kheap

variable {κ : Type}

def setNode (h : Kheap κ) (a : Nat) (f : MemNode → MemNode) : Kheap κ :=
  { h with nodes := Function.update h.nodes a (f (h.nodes a)) }

/-- The pointers of the lists. -/
def next (h : Kheap κ) (a : Nat) : Option Nat := (h.nodes a).next

def setNext (h : Kheap κ) (a : Nat) (q : Option Nat) : Kheap κ := h.setNode a fun node => { node with next := q }

def setHead (h : Kheap κ) (list : NodeList) (q : Option Nat) : Kheap κ := { h with heads := Function.update h.heads list q }

end Kheap

section

variable {κ : Type} (km : KernelMemory κ)

def appendNode (h : Kheap κ) (list : NodeList) (node : Nat) : Kheap κ := (h.setNext node (h.heads list)).setHead list (some node)

/-- `memset(nodes, 0, PAGE_SIZE)`, for the nodes of a page. -/
def Kheap.clearNodes (h : Kheap κ) (nodes : Nat) : Kheap κ :=
  { h with nodes := fun a => if nodes ≤ a ∧ a < nodes + 4096 then ⟨0, 0, none⟩ else h.nodes a }

def createUnusedNodes (h : Kheap κ) : Option (Nat × Kheap κ) := do
  let (nodes, k) ← km.allocPage h.km
  let h := { h with km := k }.clearNodes nodes
  some (nodes, (List.range (4096 / memNodeSize)).foldl (fun h i => appendNode h .unused (nodes + i * memNodeSize)) h)

/-- The first part of `create_node`: the node that will describe the block is the first free one, or that of a new page. -/
def Kheap.takeDescriptor (h : Kheap κ) : Option (Nat × Kheap κ) :=
  match h.heads .free with
  | none => createUnusedNodes km h
  | some node => some (node, h.setHead .free (h.next node))

def createNode (h : Kheap κ) (size ptr : Nat) (isFree : Bool) : Option (Nat × Kheap κ) := do
  let (node, h) ← h.takeDescriptor km
  let h := h.setNode node fun n => { n with size := size, ptr := ptr }
  some (node, appendNode h (if isFree then .free else .used) node)

/-- The walks over the lists end within this number of rounds: there are no more addresses that a node could have. -/
abbrev nodeRounds : Nat := 4294967296

/-- Takes a node that a walk has found out of its list. -/
def Kheap.unlinkNode (h : Kheap κ) (list : NodeList) (prev : Option Nat) (cur : Nat) : Kheap κ :=
  match prev with
  | none => h.setHead list (h.next cur)
  | some prev => h.setNext prev (h.next cur)

/-- The part of `kmallocu` for a size that no free node has. -/
def Kheap.moreMemory (h : Kheap κ) (size : Nat) : Option (Nat × Kheap κ) := do
  let numPages := size / 4096 + if size % 4096 ≠ 0 then 1 else 0
  let (ptr, k) ← km.allocRange h.km numPages
  let h := { h with km := k, obtained := ⟨ptr, numPages * 4096⟩ :: h.obtained }
  let (cur, h) ← createNode km h size ptr false
  if w32 (numPages * 4096) > size then do
    let (_, h) ← createNode km h (sub32 (numPages * 4096) size) (w32 (ptr + size)) true
    some ((h.nodes cur).ptr, h)
  else some ((h.nodes cur).ptr, h)

/-- The part of `kmallocu` for a free node that is large enough. -/
def Kheap.takeNode (h : Kheap κ) (prev : Option Nat) (cur size : Nat) : Option (Nat × Kheap κ) := do
  let h := appendNode (h.unlinkNode .free prev cur) .used cur
  if (h.nodes cur).size > size then do
    let (_, h) ← createNode km h (sub32 (h.nodes cur).size size) (w32 ((h.nodes cur).ptr + size)) true
    let h := h.setNode cur fun node => { node with size := size }
    some ((h.nodes cur).ptr, h)
  else some ((h.nodes cur).ptr, h)

def kmallocu (h : Kheap κ) (size : Nat) : Option (Nat × Kheap κ) :=
  if size < 1 then some (0, h)
  else do
    match ← walkTo h.next (fun a => size ≤ (h.nodes a).size) nodeRounds none (h.heads .free) with
    | (_, none) => h.moreMemory km size
    | (prev, some cur) => h.takeNode km prev cur size

/-- `kmalloc`, which panics when it gets no memory. -/
def kmalloc (h : Kheap κ) (size : Nat) : Option (Nat × Kheap κ) :=
  if size < 1 then some (0, h)
  else do
    let (ptr, h) ← kmallocu km h size
    if ptr = 0 then none else some (ptr, h)

def kfree (h : Kheap κ) (ptr : Nat) : Option (Kheap κ) := do
  match ← walkTo h.next (fun a => (h.nodes a).ptr == ptr) nodeRounds none (h.heads .used) with
  | (_, none) => some h
  | (prev, some cur) => some (appendNode (h.unlinkNode .used prev cur) .free cur)

def kcalloc (h : Kheap κ) (num size : Nat) : Option (Nat × Kheap κ) := do
  let blockSize := w32 (num * size)
  let (ptr, h) ← kmalloc km h blockSize
  some (ptr, if ptr = 0 then h else { h with mem := h.mem.set ptr 0 blockSize })

def krealloc (h : Kheap κ) (ptr size : Nat) : Option (Nat × Kheap κ) :=
  if ptr = 0 ∧ size = 0 then some (0, h)
  else if ptr = 0 then kmalloc km h size
  else if size = 0 then (kfree h ptr).map (0, ·)
  else do
    let (_, cur) ← walkTo h.next (fun a => (h.nodes a).ptr == ptr) nodeRounds none (h.heads .used)
    let origs := cur.elim 0 fun a => (h.nodes a).size
    if origs = 0 then some (0, h)
    else do
      let (newPtr, h) ← kmalloc km h size
      if newPtr = 0 then some (0, h)
      else do
        let h ← kfree { h with mem := h.mem.copy newPtr ptr (if size > origs then origs else size) } ptr
        some (newPtr, h)

end

end Kos
