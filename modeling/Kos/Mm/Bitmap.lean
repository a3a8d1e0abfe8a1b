import Mathlib.Logic.Function.Basic
import Kos.Lib.Scan
import Kos.Lib.Word

/-!
# The physical page allocator

`kernel/mm/mm.c`. One bit per page of the 4 GB physical address space, set when the page is free, in 32-bit words. `find` looks
for `num` consecutive free pages between two addresses in three passes: the rest of the first word, the whole words (a word
without a free page is skipped), and the beginning of the last word. The allocator works above the DMA area (`dmaEnd`).
-/

namespace Kos

/-- `PAGE_SIZE`. -/
abbrev pageSize : Nat := 4096

/-- `NO_PAGE`: no page starts at address 1, a page is aligned to `PAGE_SIZE`. -/
abbrev noPage : Nat := 1

/-- `DMA_RANGE_LENGTH`, in bytes. -/
abbrev dmaRangeLength : Nat := 65536

/-- `dma_end`: the end of the eight DMA areas, which begin at `DMA_BEGIN`. -/
abbrev dmaEnd : Nat := 65536 + 8 * dmaRangeLength

/-- `enum error_code`. -/
inductive ErrorCode where
  | ok | align | noMem | invalid | unknown
  deriving DecidableEq, Repr

/-- `static MMAP_TYPE mmap[MMAP_SIZE]`: a page is free when its bit is set. -/
abbrev Mmap := Nat → BitVec 32

/-! ## Bits -/

def bsetn (map : BitVec 32) (n : Nat) : BitVec 32 := map ||| (1#32 <<< n)

def bclrn (map : BitVec 32) (n : Nat) : BitVec 32 := map &&& ~~~(1#32 <<< n)

def bissetn (map : BitVec 32) (n : Nat) : Bool := (map &&& (1#32 <<< n)) != 0#32

/-! ## Pages of the map -/

def addrToIdx (a : Nat) : Nat := a / pageSize / 32

def idxToAddr (i : Nat) : Nat := w32 (i * pageSize * 32)

def pageToPos (p : Nat) : Nat := (p / pageSize) &&& 31

def posToOffs (p : Nat) : Nat := w32 (p * pageSize)

def isPageAligned (addr : Nat) : Bool := (addr &&& 0xFFF) == 0

def markFree (m : Mmap) (page : Nat) : Mmap :=
  Function.update m (addrToIdx page) (bsetn (m (addrToIdx page)) (pageToPos page))

def markUsed (m : Mmap) (page : Nat) : Mmap :=
  Function.update m (addrToIdx page) (bclrn (m (addrToIdx page)) (pageToPos page))

def isFree (m : Mmap) (page : Nat) : Bool := bissetn (m (addrToIdx page)) (pageToPos page)

/-- The address of page `i` of a range: `start + i * PAGE_SIZE`, which wraps at the end of the address space. -/
def pageOf (start i : Nat) : Nat := w32 (start + i * pageSize)

def markRangeFree (m : Mmap) (start num : Nat) : Mmap :=
  (List.range num).foldl (fun m i => markFree m (pageOf start i)) m

def markRangeUsed (m : Mmap) (start num : Nat) : Mmap :=
  (List.range num).foldl (fun m i => markUsed m (pageOf start i)) m

def isRangeFree (m : Mmap) (start num : Nat) : Bool :=
  (List.range num).all (fun i => isFree m (pageOf start i))

/-! ## Searching a range -/

/-- `test`: the variables `count` and `result` of `find` are the scan's; an `error` is the early return of `find` with
`result`. -/
def test (m : Mmap) (num idx pos : Nat) (sc : Scan) : Except Nat Scan :=
  if bissetn (m idx) pos then
    let result := if sc.count = 0 then w32 (idxToAddr idx + posToOffs pos) else sc.result
    let count := sc.count + 1
    if count ≥ num then .error result else .ok ⟨count, result⟩
  else
    .ok ⟨0, sc.result⟩

/-- `for (i = lo; i < hi; ++i) if (test(idx, i, num, &count, &result)) return result;` -/
def testBits (m : Mmap) (num idx lo hi : Nat) (sc : Scan) : Except Nat Scan :=
  (List.range' lo (hi - lo)).foldlM (fun sc i => test m num idx i sc) sc

/-- The body of the middle loop of `find`: a whole word, skipped when it has no free page. -/
def testWord (m : Mmap) (num : Nat) (sc : Scan) (i : Nat) : Except Nat Scan :=
  if m i == 0#32 then .ok ⟨0, sc.result⟩ else testBits m num i 0 32 sc

/-- `for (i = lo; i < hi; ++i)` over whole words. -/
def testWords (m : Mmap) (num lo hi : Nat) (sc : Scan) : Except Nat Scan :=
  (List.range' lo (hi - lo)).foldlM (testWord m num) sc

/-- The three passes of `find`. The first decrement of `end_index` is undone before the last pass, so the middle pass stops one
word early when the end is not on a word boundary. -/
def findPasses (m : Mmap) (num start finish : Nat) : Except Nat Scan := do
  let startIndex := addrToIdx start
  let endIndex := addrToIdx finish
  let startPos := pageToPos start
  let endPos := pageToPos finish
  let endWord := if endPos ≠ 0 then endIndex - 1 else endIndex
  let sc ← (if startPos ≠ 0 then testBits m num startIndex startPos 32 ⟨0, noPage⟩ else pure ⟨0, noPage⟩)
  let startWord := if startPos ≠ 0 then startIndex + 1 else startIndex
  let sc ← testWords m num startWord endWord sc
  (if endPos ≠ 0 then testBits m num endIndex 0 endPos sc else pure sc)

def find (m : Mmap) (num start finish : Nat) : Nat :=
  match findPasses m num start finish with
  | .error result => result
  | .ok _ => noPage

/-! ## The allocator -/

/-- The variables of `mm.c`, with `last_error` of `error.c`. -/
structure Mm where
  mmap : Mmap
  memEnd : Nat
  lastError : ErrorCode
  memEnd_lt : memEnd < 4294967296

def Mm.seterr (s : Mm) (e : ErrorCode) : Mm := { s with lastError := e }

def Mm.markUsed (s : Mm) (page : Nat) : Mm := { s with mmap := Kos.markUsed s.mmap page }

def Mm.markFree (s : Mm) (page : Nat) : Mm := { s with mmap := Kos.markFree s.mmap page }

def Mm.markRangeUsed (s : Mm) (start num : Nat) : Mm := { s with mmap := Kos.markRangeUsed s.mmap start num }

def Mm.markRangeFree (s : Mm) (start num : Nat) : Mm := { s with mmap := Kos.markRangeFree s.mmap start num }

def mmAllocPage (s : Mm) : Nat × Mm :=
  let page := find s.mmap 1 dmaEnd s.memEnd
  if page = noPage then (noPage, s.seterr .noMem) else (page, s.markUsed page)

def mmFreePage (s : Mm) (page : Nat) : Mm :=
  if page = noPage then s
  else if !isPageAligned page then s.seterr .align
  else s.markFree page

def mmAllocRange (s : Mm) (num : Nat) : Nat × Mm :=
  if num = 0 then (noPage, s.seterr .invalid)
  else
    let start := find s.mmap num dmaEnd s.memEnd
    if start = noPage then (noPage, s.seterr .noMem) else (start, s.markRangeUsed start num)

def mmFreeRange (s : Mm) (start num : Nat) : Mm :=
  if start = noPage then s
  else if !isPageAligned start then s.seterr .align
  else if num = 0 then s.seterr .invalid
  else s.markRangeFree start num

def mmAllocPhysRange (s : Mm) (start num : Nat) : Bool × Mm :=
  if !isPageAligned start then (false, s.seterr .align)
  else if num = 0 then (false, s.seterr .invalid)
  else if isRangeFree s.mmap start num then (true, s.markRangeUsed start num)
  else (false, s.seterr .noMem)

def mmFreePhysRange (s : Mm) (start num : Nat) : Mm :=
  if !isPageAligned start then s.seterr .align
  else if num = 0 then s.seterr .invalid
  else s.markRangeFree start num

/-- `dma_addrs`: the eight DMA areas. -/
def dmaAddrs : List Nat := [0x10000, 0x20000, 0x30000, 0x40000, 0x50000, 0x60000, 0x70000, 0x80000]

/-- `mm_alloc_dma`. The length in bytes is given to `is_range_free` and to `mark_range_used`, which count pages. -/
def mmAllocDma (s : Mm) : Nat × Mm :=
  match dmaAddrs.find? (isRangeFree s.mmap · dmaRangeLength) with
  | some start => (start, s.markRangeUsed start dmaRangeLength)
  | none => (noPage, s.seterr .noMem)

def mmFreeDma (s : Mm) (start : Nat) : Mm :=
  if start = noPage then s else s.markRangeFree start dmaRangeLength

end Kos
