import Kos.Mm.Bitmap

/-!
# Page directories and page tables

`kernel/mm/virt.c` and the helpers of `kernel/mm/intern.h`. A page directory and a page table are both a frame of 1024 entries, so
the tables of all address spaces are one map from frames to entries. `map_working_table` makes the table in a given frame
accessible through a window at a fixed address; here the frame itself is accessed, and the entry of the window is not modelled
(`Kos.Mm.Window` has it). A panic is `none`.
-/

namespace Kos

/-- `pany_entry_t`: an entry of a page directory or of a page table. -/
abbrev Entry := BitVec 32

/-! ## Entries and addresses -/

def pePresent : Entry := 0x1#32

def peReadWrite : Entry := 0x2#32

def peUserMode : Entry := 0x4#32

def peAccessed : Entry := 0x20#32

def ptDirty : Entry := 0x40#32

def vmCommonFlags : Entry := pePresent ||| peReadWrite

def vmUserFlags : Entry := vmCommonFlags ||| peUserMode

/-- `USER_SPACE_START`. -/
abbrev userSpaceStart : Nat := 0x40000000

def bisset (map bit : Entry) : Bool := (map &&& bit) != 0#32

def bnotset (map bit : Entry) : Bool := (map &&& bit) == 0#32

def getaddr (entry : Entry) : Nat := (entry &&& 0xFFFFF000#32).toNat

def getflags (entry : Entry) : Entry := entry &&& 0xFFF#32

/-- `(dword)paddr | flags`. -/
def mkEntry (paddr : Nat) (flags : Entry) : Entry := BitVec.ofNat 32 paddr ||| flags

def pageOffset (addr : Nat) : Nat := addr % pageSize

/-- `NUM_PAGES`, of an unsigned number of bytes. -/
def numPages (n : Nat) : Nat := w32 (n + 4095) / pageSize

def alignAddr (addr : Nat) : Nat := addr - pageOffset addr

def alignSize (addr size : Nat) : Nat := w32 (size + pageOffset addr)

def pdirIndex (addr : Nat) : Nat := addr / pageSize / 1024

def ptabIndex (addr : Nat) : Nat := addr / pageSize % 1024

def createAddr (pdi pti off : Nat) : Nat := w32 (pdi * 4194304 + pti * pageSize + off)

/-- `safe_pti`: the first index in a page table that does not give the address 0. -/
def safePti (pdi : Nat) : Nat := if pdi = 0 then 1 else 0

/-! ## The state -/

/-- The page tables of all address spaces, by their frame, and the variables of `virt.c`. -/
structure Vm where
  mm : Mm
  tabs : Nat → Nat → Entry
  kernelPdir : Nat
  kpdirRev : Nat

def Vm.setEntry (s : Vm) (frame idx : Nat) (e : Entry) : Vm :=
  { s with tabs := Function.update s.tabs frame (Function.update (s.tabs frame) idx e) }

/-- `memset(frame, 0, PAGE_SIZE)` of a page table. -/
def Vm.clearTab (s : Vm) (frame : Nat) : Vm :=
  { s with tabs := Function.update s.tabs frame (fun _ => 0#32) }

/-! ## Mapping -/

def getPtabEntry (s : Vm) (pdir vaddr : Nat) : Entry :=
  let pde := s.tabs pdir (pdirIndex vaddr)
  if bnotset pde pePresent then 0#32
  else
    let pte := s.tabs (getaddr pde) (ptabIndex vaddr)
    if bisset pte pePresent then pte else 0#32

/-- The first part of `do_map`: the page table for an address, which is created when there is none. -/
def tableFor (s : Vm) (pdir vaddr : Nat) (flags : Entry) : Option (Nat × Vm) :=
  let pde := s.tabs pdir (pdirIndex vaddr)
  if bnotset pde pePresent then
    let (ptab, mm) := mmAllocPage s.mm
    if ptab = noPage then none
    else some (ptab, ({ s with mm := mm }.setEntry pdir (pdirIndex vaddr) (mkEntry ptab flags)).clearTab ptab)
  else some (getaddr pde, s)

/-- `++kpdir_rev`, with the check for an overflow. -/
def Vm.countRev (s : Vm) (pdir : Nat) : Option Vm :=
  if pdir = s.kernelPdir then
    if w32 (s.kpdirRev + 1) < s.kpdirRev then none else some { s with kpdirRev := w32 (s.kpdirRev + 1) }
  else some s

def doMap (s : Vm) (pdir paddr vaddr : Nat) (flags : Entry) (force : Bool) : Option Vm :=
  if !isPageAligned vaddr then none
  else if !isPageAligned paddr then none
  else do
    let (ptab, s) ← tableFor s pdir vaddr flags
    let pte := s.tabs ptab (ptabIndex vaddr)
    if !force && bisset pte pePresent && bisset flags pePresent then
      -- an existing mapping may only be repeated; the processor's own flags are ignored
      if pte &&& ~~~(peAccessed ||| ptDirty) ≠ mkEntry paddr flags then none else some s
    else
      (s.setEntry ptab (ptabIndex vaddr) (mkEntry paddr flags)).countRev pdir

def vmMapPage (s : Vm) (pdir paddr vaddr : Nat) (flags : Entry) : Option Vm := doMap s pdir paddr vaddr flags false

def vmForceMap (s : Vm) (pdir paddr vaddr : Nat) (flags : Entry) : Option Vm := doMap s pdir paddr vaddr flags true

def vmUnmapPage (s : Vm) (pdir vaddr : Nat) : Option Vm :=
  if !isPageAligned vaddr then none else vmMapPage s pdir 0 vaddr 0#32

/-- The loop of `vm_map_range`. -/
def mapPages (s : Vm) (pdir pstart vstart : Nat) (flags : Entry) (num : Nat) : Option Vm :=
  (List.range num).foldlM (fun s i => vmMapPage s pdir (pageOf pstart i) (pageOf vstart i) flags) s

def vmMapRange (s : Vm) (pdir pstart vstart : Nat) (flags : Entry) (num : Nat) : Option Vm :=
  if !isPageAligned pstart then none
  else if !isPageAligned vstart then none
  else mapPages s pdir pstart vstart flags num

def vmUnmapRange (s : Vm) (pdir vstart num : Nat) : Option Vm :=
  if !isPageAligned vstart then none else vmMapRange s pdir 0 vstart 0#32 num

/-! ## Searching for free addresses -/

/-- The loop of `vm_find_addr` over the page directory. -/
def findAddrFrom (s : Vm) (pdir : Nat) : List Nat → Nat
  | [] => 0
  | pdi :: rest =>
    let pde := s.tabs pdir pdi
    if bnotset pde pePresent then createAddr pdi (safePti pdi) 0
    else
      let tab := s.tabs (getaddr pde)
      match (List.range' (safePti pdi) (1024 - safePti pdi)).find? (fun pti => bnotset (tab pti) pePresent) with
      | some pti => createAddr pdi pti 0
      | none => findAddrFrom s pdir rest

def vmFindAddr (s : Vm) (pdir : Nat) : Nat := findAddrFrom s pdir (List.range 1024)

/-- The variables `count`, `pdstart` and `ptstart` of `vm_find_range`. -/
structure RangeScan where
  count : Nat
  pdstart : Nat
  ptstart : Nat
  deriving DecidableEq, Repr

/-- The loop of `vm_find_range` over a page table. -/
def scanTable (tab : Nat → Entry) (num : Nat) : List Nat → RangeScan → RangeScan
  | [], r => r
  | pti :: rest, r =>
    if bnotset (tab pti) pePresent then
      let r := { r with ptstart := if r.count = 0 then pti else r.ptstart, count := r.count + 1 }
      if r.count ≥ num then r else scanTable tab num rest r
    else scanTable tab num rest { r with count := 0 }

/-- The loop of `vm_find_range` over the page directory. `pdstart` is set only when a directory entry is entered with a count of
zero, also when the count starts again inside its table. -/
def findRangeFrom (s : Vm) (pdir num : Nat) : List Nat → RangeScan → Nat
  | [], _ => 0
  | pdi :: rest, r =>
    let r := { r with pdstart := if r.count = 0 then pdi else r.pdstart }
    let pde := s.tabs pdir pdi
    let r :=
      if bisset pde pePresent then
        scanTable (s.tabs (getaddr pde)) num (List.range' (safePti pdi) (1024 - safePti pdi)) r
      else
        { r with ptstart := if r.count = 0 then safePti pdi else r.ptstart, count := r.count + (1024 - safePti pdi) }
    if r.count ≥ num then createAddr r.pdstart r.ptstart 0 else findRangeFrom s pdir num rest r

def vmFindRange (s : Vm) (pdir num : Nat) : Nat := findRangeFrom s pdir num (List.range 1024) ⟨0, 0, 0⟩

/-! ## Ranges of bytes -/

def vmAllocAddr (s : Vm) (pdir pstart : Nat) (flags : Entry) (size : Nat) : Option (Nat × Vm) := do
  let alignedSize := alignSize pstart size
  let vstart := vmFindRange s pdir (numPages alignedSize)
  if vstart = 0 then none
  let s ← vmMapRange s pdir (alignAddr pstart) vstart flags (numPages alignedSize)
  some (w32 (vstart + pageOffset pstart), s)

def vmFreeAddr (s : Vm) (pdir vstart size : Nat) : Option Vm :=
  vmUnmapRange s pdir (alignAddr vstart) (numPages (alignSize vstart size))

def vmResolveVirt (s : Vm) (pdir vaddr : Nat) : Nat :=
  let pte := getPtabEntry s pdir vaddr
  if bnotset pte pePresent then 0 else w32 (getaddr pte + pageOffset vaddr)

/-- The loop of `vm_is_mapped`, for this number of rounds; `none` when it is not over by then. -/
def isMappedFrom (s : Vm) (pdir stop : Nat) (flags : Entry) : Nat → Nat → Option Bool
  | 0, _ => none
  | rounds + 1, cur =>
    if cur < stop then
      let pte := getPtabEntry s pdir cur
      if pte == 0#32 || bnotset pte flags then some false
      else isMappedFrom s pdir stop flags rounds (w32 (cur + pageSize))
    else some true

def vmIsMapped (s : Vm) (pdir vaddr size : Nat) (flags : Entry) (rounds : Nat) : Option Bool :=
  if w32 (vaddr + size) < vaddr then some false
  else isMappedFrom s pdir (w32 (vaddr + size)) flags rounds vaddr

end Kos
