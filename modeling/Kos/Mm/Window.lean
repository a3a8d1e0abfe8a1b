import Kos.Mm.Virt

/-!
# Page tables through the working window

When paging is enabled, `kernel/mm/virt.c` reaches a page table only through a page of the address space: `map_working_table` writes
the frame of the table into the last entry of `working_table_map`, and the table is accessed at `MAP_TABLE_VADDR`, which the processor
translates with the page directory that is loaded. These are the functions of `Kos.Mm.Virt` with this detour. The entry is followed by
`invlpg` whenever it is written, so there are no old translations. A page directory and `working_table_map` are still named by their
frames. A panic and a page fault are `none`.
-/

namespace Kos

/-- `MAP_TABLE_VADDR`. -/
abbrev mapTableVaddr : Nat := 0x3FFFF000

def peCachedisable : Entry := 0x10#32

/-- The variables that the access to a page table depends on, and the page directory that is loaded. -/
structure Window where
  workingTableMap : Nat
  pagingEnabled : Bool
  cr3 : Nat
  deriving DecidableEq, Repr

namespace Window

variable (w : Window)

/-- `map_working_table`: the address at which the table is accessed. -/
def mapWorkingTable (s : Vm) (tab : Nat) : Nat × Vm :=
  if w.pagingEnabled then
    (mapTableVaddr,
      s.setEntry w.workingTableMap (ptabIndex mapTableVaddr) (mkEntry tab (pePresent ||| peReadWrite ||| peCachedisable)))
  else (tab, s)

/-- The frame at an address, as the processor finds it. -/
def frameAt (s : Vm) (addr : Nat) : Option Nat :=
  if w.pagingEnabled then
    let pte := Kos.getPtabEntry s w.cr3 addr
    if bisset pte pePresent then some (getaddr pte) else none
  else some addr

/-- `ptab[idx]`. -/
def load (s : Vm) (ptab idx : Nat) : Option Entry := (w.frameAt s ptab).map fun frame => s.tabs frame idx

/-- `ptab[idx] = e`. -/
def store (s : Vm) (ptab idx : Nat) (e : Entry) : Option Vm := (w.frameAt s ptab).map fun frame => s.setEntry frame idx e

/-- `memset(ptab, 0, PAGE_SIZE)`. -/
def clear (s : Vm) (ptab : Nat) : Option Vm := (w.frameAt s ptab).map s.clearTab

def getPtabEntry (s : Vm) (pdir vaddr : Nat) : Option (Entry × Vm) :=
  let pde := s.tabs pdir (pdirIndex vaddr)
  if bnotset pde pePresent then some (0#32, s)
  else
    let (tab, s) := w.mapWorkingTable s (getaddr pde)
    (w.load s tab (ptabIndex vaddr)).map fun pte => (if bisset pte pePresent then pte else 0#32, s)

/-- The first part of `do_map`: the address of the page table, which is created when there is none. -/
def tableFor (s : Vm) (pdir vaddr : Nat) (flags : Entry) : Option (Nat × Vm) :=
  let pde := s.tabs pdir (pdirIndex vaddr)
  if bnotset pde pePresent then
    let (frame, mm) := mmAllocPage s.mm
    if frame = noPage then none
    else
      let s := { s with mm := mm }.setEntry pdir (pdirIndex vaddr) (mkEntry frame flags)
      let (ptab, s) := w.mapWorkingTable s frame
      (w.clear s ptab).map fun s => (ptab, s)
  else some (w.mapWorkingTable s (getaddr pde))

def doMap (s : Vm) (pdir paddr vaddr : Nat) (flags : Entry) (force : Bool) : Option Vm :=
  if !isPageAligned vaddr then none
  else if !isPageAligned paddr then none
  else
    (w.tableFor s pdir vaddr flags).bind fun (ptab, s) =>
    (w.load s ptab (ptabIndex vaddr)).bind fun pte =>
    if !force && bisset pte pePresent && bisset flags pePresent then
      if pte &&& ~~~(peAccessed ||| ptDirty) ≠ mkEntry paddr flags then none else some s
    else
      (w.store s ptab (ptabIndex vaddr) (mkEntry paddr flags)).bind fun s => s.countRev pdir

def vmMapPage (s : Vm) (pdir paddr vaddr : Nat) (flags : Entry) : Option Vm := w.doMap s pdir paddr vaddr flags false

def vmForceMap (s : Vm) (pdir paddr vaddr : Nat) (flags : Entry) : Option Vm := w.doMap s pdir paddr vaddr flags true

def vmUnmapPage (s : Vm) (pdir vaddr : Nat) : Option Vm :=
  if !isPageAligned vaddr then none else w.vmMapPage s pdir 0 vaddr 0#32

def vmMapRange (s : Vm) (pdir pstart vstart : Nat) (flags : Entry) (num : Nat) : Option Vm :=
  if !isPageAligned pstart then none
  else if !isPageAligned vstart then none
  else (List.range num).foldlM (fun s i => w.vmMapPage s pdir (pageOf pstart i) (pageOf vstart i) flags) s

def vmUnmapRange (s : Vm) (pdir vstart num : Nat) : Option Vm :=
  if !isPageAligned vstart then none else w.vmMapRange s pdir 0 vstart 0#32 num

def vmResolveVirt (s : Vm) (pdir vaddr : Nat) : Option (Nat × Vm) :=
  (w.getPtabEntry s pdir vaddr).map fun (pte, s) =>
    (if bnotset pte pePresent then 0 else w32 (getaddr pte + pageOffset vaddr), s)

/-- The loop of `vm_find_range` over a page table. -/
def scanTable (s : Vm) (tab num : Nat) : List Nat → RangeScan → Option RangeScan
  | [], r => some r
  | pti :: rest, r =>
    (w.load s tab pti).bind fun pte =>
      if bnotset pte pePresent then
        let r := { r with ptstart := if r.count = 0 then pti else r.ptstart, count := r.count + 1 }
        if r.count ≥ num then some r else scanTable s tab num rest r
      else scanTable s tab num rest { r with count := 0 }

/-- The loop of `vm_find_range` over the page directory. -/
def findRangeFrom (pdir num : Nat) : List Nat → RangeScan → Vm → Option (Nat × Vm)
  | [], _, s => some (0, s)
  | pdi :: rest, r, s =>
    let r := { r with pdstart := if r.count = 0 then pdi else r.pdstart }
    let pde := s.tabs pdir pdi
    let found : Option (RangeScan × Vm) :=
      if bisset pde pePresent then
        let (tab, s) := w.mapWorkingTable s (getaddr pde)
        (w.scanTable s tab num (List.range' (safePti pdi) (1024 - safePti pdi)) r).map (·, s)
      else
        some ({ r with ptstart := if r.count = 0 then safePti pdi else r.ptstart, count := r.count + (1024 - safePti pdi) }, s)
    found.bind fun (r, s) =>
      if r.count ≥ num then some (createAddr r.pdstart r.ptstart 0, s) else findRangeFrom pdir num rest r s

def vmFindRange (s : Vm) (pdir num : Nat) : Option (Nat × Vm) := w.findRangeFrom pdir num (List.range 1024) ⟨0, 0, 0⟩ s

def vmAllocAddr (s : Vm) (pdir pstart : Nat) (flags : Entry) (size : Nat) : Option (Nat × Vm) :=
  let alignedSize := alignSize pstart size
  (w.vmFindRange s pdir (numPages alignedSize)).bind fun (vstart, s) =>
    if vstart = 0 then none
    else
      (w.vmMapRange s pdir (alignAddr pstart) vstart flags (numPages alignedSize)).map fun s =>
        (w32 (vstart + pageOffset pstart), s)

def vmFreeAddr (s : Vm) (pdir vstart size : Nat) : Option Vm :=
  w.vmUnmapRange s pdir (alignAddr vstart) (numPages (alignSize vstart size))

end Window

/-- A call of `virt.c` that concerns one page directory. -/
inductive VmCall where
  | mapPage (paddr vaddr : Nat) (flags : Entry)
  | forceMap (paddr vaddr : Nat) (flags : Entry)
  | unmapPage (vaddr : Nat)
  | mapRange (pstart vstart : Nat) (flags : Entry) (num : Nat)
  | unmapRange (vstart num : Nat)
  | resolveVirt (vaddr : Nat)

def VmCall.exec (w : Window) (pdir : Nat) (s : Vm) : VmCall → Option Vm
  | mapPage paddr vaddr flags => w.vmMapPage s pdir paddr vaddr flags
  | forceMap paddr vaddr flags => w.vmForceMap s pdir paddr vaddr flags
  | unmapPage vaddr => w.vmUnmapPage s pdir vaddr
  | mapRange pstart vstart flags num => w.vmMapRange s pdir pstart vstart flags num
  | unmapRange vstart num => w.vmUnmapRange s pdir vstart num
  | resolveVirt vaddr => (w.vmResolveVirt s pdir vaddr).map Prod.snd

end Kos
