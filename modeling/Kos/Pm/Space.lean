import Kos.Mm.Virt
import Kos.Pm.Proc

/-!
# The memory of the processes

What creates, grows, copies and gives back the address spaces of processes: the loader (`kernel/loader.c`), `kernel/pm.c`, and the
parts of `kernel/mm/util.c` and `kernel/mm/virt.c` that they call. A page directory is named by its frame, and of a process only
the fields are kept that say what memory it has. The bytes that are copied into pages are left out.

Everywhere in these functions the kernel also works for itself: `kmalloc`, kernel stacks, windows to other frames. What this does to
the page map and to the kernel's tables is a list of `KernelAction`s that is made up for each run (`Machine.work`). A panic, and a
null pointer that is followed, are `none`.
-/

namespace Kos

/-! ## The state -/

/-- `struct elf32_ldata`. -/
structure ElfLdata where
  base : Nat
  pages : Nat
  deriving DecidableEq, Repr

/-- The fields of `struct proc` for its memory. `pdir` is the frame of the page directory, `cleanup` says that `elf32_cleanup` is
set, and `ldata` is `none` for a null pointer. -/
structure ProcSpace where
  live : Bool
  pdir : Nat
  ustackAddr : Nat
  memBrk : Nat
  brkPage : Nat
  cleanup : Bool
  ldata : Option (List ElfLdata)
  deriving DecidableEq, Repr

/-- What the kernel does for itself: it takes a page, gives a page back, or changes a mapping in its own page directory. -/
inductive KernelAction where
  | use (page : Nat)
  | release (page : Nat)
  | map (paddr vaddr : Nat) (flags : Entry) (force : Bool)
  deriving DecidableEq, Repr

/-- The processes' memory. `kernelPages` are the pages that the kernel has taken for itself and may give back; `work` is what it will
do for itself, one list for each time it does. -/
structure Machine where
  vm : Vm
  procs : Nat → ProcSpace
  kernelPages : List Nat
  work : List (List KernelAction)

def Machine.setProc (m : Machine) (p : Nat) (f : ProcSpace → ProcSpace) : Machine :=
  { m with procs := Function.update m.procs p (f (m.procs p)) }

/-! ## The kernel's own part -/

/-- The kernel does not take page 0, gives back only pages that it has taken, and maps nothing in user space. Page 0, which
`init_paging` maps for the BIOS data area, is never mapped again: `vm_find_range` does not find it. -/
def KernelAction.exec (m : Machine) : KernelAction → Option Machine
  | .use page =>
    if isPageAligned page ∧ 0 < page then
      some { m with
        vm := { m.vm with mm := m.vm.mm.markUsed page }
        kernelPages := if isFree m.vm.mm.mmap page then page :: m.kernelPages else m.kernelPages }
    else none
  | .release page =>
    if page ∈ m.kernelPages then
      some { m with vm := { m.vm with mm := mmFreePage m.vm.mm page }, kernelPages := m.kernelPages.filter (· ≠ page) }
    else none
  | .map paddr vaddr flags force =>
    if paddr < 4294967296 ∧ pageSize ≤ vaddr ∧ vaddr < userSpaceStart ∧ flags.toNat < pageSize then
      (doMap m.vm m.vm.kernelPdir paddr vaddr flags force).map ({ m with vm := · })
    else none

/-- The kernel works for itself. -/
def Machine.kernelWork (m : Machine) : Option Machine :=
  match m.work with
  | [] => some m
  | actions :: work => actions.foldlM KernelAction.exec { m with work := work }

/-! ## Pages of a process -/

/-- `USER_STACK_ADDR - PAGE_SIZE`: the page of the user stack. -/
abbrev userStackPage : Nat := 0xFFFF0000 - pageSize

/-- `mm_alloc_page` and the mapping of the page, as it is done in several places: the page, or `none` if there is none. -/
def newPage (m : Machine) (pdir vaddr : Nat) (flags : Entry) (force : Bool) : Option (Option Nat × Machine) :=
  let (page, mm) := mmAllocPage m.vm.mm
  if page = noPage then some (none, { m with vm := { m.vm with mm := mm } })
  else
    (doMap { m.vm with mm := mm } pdir page vaddr flags force).bind fun vm =>
      ({ m with vm := vm }.kernelWork).map (some page, ·)

/-- `km_alloc_page`: a page for the kernel, named by its frame. It panics if there is none. -/
def kmAllocPage (m : Machine) : Option (Nat × Machine) :=
  let (page, mm) := mmAllocPage m.vm.mm
  if page = noPage then none
  else ({ m with vm := { m.vm with mm := mm } }.kernelWork).map (page, ·)

/-- `mm_free_page`. -/
def Machine.freePage (m : Machine) (page : Nat) : Machine := { m with vm := { m.vm with mm := mmFreePage m.vm.mm page } }

/-- `vm_create_addrspace`: a copy of the kernel's page directory. -/
def vmCreateAddrspace (m : Machine) : Option (Nat × Machine) :=
  m.kernelWork.bind fun m =>
    let (phys, mm) := mmAllocPage m.vm.mm
    if phys = noPage then none
    else
      ({ m with vm := { m.vm with mm := mm } }.kernelWork).map fun (m : Machine) =>
        (phys, { m with vm := { m.vm with tabs := Function.update m.vm.tabs phys (m.vm.tabs m.vm.kernelPdir) } })

def cloneEntry (m : Machine) (newpd vaddr : Nat) (pte : Entry) : Option (Option Nat × Machine) :=
  newPage m newpd vaddr (getflags pte) true

/-- The loop of `vm_clone_addrspace`; `false` when there is no page left. -/
def cloneEntries (pdir newpd : Nat) : List Nat → Machine → Option (Bool × Machine)
  | [], m => some (true, m)
  | addr :: rest, m =>
    if getPtabEntry m.vm pdir addr = 0#32 then cloneEntries pdir newpd rest m
    else
      (cloneEntry m newpd addr (getPtabEntry m.vm pdir addr)).bind fun (page, m) =>
        if page.isSome then cloneEntries pdir newpd rest m else some (false, m)

/-- `KERN_SPACE_END`. -/
abbrev kernSpaceEnd : Nat := 0x2FFFFFFF

/-- The pages that `vm_clone_addrspace` looks at, from the end of the kernel space to `brk_page`. -/
def clonedPages (brkPage : Nat) : List Nat :=
  (List.range ((brkPage - (kernSpaceEnd + 1) + 4095) / pageSize)).map fun k => kernSpaceEnd + 1 + k * pageSize

/-- `vm_clone_addrspace`. It does not look at the result for the user stack. -/
def vmCloneAddrspace (m : Machine) (brkPage pdir : Nat) : Option (Nat × Machine) :=
  (vmCreateAddrspace m).bind fun (newpd, m) =>
    (cloneEntries pdir newpd (clonedPages brkPage) m).bind fun (ok, m) =>
      if !ok then none
      else if getPtabEntry m.vm pdir userStackPage = 0#32 then some (newpd, m)
      else (cloneEntry m newpd userStackPage (getPtabEntry m.vm pdir userStackPage)).map fun (_, m) => (newpd, m)

/-! ## Creating a process -/

def getEmptyProc (m : Machine) : Option Nat := (List.range maxProcs).find? fun i => !(m.procs i).live

def initProc (m : Machine) (p : Nat) : Option Machine :=
  m.kernelWork.bind fun m =>
    (vmCreateAddrspace m).bind fun (pdir, m) =>
      (newPage m pdir userStackPage vmUserFlags false).bind fun (ustackp, m) =>
        ustackp.map fun page => m.setProc p fun _ =>
          { live := true, pdir := pdir, ustackAddr := page, memBrk := 0, brkPage := 0, cleanup := false, ldata := none }

def pmCreate (m : Machine) : Option (Nat × Machine) := (getEmptyProc m).bind fun p => (initProc m p).map (p, ·)

/-- `pm_fork`: the child, or `none` if there is no free slot. -/
def pmFork (m : Machine) (parent : Nat) : Option (Option Nat × Machine) :=
  match getEmptyProc m with
  | none => some (none, m)
  | some child =>
    m.kernelWork.bind fun m =>
      (vmCloneAddrspace m (m.procs parent).brkPage (m.procs parent).pdir).bind fun (pdir, m) =>
        let m := m.setProc child fun _ =>
          { live := true, pdir := pdir, ustackAddr := vmResolveVirt m.vm pdir userStackPage,
            memBrk := (m.procs parent).memBrk, brkPage := (m.procs parent).brkPage, cleanup := false, ldata := none }
        m.kernelWork.map (some child, ·)

/-! ## Ending a process -/

def elf32FreeMem (m : Machine) (pdir base pages : Nat) : Machine :=
  (List.range pages).foldl (fun m i => m.freePage (vmResolveVirt m.vm pdir (pageOf base i))) m

def elf32Cleanup (m : Machine) (proc : ProcSpace) : Machine :=
  match proc.ldata with
  | none => m
  | some ldata => ldata.foldl (fun m d => elf32FreeMem m proc.pdir d.base d.pages) m

/-- `vm_destroy_addrspace`. -/
def vmDestroyAddrspace (m : Machine) (pdir : Nat) : Option Machine :=
  m.kernelWork.bind fun m => (m.freePage pdir).kernelWork

/-- `pm_destroy`; the ready queue and the processes that wait are in `Pm/Proc.lean`. -/
def Machine.pmDestroy (m : Machine) (p : Nat) : Option Machine :=
  let proc := m.procs p
  let m := m.setProc p ({ · with live := false })
  let m := if proc.cleanup then elf32Cleanup m proc else m
  m.kernelWork.bind fun m => vmDestroyAddrspace (m.freePage proc.ustackAddr) proc.pdir

/-! ## Loading a program -/

/-- `PT_LOAD`. -/
abbrev ptLoad : Nat := 1

/-- `CONF_PROG_BASE_MIN`. -/
abbrev confProgBaseMin : Nat := 0x40000000

/-- The fields of `Elf32_Phdr` that say where a segment lies in memory. -/
structure Phdr where
  type : Nat
  vaddr : Nat
  memsz : Nat
  vaddr_lt : vaddr < 4294967296
  memsz_lt : memsz < 4294967296

/-- `elf32_alloc_mem`, for these pages. -/
def elf32AllocMem (pdir base : Nat) : List Nat → Machine → Option (Bool × Machine)
  | [], m => some (true, m)
  | i :: rest, m =>
    (newPage m pdir (pageOf base i) vmUserFlags false).bind fun (page, m) =>
      if page.isSome then elf32AllocMem pdir base rest m else some (false, m)

/-- `elf32_map_segment`, for the process `p`. -/
def elf32MapSegment (m : Machine) (p : Nat) (phdr : Phdr) : Option (Bool × Machine) :=
  let base := alignAddr phdr.vaddr
  let memszPages := numPages phdr.memsz
  if phdr.memsz = 0 then some (true, m)
  else if base < confProgBaseMin then some (false, m)
  else
    (elf32AllocMem (m.procs p).pdir base (List.range memszPages) m).bind fun (ok, m) =>
      if ok then
        ((m.setProc p fun proc => { proc with ldata := proc.ldata.map (⟨base, memszPages⟩ :: ·) }).kernelWork).map (true, ·)
      else some (false, m)

/-- `elf32_getbrk`. -/
def elf32Getbrk (phdr : Phdr) (proc : ProcSpace) : ProcSpace :=
  { proc with
    memBrk := w32 (phdr.vaddr + phdr.memsz)
    brkPage := w32 (alignAddr phdr.vaddr + numPages phdr.memsz * pageSize) }

/-- The loop of `elf32_exec`. -/
def loadSegments (p : Nat) : List Phdr → Machine → Option (Bool × Machine)
  | [], m => some (true, m)
  | phdr :: rest, m =>
    if phdr.type = ptLoad then
      (elf32MapSegment m p phdr).bind fun (ok, m) =>
        if ok then loadSegments p rest (m.setProc p (elf32Getbrk phdr)) else some (false, m)
    else loadSegments p rest m

/-- `elf32_exec`: the new process, or `none` if its program could not be loaded. -/
def elf32Exec (m : Machine) (phdrs : List Phdr) : Option (Option Nat × Machine) :=
  (pmCreate m).bind fun (p, m) =>
    ((m.setProc p ({ · with cleanup := true, ldata := some [] })).kernelWork).bind fun m =>
      (loadSegments p phdrs m).bind fun (ok, m) =>
        if ok then m.kernelWork.map (some p, ·) else (m.pmDestroy p).map (none, ·)

/-! ## The heap -/

/-- `NUM_PAGES`, of a signed number of bytes. -/
def numPagesInt (n : Int) : Int := (n + 4095).bmod 4294967296 / 4096

/-- The loop of `increase_heap`. -/
def growHeap (p : Nat) : Nat → Machine → Option (Bool × Machine)
  | 0, m => some (true, m)
  | pages + 1, m =>
    (newPage m (m.procs p).pdir (m.procs p).brkPage vmUserFlags false).bind fun (page, m) =>
      if page.isSome then growHeap p pages (m.setProc p fun proc => { proc with brkPage := w32 (proc.brkPage + pageSize) })
      else some (false, m)

def increaseHeap (m : Machine) (p : Nat) (pages : Int) : Option (Bool × Machine) :=
  if isPageAligned (m.procs p).brkPage then growHeap p pages.toNat m else none

/-- `mem_brk += incr`. -/
def Machine.moveBrk (m : Machine) (p : Nat) (incr : Int) : Machine :=
  m.setProc p fun proc => { proc with memBrk := w32 (proc.memBrk + incr.toNat) }

/-- `sys_sbrk` of the process `p`, with its result. -/
def sysSbrk (m : Machine) (p : Nat) (incr : Int) : Option (Nat × Machine) :=
  let oldBrk := (m.procs p).memBrk
  let rest := sub32 (m.procs p).brkPage oldBrk
  if incr ≤ 0 then some (oldBrk, m)
  else if rest < incr then
    (increaseHeap m p (numPagesInt incr)).map fun (ok, m) =>
      if ok then (oldBrk, m.moveBrk p incr) else (4294967295, m)
  else some (oldBrk, m.moveBrk p incr)

/-! ## Runs -/

/-- What changes the memory of processes. The calls of a process are made by one that lives. -/
inductive SpaceCall where
  | create
  | exec (phdrs : List Phdr)
  | fork (p : Nat)
  | sbrk (p : Nat) (incr : Int)
  | exit (p : Nat)
  | exception (p : Nat)
  | kernel

/-- A call, with what the kernel does for itself meanwhile. -/
def SpaceCall.perform (m : Machine) (call : SpaceCall × List (List KernelAction)) : Option Machine :=
  let m := { m with work := call.2 }
  match call.1 with
  | .create => (pmCreate m).map (·.2)
  | .exec phdrs => (elf32Exec m phdrs).map (·.2)
  | .fork p => if (m.procs p).live then (pmFork m p).map (·.2) else none
  | .sbrk p incr => if (m.procs p).live then (sysSbrk m p incr).map (·.2) else none
  | .exit p => if (m.procs p).live then m.pmDestroy p else none
  | .exception p => if (m.procs p).live then m.pmDestroy p else none
  | .kernel => m.kernelWork

end Kos
