import Kos.Mm.Virt
import Kos.Lib.Bytes

/-!
# Starting the page allocator

`init_mm` of `kernel/mm/mm.c`: the pages of the blocks of memory that the boot loader reports are marked as free, and then the pages
of the kernel, of the modules and of the sections of the kernel's ELF file are marked as used. What the boot loader has left is read
from the memory. The walk over the blocks and `strlen` are given a number of rounds; they are `none` when they are not over by then.
-/

namespace Kos

/-! ## What the boot loader leaves -/

/-- The 32-bit number at an address. -/
def Memory.read32 (mem : Memory) (a : Nat) : Nat := ofLe32 (mem.bytes a 4)

/-- The 64-bit number at an address. -/
def Memory.read64 (mem : Memory) (a : Nat) : Nat := mem.read32 a + 4294967296 * mem.read32 (a + 4)

/-- `elf_section_header_table_t`. -/
structure ElfSectionHeaderTable where
  num : UInt32
  size : UInt32
  addr : UInt32
  deriving DecidableEq, Repr

/-- `multiboot_info_t`. -/
structure MultibootInfo where
  flags : BitVec 32
  modsCount : UInt32
  modsAddr : UInt32
  elfSec : ElfSectionHeaderTable
  mmapLength : UInt32
  mmapAddr : UInt32
  deriving DecidableEq, Repr

def mbMmap : BitVec 32 := 0x40#32

/-- `multiboot_mmap_t`. -/
structure MultibootMmap where
  baseAddr : Nat
  length : Nat
  type : Nat
  deriving DecidableEq, Repr

/-- `sizeof(struct multiboot_mmap)`. -/
abbrev multibootMmapSize : Nat := 24

def MultibootMmap.read (mem : Memory) (a : Nat) : MultibootMmap := ⟨mem.read64 (a + 4), mem.read64 (a + 12), mem.read32 (a + 20)⟩

/-- `multiboot_mod_t`. -/
structure MultibootMod where
  modStart : Nat
  modEnd : Nat
  cmdline : Nat
  deriving DecidableEq, Repr

/-- `sizeof(multiboot_mod_t)`. -/
abbrev multibootModSize : Nat := 16

def MultibootMod.read (mem : Memory) (a : Nat) : MultibootMod := ⟨mem.read32 a, mem.read32 (a + 4), mem.read32 (a + 8)⟩

/-- `Elf32_Shdr`. -/
structure Elf32Shdr where
  addr : Nat
  size : Nat
  deriving DecidableEq, Repr

/-- `sizeof(Elf32_Shdr)`. -/
abbrev elf32ShdrSize : Nat := 40

def Elf32Shdr.read (mem : Memory) (a : Nat) : Elf32Shdr := ⟨mem.read32 (a + 12), mem.read32 (a + 20)⟩

/-- The kernel's image, between `kernel_phys_start` and `kernel_phys_end`, which the linker script aligns to pages. -/
structure KernelImage where
  physStart : Nat
  physEnd : Nat
  start_aligned : physStart % 4096 = 0
  end_aligned : physEnd % 4096 = 0
  start_le : physStart ≤ physEnd
  end_lt : physEnd < 4294967296

/-! ## The blocks of memory -/

/-- `enum block_type`, with the block. -/
inductive AvailBlock where
  | usable (start len : Nat)
  | unusable
  | endOfBlocks
  deriving DecidableEq, Repr

/-- The address of entry `i`: `mb_mmap + i`. -/
def MultibootInfo.entryAddr (info : MultibootInfo) (i : Nat) : Nat := w32 (info.mmapAddr.toNat + i * multibootMmapSize)

/-- `get_avail_block`. The length of the map in bytes is added to a pointer to its entries. -/
def getAvailBlock (info : MultibootInfo) (mem : Memory) (i : Nat) : AvailBlock :=
  let mbEnd := w32 (info.mmapAddr.toNat + info.mmapLength.toNat * multibootMmapSize)
  if info.entryAddr i > mbEnd then .endOfBlocks
  else
    let entry := MultibootMmap.read mem (info.entryAddr i)
    if entry.type ≠ 1 then .unusable else .usable (w32 entry.baseAddr) (w32 entry.length)

/-- `PAGE_ALIGN_ROUND_UP`. -/
def pageAlignRoundUp (n : Nat) : Nat := w32 (n + 4095) / pageSize * pageSize

/-- The block from the first page boundary on. -/
def alignBlock (start len : Nat) : Nat × Nat :=
  if !isPageAligned start then (pageAlignRoundUp start, sub32 len (sub32 (pageAlignRoundUp start) start)) else (start, len)

/-- The variables of `mm.c` with `total_mem`. `entries` records which entries of the map were read. -/
structure InitMm where
  mm : Mm
  totalMem : Nat
  entries : List Nat

/-- The variables before the first block: all pages are in use. -/
def InitMm.start : InitMm := ⟨⟨fun _ => 0#32, 0, .ok, Nat.two_pow_pos 32⟩, 0, []⟩

theorem memEnd_max_lt (s : Mm) (thisEnd : Nat) : (if w32 thisEnd > s.memEnd then w32 thisEnd else s.memEnd) < 4294967296 := by
  split
  · exact w32_lt _
  · exact s.memEnd_lt

/-- The part of the loop for a block that can be used. -/
def InitMm.addBlock (s : InitMm) (block : Nat × Nat) : InitMm :=
  let thisEnd := block.1 + block.2
  { s with
    totalMem := w32 (s.totalMem + block.2)
    mm := { s.mm.markRangeFree block.1 (numPages block.2) with
      memEnd := if w32 thisEnd > s.mm.memEnd then w32 thisEnd else s.mm.memEnd
      memEnd_lt := memEnd_max_lt s.mm thisEnd } }

/-- The loop of `init_mm` over the blocks. -/
def blockLoop (info : MultibootInfo) (mem : Memory) : Nat → Nat → InitMm → Option InitMm
  | 0, _, _ => none
  | rounds + 1, i, s =>
    let read := { s with entries := s.entries ++ [info.entryAddr i] }
    match getAvailBlock info mem i with
    | .endOfBlocks => some s
    | .unusable => blockLoop info mem rounds (i + 1) read
    | .usable start len => blockLoop info mem rounds (i + 1) (read.addBlock (alignBlock start len))

/-! ## What is in use -/

/-- `strlen`. -/
def strlen (mem : Memory) : Nat → Nat → Option Nat
  | 0, _ => none
  | rounds + 1, a => if mem (w32 a) = 0 then some 0 else (strlen mem rounds (a + 1)).map (· + 1)

/-- The body of the loop over the modules. -/
def markModule (mem : Memory) (rounds mod : Nat) (m : Mmap) : Option Mmap :=
  let desc := MultibootMod.read mem mod
  let m := markRangeUsed m mod (numPages multibootModSize)
  let m := markRangeUsed m desc.modStart (numPages (sub32 desc.modEnd desc.modStart))
  if desc.cmdline ≠ 0 then (strlen mem rounds desc.cmdline).map fun len => markRangeUsed m desc.cmdline (numPages len)
  else some m

/-- The body of the loop over the sections. -/
def markSection (mem : Memory) (secAddr : Nat) (m : Mmap) (i : Nat) : Mmap :=
  let shdr := Elf32Shdr.read mem (w32 (secAddr + i * elf32ShdrSize))
  markRangeUsed m shdr.addr (numPages shdr.size)

/-- `init_mm`. The loop over the modules does not go on to the next one. -/
def initMm (image : KernelImage) (info : MultibootInfo) (mem : Memory) (rounds : Nat) : Option InitMm :=
  if !bisset info.flags mbMmap then none
  else do
    let s ← blockLoop info mem rounds 0 InitMm.start
    let m := markRangeUsed s.mm.mmap image.physStart (numPages (image.physEnd - image.physStart))
    let m ← (List.range info.modsCount.toNat).foldlM (fun m _ => markModule mem rounds info.modsAddr.toNat m) m
    let m := markRangeUsed m info.elfSec.addr.toNat (numPages info.elfSec.size.toNat)
    let m := (List.range info.elfSec.num.toNat).foldl (markSection mem info.elfSec.addr.toNat) m
    some { s with mm := { s.mm with mmap := markUsed m 0 } }

end Kos
