import Kos.Lib.Bytes
import Kos.Pm.Space

/-!
# The bytes of a segment

What `elf32_map_segment` of `kernel/loader.c` does once the pages of a segment are mapped: it copies the bytes of the image and clears
the rest. `vm_cpy_pv` and `vm_set_p` of `kernel/mm/util.c` write to a physical address through a window that the kernel maps for itself,
so they are part of the kernel's own work. The image is the bytes from `mem` on; it goes on behind the end of the file.
-/

namespace Kos

/-- The fields of `Elf32_Phdr` that say where a segment lies in memory and in the file. -/
structure LoadPhdr extends Phdr where
  offset : Nat
  filesz : Nat
  offset_lt : offset < 4294967296
  filesz_lt : filesz < 4294967296

/-- The machine, its physical memory, and for each write so far the address in the process's address space that it was meant for, and
the number of bytes. -/
structure Loader where
  m : Machine
  memory : Memory
  written : List (Nat × Nat)

/-- Writes `n` bytes to the physical address of `vaddr`. -/
def Loader.write (s : Loader) (pdir vaddr n : Nat) (src : Nat → UInt8) : Option Loader :=
  let pdst := vmResolveVirt s.m.vm pdir vaddr
  s.m.kernelWork.map fun m => ⟨m, s.memory.put pdst n src, (vaddr, n) :: s.written⟩

/-- `vm_cpy_pv` from the image. -/
def Loader.cpyPv (s : Loader) (pdir vaddr : Nat) (image : Nat → UInt8) (src n : Nat) : Option Loader :=
  s.write pdir vaddr n fun j => image (src + j)

/-- `vm_set_p`. -/
def Loader.setP (s : Loader) (pdir vaddr : Nat) (val : UInt8) (n : Nat) : Option Loader := s.write pdir vaddr n fun _ => val

def elf32FirstPageBytes (phdr : LoadPhdr) : Nat :=
  if phdr.filesz > pageSize - phdr.vaddr % pageSize then pageSize - phdr.vaddr % pageSize else phdr.filesz

/-- The loop that copies the other pages. -/
def copyPages (pdir base : Nat) (image : Nat → UInt8) : List Nat → Nat → Loader → Option Loader
  | [], _, s => some s
  | i :: rest, src, s =>
    (s.cpyPv pdir (pageOf base i) image src pageSize).bind (copyPages pdir base image rest (src + pageSize))

/-- The loop that clears the pages behind the bytes of the file. -/
def clearPages (pdir base : Nat) : List Nat → Loader → Option Loader
  | [], s => some s
  | i :: rest, s => (s.setP pdir (pageOf base i) 0 pageSize).bind (clearPages pdir base rest)

/-- What `elf32_map_segment` does with the pages that it has mapped. -/
def copySegment (pdir : Nat) (phdr : LoadPhdr) (image : Nat → UInt8) (s : Loader) : Option Loader :=
  let base := alignAddr phdr.vaddr
  let memszPages := numPages phdr.memsz
  let firstPageBytes := elf32FirstPageBytes phdr
  let fileszPages := numPages phdr.filesz
  let lastPagePadding := pageSize - w32 (phdr.offset + phdr.filesz) % pageSize
  let dataEnd := w32 (base + sub32 (fileszPages * pageSize) pageSize + (pageSize - lastPagePadding))
  (s.cpyPv pdir phdr.vaddr image phdr.offset firstPageBytes).bind fun s =>
    (copyPages pdir base image (List.range' 1 (fileszPages - 1)) (phdr.offset + firstPageBytes) s).bind fun s =>
      ((if lastPagePadding ≠ 0 then s.setP pdir dataEnd 0 lastPagePadding else some s).bind
        (clearPages pdir base (List.range' fileszPages (memszPages - fileszPages))))

/-- `elf32_map_segment` for the process `p`, with the bytes. -/
def elf32LoadSegment (m : Machine) (memory : Memory) (p : Nat) (phdr : LoadPhdr) (image : Nat → UInt8) : Option (Bool × Loader) :=
  (elf32MapSegment m p phdr.toPhdr).bind fun (ok, m') =>
    if ok ∧ phdr.memsz ≠ 0 then (copySegment (m.procs p).pdir phdr image ⟨m', memory, []⟩).map (true, ·)
    else some (ok, ⟨m', memory, []⟩)

end Kos
