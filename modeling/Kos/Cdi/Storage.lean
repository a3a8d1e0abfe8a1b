import Kos.Lib.Bytes

/-!
# Storage devices

`dev_read` and `dev_write` of `kernel/cdi/storage.c`, for a device of the right type. A driver reads and writes whole blocks only. For a
request that does not begin and end at a block, `dev_read` reads the blocks around it into a buffer that lives in a static variable, and
`dev_write` has such a buffer for a single block. What `kmalloc` returns for a new buffer is an argument, and the calls of `kmalloc` and
`kfree` are recorded. An access behind the end of a buffer, a failed assertion and a division by zero are `none`.
-/

namespace Kos

/-- `struct cdi_storage_device`, with the operations of its driver. They get the contents of the device, the first block and the number of
blocks, and fail (with -1) if they are `none`; then `read_blocks` leaves the buffer as it is. -/
structure StorageDevice where
  blockSize : Nat
  blockCount : Nat
  readBlocks : Memory → Nat → Nat → Option (Nat → UInt8)
  writeBlocks : Memory → Nat → Nat → (Nat → UInt8) → Option Memory

/-- A call that goes to the heap. -/
inductive BufferCall where
  | kmalloc (size : Nat)
  | kfree (ptr : Nat)
  deriving DecidableEq, Repr

/-- The static variables for a buffer: `tmpbuffer` and `bufsize`, or `blockbuffer` and `bbufsize`. -/
structure StaticBuffer where
  ptr : Nat
  size : Nat
  deriving DecidableEq, Repr

/-- `if (needed > bufsize) { kfree(tmpbuffer); tmpbuffer = kmalloc(needed); bufsize = needed; }` -/
def StaticBuffer.ensure (buf : StaticBuffer) (needed newbuf : Nat) : StaticBuffer × List BufferCall :=
  if needed > buf.size then (⟨newbuf, needed⟩, [.kfree buf.ptr, .kmalloc needed]) else (buf, [])

/-- `n` bytes are written to a buffer of `room` bytes. -/
def Memory.fill (mem : Memory) (dst room n : Nat) (src : Nat → UInt8) : Option Memory :=
  if n ≤ room then some (mem.put dst n src) else none

/-- The bytes from an address on. -/
def Memory.from (mem : Memory) (a : Nat) : Nat → UInt8 := fun j => mem (a + j)

/-- A `dword` that is returned as an `int`. -/
def asInt (n : Nat) : Int := (n : Int).bmod 4294967296

/-! ## Reading -/

/-- `MAX_ALIVE` -/
def maxAlive : Nat := 0x4000

namespace StorageDevice

structure ReadResult where
  status : Int
  mem : Memory
  tmp : StaticBuffer
  calls : List BufferCall

variable (dev : StorageDevice)

/-- `numblocks` of `dev_read`; `offset + size` is 32 bits wide. -/
def numblocks (size offset : Nat) : Nat :=
  w64 (w32 (offset + size) / dev.blockSize + (18446744073709551616 - offset / dev.blockSize))

/-- The request fits directly to blocks. -/
def aligned (size offset : Nat) : Bool := offset % dev.blockSize = 0 && w32 (offset + size) % dev.blockSize = 0

/-- The size of the buffer that `dev_read` needs for a request which is not aligned. -/
def needed (size offset : Nat) : Nat := w32 (w64 (dev.numblocks size offset + 1) * dev.blockSize)

/-- What `dev_read` does when the blocks are in the temporary buffer. -/
def copyOut (mem : Memory) (tmp : StaticBuffer) (calls : List BufferCall) (buffer size offset : Nat) : Option ReadResult :=
  let offs := offset % dev.blockSize
  if offs + size ≤ tmp.size then
    let mem := mem.copy buffer (tmp.ptr + offs) size
    if tmp.size > maxAlive then some ⟨asInt size, mem, { tmp with size := 0 }, calls ++ [.kfree tmp.ptr]⟩
    else some ⟨asInt size, mem, tmp, calls⟩
  else none

def devRead (disk mem : Memory) (tmp : StaticBuffer) (newbuf buffer size offset : Nat) : Option ReadResult :=
  if dev.blockSize = 0 then none
  else
    let startblock := offset / dev.blockSize
    let numblocks := dev.numblocks size offset
    if dev.aligned size offset then
      match dev.readBlocks disk startblock numblocks with
      | none => some ⟨-1, mem, tmp, []⟩
      | some data => (mem.fill buffer size (numblocks * dev.blockSize) data).map fun mem => ⟨asInt size, mem, tmp, []⟩
    else
      let (tmp, calls) := tmp.ensure (dev.needed size offset) newbuf
      match dev.readBlocks disk startblock (w64 (numblocks + 1)) with
      | none => some ⟨-1, mem, tmp, calls⟩
      | some data =>
        (mem.fill tmp.ptr tmp.size (w64 (numblocks + 1) * dev.blockSize) data).bind fun mem =>
          dev.copyOut mem tmp calls buffer size offset

/-! ## Writing -/

/-- The variables of `dev_write`, with the contents of the device and the memory. -/
structure Writer where
  disk : Memory
  mem : Memory
  size : Nat
  src : Nat
  startblock : Nat

/-- The block at `startblock` is read, `n` bytes of it from `off` on are replaced by those at `src`, and it is written back; and the
status. -/
def modifyBlock (buf : StaticBuffer) (off n : Nat) (w : Writer) : Option (Int × Writer) :=
  match dev.readBlocks w.disk w.startblock 1 with
  | none => some (-1, w)
  | some data =>
    (w.mem.fill buf.ptr buf.size dev.blockSize data).bind fun mem =>
      if off + n ≤ buf.size then
        let mem := mem.copy (buf.ptr + off) w.src n
        match dev.writeBlocks w.disk w.startblock 1 (mem.from buf.ptr) with
        | none => some (-1, { w with mem := mem })
        | some disk => some (0, { w with disk := disk, mem := mem })
      else none

/-- The first block, if the start position is not aligned. -/
def writeHead (buf : StaticBuffer) (offset : Nat) (w : Writer) : Option (Int × Writer) :=
  let unaligned := offset % dev.blockSize
  if unaligned ≠ 0 then
    let tmpsize := dev.blockSize - unaligned
    let tmpsize := if tmpsize > w.size then w.size else tmpsize
    (dev.modifyBlock buf unaligned tmpsize w).map fun (err, w) =>
      (err, if err ≠ 0 then w
        else { w with size := w.size - tmpsize, src := w.src + tmpsize, startblock := w64 (w.startblock + 1) })
  else some (0, w)

/-- The whole blocks. -/
def writeWhole (w : Writer) : Int × Writer :=
  let numblocks := w.size / dev.blockSize
  if numblocks ≠ 0 then
    match dev.writeBlocks w.disk w.startblock numblocks (w.mem.from w.src) with
    | none => (-1, w)
    | some disk =>
      (0, { w with
        disk := disk
        size := w.size - numblocks * dev.blockSize
        src := w.src + numblocks * dev.blockSize
        startblock := w64 (w.startblock + numblocks) })
  else (0, w)

/-- What is left in the last block. -/
def writeTail (buf : StaticBuffer) (w : Writer) : Option (Int × Writer) :=
  if w.size ≠ 0 then
    if w.size < dev.blockSize then dev.modifyBlock buf 0 w.size w else none
  else some (0, w)

structure WriteResult where
  status : Int
  disk : Memory
  mem : Memory
  buf : StaticBuffer
  calls : List BufferCall

def devWrite (disk mem : Memory) (buf : StaticBuffer) (newbuf buffer size offset : Nat) : Option WriteResult :=
  if dev.blockSize = 0 then none
  else
    let (buf, calls) := buf.ensure dev.blockSize newbuf
    let result (status : Int) (w : Writer) : WriteResult := ⟨status, w.disk, w.mem, buf, calls⟩
    (dev.writeHead buf offset ⟨disk, mem, size, buffer, offset / dev.blockSize⟩).bind fun (err, w) =>
      if err ≠ 0 then some (result err w)
      else
        let (err, w) := dev.writeWhole w
        if err ≠ 0 then some (result err w)
        else
          (dev.writeTail buf w).map fun (err, w) => if err ≠ 0 then result err w else result (asInt size) w

end StorageDevice

end Kos
