import Kos.Lib.Bytes

/-!
# Ring buffers

`kernel/util/ringbuffer.c`. The elements of a ring buffer lie one behind the other in a block of `maxcnt * esize` bytes; the
read and the write index are byte offsets that wrap at its end.
-/

namespace Kos

/-- `struct ringbuffer`; `data` is the block of memory, by offset. -/
structure Ringbuffer where
  data : Nat → UInt8
  esize : Nat
  maxcnt : Nat
  count : Nat
  ridx : Nat
  widx : Nat
  override : Bool

/-- `rbuf_create`: the memory that `kmalloc` returns has any content. -/
def rbufCreate (data : Nat → UInt8) (esize num : Nat) (override : Bool) : Ringbuffer where
  data := data
  esize := esize
  maxcnt := num
  count := 0
  ridx := 0
  widx := 0
  override := override

def rbufEmpty (rb : Ringbuffer) : Bool := rb.count == 0

def rbufAvail (rb : Ringbuffer) : Nat := rb.count

def rbufFreesize (rb : Ringbuffer) : Nat := sub32 rb.maxcnt rb.count

/-- `idx += esize; idx %= maxcnt * esize`. -/
def Ringbuffer.advance (rb : Ringbuffer) (idx : Nat) : Nat := w32 (idx + rb.esize) % w32 (rb.maxcnt * rb.esize)

/-- The body of the loop of `rbuf_write`: one element, given by its bytes. -/
def Ringbuffer.putElem (rb : Ringbuffer) (elem : List UInt8) : Ringbuffer :=
  { rb with
    data := fun k => if rb.widx ≤ k ∧ k < rb.widx + rb.esize then elem.getD (k - rb.widx) 0 else rb.data k
    widx := rb.advance rb.widx }

/-- The bytes of the element at offset `idx`. -/
def Ringbuffer.elemAt (rb : Ringbuffer) (idx : Nat) : List UInt8 := (List.range rb.esize).map (fun b => rb.data (idx + b))

/-- `rbuf_write`: the elements are given one by one, `count` of them; the number written and the buffer afterwards. -/
def rbufWrite (rb : Ringbuffer) (src : List (List UInt8)) : Nat × Ringbuffer :=
  let count := src.length
  let num := if count > rbufFreesize rb ∧ !rb.override then rbufFreesize rb else count
  let rb' := (src.take num).foldl Ringbuffer.putElem rb
  (num, { rb' with count := w32 (rb.count + num) })

/-- The loop of `rbuf_read`: the elements read, in order, and the buffer. -/
def Ringbuffer.getElems : Nat → Ringbuffer → List (List UInt8) × Ringbuffer
  | 0, rb => ([], rb)
  | n + 1, rb =>
    let elem := rb.elemAt rb.ridx
    let (elems, rb') := Ringbuffer.getElems n { rb with ridx := rb.advance rb.ridx }
    (elem :: elems, rb')

/-- `rbuf_read`: the elements read, and the buffer afterwards. -/
def rbufRead (rb : Ringbuffer) (count : Nat) : List (List UInt8) × Ringbuffer :=
  let num := if count > rbufAvail rb then rbufAvail rb else count
  let (elems, rb') := Ringbuffer.getElems num rb
  (elems, { rb' with count := sub32 rb.count num })

end Kos
