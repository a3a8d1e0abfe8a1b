import Kos.Lib.Bytes

/-!
# Arrays

`kernel/util/array.c`, with `ARRAY_INIT_WITH_ZERO` as `array.h` defines it. An array is a block of memory with room for `maxcnt` elements,
`count` of which can be read. A function is `none` if it reads or writes outside of the block. `kmalloc`, `kcalloc` and `krealloc`
succeed.
-/

namespace Kos

/-- `struct array`; `data` is the block of memory, by offset, and `size` the number of its bytes (0 for the null pointer). -/
structure KArray where
  data : Memory
  size : Nat
  esize : Nat
  maxcnt : Nat
  count : Nat

/-- `array_create`. -/
def arrayCreate (esize : Nat) : KArray where
  data := fun _ => 0
  size := w32 (10 * esize)
  esize := esize
  maxcnt := 10
  count := 0

/-- `array_get`: the offset of the element, or `none` for the null pointer. -/
def arrayGet (ar : KArray) (index : Nat) : Option Nat :=
  if index ≥ ar.count then none else some (w32 (index * ar.esize))

/-- The bytes of the element at an offset. -/
def KArray.elemAt (ar : KArray) (off : Nat) : List UInt8 := (List.range ar.esize).map fun b => ar.data (off + b)

/-- `krealloc` of the block: the first bytes are kept, the others are those that `fresh` memory had before. -/
def KArray.krealloc (ar : KArray) (fresh : Memory) (size : Nat) : KArray :=
  { ar with data := fun k => if k < ar.size ∧ k < size then ar.data k else fresh k, size := size }

/-- `resize`. -/
def KArray.resize (ar : KArray) (fresh : Memory) (num : Nat) : Option KArray :=
  let oldMax := ar.maxcnt
  let ar := ar.krealloc fresh (w32 (num * ar.esize))
  let ar := { ar with maxcnt := num, count := if ar.count > num then num else ar.count }
  if oldMax < num then
    let start := w32 (oldMax * ar.esize)
    let len := w32 ((num - oldMax) * ar.esize)
    if start + len ≤ ar.size then some { ar with data := ar.data.set start 0 len } else none
  else some ar

/-- The part of `array_set` behind the resizing: `elem` are the bytes that `ptr` points to. -/
def KArray.store (ar : KArray) (index : Nat) (elem : List UInt8) : Option KArray :=
  let off := w32 (index * ar.esize)
  if off + ar.esize ≤ ar.size then
    some { ar with
      data := ar.data.put off ar.esize (elem.getD · 0)
      count := if ar.count > w32 (index + 1) then ar.count else w32 (index + 1) }
  else none

/-- `array_set`. -/
def arraySet (ar : KArray) (fresh : Memory) (index : Nat) (elem : List UInt8) : Option KArray :=
  if index ≥ ar.maxcnt then
    (ar.resize fresh (if w32 (ar.maxcnt * 2) > index then w32 (ar.maxcnt * 2) else index)).bind (·.store index elem)
  else ar.store index elem

/-- `array_push_back`: the index, and the array afterwards. -/
def arrayPushBack (ar : KArray) (fresh : Memory) (elem : List UInt8) : Option (Nat × KArray) :=
  (arraySet ar fresh ar.count elem).map fun ar' => (ar.count, ar')

/-- `array_pop_back`: the bytes copied to `dst`, if any, and the array afterwards; `dst` is false for the null pointer. -/
def arrayPopBack (ar : KArray) (dst : Bool) : Option (Option (List UInt8) × KArray) :=
  if ar.count = 0 ∨ ¬ dst then some (none, ar)
  else
    (arrayGet ar (ar.count - 1)).bind fun off =>
      if off + ar.esize ≤ ar.size then some (some (ar.elemAt off), { ar with count := ar.count - 1 }) else none

/-- `array_resize`. -/
def arrayResize (ar : KArray) (fresh : Memory) (num : Nat) : Option KArray :=
  (ar.resize fresh num).map fun ar => { ar with count := num }

/-- `array_reserve`. -/
def arrayReserve (ar : KArray) (fresh : Memory) (num : Nat) : Option KArray := ar.resize fresh (w32 (ar.count + num))

/-- `array_shrink`. -/
def arrayShrink (ar : KArray) (fresh : Memory) : Option KArray := ar.resize fresh ar.count

end Kos
