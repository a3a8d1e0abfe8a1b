import Mathlib.Logic.Function.Basic

/-!
# Linked lists

`kernel/util/list.c`. An entry of a list is named by its address, and `none` is the null pointer. The address of a new entry is the
one that `kmalloc` returns. A deleted entry is given to `kfree`; what is stored there afterwards is no longer the list's. Following a
null pointer is `none`.
-/

namespace Kos

/-- `list_entry_t`. -/
structure ListEntry where
  data : Nat
  next : Option Nat
  prev : Option Nat
  deriving DecidableEq, Repr

/-- `list_t`, with the memory of the entries. -/
structure KernelList where
  entries : Nat → ListEntry
  front : Option Nat
  back : Option Nat
  size : Int

namespace KernelList

def next (list : KernelList) (e : Nat) : Option Nat := (list.entries e).next

def prev (list : KernelList) (e : Nat) : Option Nat := (list.entries e).prev

def data (list : KernelList) (e : Nat) : Nat := (list.entries e).data

def setNext (list : KernelList) (e : Nat) (p : Option Nat) : KernelList :=
  { list with entries := Function.update list.entries e { list.entries e with next := p } }

def setPrev (list : KernelList) (e : Nat) (p : Option Nat) : KernelList :=
  { list with entries := Function.update list.entries e { list.entries e with prev := p } }

end KernelList

/-- `list_create`, in memory of any content. -/
def listCreate (entries : Nat → ListEntry) : KernelList where
  entries := entries
  front := none
  back := none
  size := 0

def listEmpty (list : KernelList) : Bool := list.front.isNone

def listSize (list : KernelList) : Int := if listEmpty list then 0 else list.size

/-- `_list_create_entry`, at the address `e`. -/
def listCreateEntry (list : KernelList) (e data : Nat) : KernelList :=
  { list with entries := Function.update list.entries e ⟨data, none, none⟩ }

def listAddFront (list : KernelList) (e data : Nat) : KernelList :=
  let list := (listCreateEntry list e data).setNext e list.front
  let list :=
    match list.front with
    | some front => list.setPrev front (some e)
    | none => if list.back.isNone then { list with back := some e } else list
  { list with front := some e, size := list.size + 1 }

def listAddBack (list : KernelList) (e data : Nat) : KernelList :=
  let list := (listCreateEntry list e data).setPrev e list.back
  let list :=
    match list.back with
    | some back => list.setNext back (some e)
    | none => if list.front.isNone then { list with front := some e } else list
  { list with back := some e, size := list.size + 1 }

def listAddAfter (list : KernelList) (entry e data : Nat) : KernelList :=
  let list := listCreateEntry list e data
  let list :=
    match list.next entry with
    | some next => (list.setNext e (some next)).setPrev next (some e)
    | none => list
  let list := (list.setNext entry (some e)).setPrev e (some entry)
  { list with back := if list.back = some entry then some e else list.back, size := list.size + 1 }

/-- `list_del_front`: the data of the entry, 0 for a null pointer. -/
def listDelFront (list : KernelList) : Nat × KernelList :=
  match list.front with
  | none => (0, list)
  | some e =>
    (list.data e,
      { list with front := list.next e, back := if list.back = some e then none else list.back, size := list.size - 1 })

def listDelBack (list : KernelList) : Option (Nat × KernelList) :=
  if listEmpty list then some (0, list)
  else
    list.back.map fun e =>
      (list.data e,
        { list with back := list.prev e, front := if list.front = some e then none else list.front, size := list.size - 1 })

/-- `list_del_entry`: `size` stays as it is. -/
def listDelEntry (list : KernelList) (entry : Nat) : Nat × KernelList :=
  let list :=
    match list.next entry with
    | some next => list.setPrev next (list.prev entry)
    | none => list
  let list :=
    match list.prev entry with
    | some prev => list.setNext prev (list.next entry)
    | none => list
  (list.data entry,
    { list with
      front := if list.front = some entry then list.next entry else list.front
      back := if list.back = some entry then list.prev entry else list.back })

end Kos
