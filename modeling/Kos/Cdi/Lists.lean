import Kos.Util.List

/-!
# The lists of the driver interface

`kernel/cdi/lists.c`: the functions that drivers written for the CDI interface use, on top of `list_t`. Values are pointers, 0 is the
null pointer. The checks that the interface is initialised and that the list is not null panic; they are left out here.
-/

namespace Kos

/-- The entry that the loops of `cdi_list_get`, `cdi_list_insert` and `cdi_list_remove` stop at: the one with the given index, counted
from `e`. -/
def entryAt (list : KernelList) : Option Nat → Nat → Option Nat
  | none, _ => none
  | some e, 0 => some e
  | some e, i + 1 => entryAt list (list.next e) i

def cdiListCreate (entries : Nat → ListEntry) : KernelList := listCreate entries

def cdiListPush (list : KernelList) (e value : Nat) : KernelList := listAddFront list e value

def cdiListPop (list : KernelList) : Nat × KernelList := listDelFront list

def cdiListEmpty (list : KernelList) : Bool := listEmpty list

def cdiListGet (list : KernelList) (index : Nat) : Nat :=
  match entryAt list list.front index with
  | some e => list.data e
  | none => 0

/-- `cdi_list_insert`: whether the list is returned, and not null. -/
def cdiListInsert (list : KernelList) (index e value : Nat) : Bool × KernelList :=
  match entryAt list list.front index with
  | some entry => (true, listAddAfter list entry e value)
  | none => (false, list)

def cdiListRemove (list : KernelList) (index : Nat) : Nat × KernelList :=
  match entryAt list list.front index with
  | some entry => listDelEntry list entry
  | none => (0, list)

def cdiListSize (list : KernelList) : Int := listSize list

/-- An operation on a list; `e` is the address that `kmalloc` returns for a new entry. -/
inductive CdiCall where
  | push (e value : Nat)
  | pop
  | empty
  | get (index : Nat)
  | insert (index e value : Nat)
  | remove (index : Nat)
  | size
  deriving DecidableEq, Repr

/-- What an operation returns: the list or a null pointer, a value, whether the list is empty, or its size. -/
inductive CdiResult where
  | list (ok : Bool)
  | value (v : Nat)
  | empty (b : Bool)
  | size (n : Int)
  deriving DecidableEq, Repr

namespace CdiCall

def exec (list : KernelList) : CdiCall → CdiResult × KernelList
  | push e value => (.list true, cdiListPush list e value)
  | pop => (.value (cdiListPop list).1, (cdiListPop list).2)
  | empty => (.empty (cdiListEmpty list), list)
  | get index => (.value (cdiListGet list index), list)
  | insert index e value => (.list (cdiListInsert list index e value).1, (cdiListInsert list index e value).2)
  | remove index => (.value (cdiListRemove list index).1, (cdiListRemove list index).2)
  | size => (.size (cdiListSize list), list)

/-- What `cdi/lists.h` says of the operation: `index` is the index that a new element will have, and the elements with this index or a
greater one move back by one. -/
def onSeq (l : List Nat) : CdiCall → CdiResult × List Nat
  | push _ value => (.list true, value :: l)
  | pop => (.value (l.head?.getD 0), l.tail)
  | empty => (.empty l.isEmpty, l)
  | get index => (.value (l[index]?.getD 0), l)
  | insert index _ value => if index ≤ l.length then (.list true, l.insertIdx index value) else (.list false, l)
  | remove index => (.value (l[index]?.getD 0), l.eraseIdx index)
  | size => (.size l.length, l)

/-- The address of a new entry is not that of an entry of the list. -/
def Fresh (list : KernelList) : CdiCall → Prop
  | push e _ | insert _ e _ => ∀ i, entryAt list list.front i ≠ some e
  | _ => True

end CdiCall

end Kos
