import Kos.Lib.Links
import Kos.Util.List

/-!
# The functions of a linked list

A list is consistent when its entries are visited forwards from `front` and backwards from `back`, and `size` counts them. Adding an
entry keeps a list consistent, wherever it is added. What is done at the back is what is done at the front of the list seen from its
other end (`KernelList.mirror`), so that only the front is looked at.
-/

namespace Kos

/-- The pointers, the data and the size are those of the entries in the list, each with its data. -/
structure Consistent (list : KernelList) (l : List (Nat × Nat)) : Prop where
  forward : Links list.next list.front (l.map Prod.fst)
  backward : Links list.prev list.back (l.map Prod.fst).reverse
  data : ∀ x ∈ l, list.data x.1 = x.2
  size : list.size = l.length
  nodup : (l.map Prod.fst).Nodup

/-- The list seen from its other end. -/
def KernelList.mirror (list : KernelList) : KernelList where
  entries e := ⟨list.data e, list.prev e, list.next e⟩
  front := list.back
  back := list.front
  size := list.size

namespace ListAux

variable (list : KernelList) (e d : Nat) (p : Option Nat)

@[simp] theorem next_setNext : (list.setNext e p).next = Function.update list.next e p :=
  Function.comp_update ListEntry.next _ _ _

@[simp] theorem next_setPrev : (list.setPrev e p).next = list.next :=
  (Function.comp_update ListEntry.next _ _ _).trans (Function.update_eq_self e _)

@[simp] theorem next_createEntry : (listCreateEntry list e d).next = Function.update list.next e none :=
  Function.comp_update ListEntry.next _ _ _

@[simp] theorem prev_setPrev : (list.setPrev e p).prev = Function.update list.prev e p :=
  Function.comp_update ListEntry.prev _ _ _

@[simp] theorem prev_setNext : (list.setNext e p).prev = list.prev :=
  (Function.comp_update ListEntry.prev _ _ _).trans (Function.update_eq_self e _)

@[simp] theorem prev_createEntry : (listCreateEntry list e d).prev = Function.update list.prev e none :=
  Function.comp_update ListEntry.prev _ _ _

@[simp] theorem data_setNext : (list.setNext e p).data = list.data :=
  (Function.comp_update ListEntry.data _ _ _).trans (Function.update_eq_self e _)

@[simp] theorem data_setPrev : (list.setPrev e p).data = list.data :=
  (Function.comp_update ListEntry.data _ _ _).trans (Function.update_eq_self e _)

@[simp] theorem data_createEntry : (listCreateEntry list e d).data = Function.update list.data e d :=
  Function.comp_update ListEntry.data _ _ _

theorem mirror_setNext : (list.setNext e p).mirror = list.mirror.setPrev e p := by
  simp only [KernelList.mirror, KernelList.setPrev, next_setNext, prev_setNext, data_setNext]
  congr 1
  funext f
  by_cases hf : f = e
  · subst hf
    simp [KernelList.data]
  · simp [hf]

theorem mirror_setPrev : (list.setPrev e p).mirror = list.mirror.setNext e p :=
  congrArg KernelList.mirror (mirror_setNext list.mirror e p).symm

theorem mirror_createEntry : (listCreateEntry list e d).mirror = listCreateEntry list.mirror e d := by
  simp only [KernelList.mirror, next_createEntry, prev_createEntry, data_createEntry]
  unfold listCreateEntry
  congr 1
  funext f
  by_cases hf : f = e
  · subst hf
    simp
  · simp [hf]

/-- Adding at the back is adding at the front, seen from the other end. -/
theorem mirror_listAddBack : (listAddBack list e d).mirror = listAddFront list.mirror e d := by
  have hentry : ((listCreateEntry list e d).setPrev e list.back).mirror =
      (listCreateEntry list.mirror e d).setNext e list.mirror.front := by
    rw [mirror_setPrev, mirror_createEntry]
    rfl
  unfold listAddBack listAddFront
  simp only [← hentry]
  generalize (listCreateEntry list e d).setPrev e list.back = created
  have hfront : created.mirror.front = created.back := rfl
  simp only [hfront]
  cases created.back with
  | none =>
    have hback : created.mirror.back = created.front := rfl
    simp only [hback]
    cases created.front <;> rfl
  | some back => 
    simp only [← mirror_setNext]
    rfl

/-- Deleting at the back is deleting at the front, seen from the other end. -/
theorem mirror_listDelBack {list : KernelList} {e : Nat} (hback : list.back = some e) (hne : list.front ≠ none) :
    listDelBack list = some ((listDelFront list.mirror).1, (listDelFront list.mirror).2.mirror) := by
  have hempty : listEmpty list = false := by
    rw [listEmpty, Option.isNone_eq_false_iff, Option.isSome_iff_ne_none]
    exact hne
  have hfront : list.mirror.front = some e := hback
  simp only [listDelBack, listDelFront, hempty, hfront, hback, Bool.false_eq_true, if_false, Option.map_some]
  rfl

end ListAux

open ListAux

theorem Consistent.mirror {list : KernelList} {l : List (Nat × Nat)} (h : Consistent list l) : Consistent list.mirror l.reverse := by
  refine ⟨?_, ?_, ?_, ?_, ?_⟩
  · rw [List.map_reverse]
    exact h.backward
  · rw [List.map_reverse, List.reverse_reverse]
    exact h.forward
  · intro x hx
    exact h.data x (List.mem_reverse.mp hx)
  · rw [List.length_reverse]
    exact h.size
  · rw [List.map_reverse, List.nodup_reverse]
    exact h.nodup

/-- A list is consistent if and only if it is so seen from the other end. -/
theorem consistent_mirror_iff {list : KernelList} {l : List (Nat × Nat)} :
    Consistent list.mirror l.reverse ↔ Consistent list l := by
  refine ⟨?_, Consistent.mirror⟩
  intro h
  have := h.mirror
  rwa [List.reverse_reverse] at this

/-- `list_create`. -/
theorem listCreate_consistent (entries : Nat → ListEntry) : Consistent (listCreate entries) [] :=
  ⟨rfl, rfl, fun _ hx => absurd hx (List.not_mem_nil), rfl, List.nodup_nil⟩

/-- The data of the other entries is not touched when an entry is created. -/
theorem Consistent.data_new {list : KernelList} {l l' : List (Nat × Nat)} {e d : Nat} (h : Consistent list l)
    (he : e ∉ l.map Prod.fst) (hl : ∀ x ∈ l', x = (e, d) ∨ x ∈ l) : ∀ x ∈ l', Function.update list.data e d x.1 = x.2 := by
  intro x hx
  rcases hl x hx with rfl | hx
  · exact Function.update_self ..
  · rw [Function.update_of_ne]
    · exact h.data x hx
    · exact fun hxe => he (List.mem_map.mpr ⟨x, hx, hxe⟩)

theorem listAddFront_nil {list : KernelList} (e d : Nat) (hf : list.front = none) (hb : list.back = none) :
    listAddFront list e d =
      { (listCreateEntry list e d).setNext e none with front := some e, back := some e, size := list.size + 1 } := by
  have hf' : ((listCreateEntry list e d).setNext e none).front = none := hf
  have hb' : ((listCreateEntry list e d).setNext e none).back = none := hb
  simp only [listAddFront, hf, hf', hb', Option.isNone_none, if_true]
  rfl

theorem listAddFront_cons {list : KernelList} {f : Nat} (e d : Nat) (hf : list.front = some f) :
    listAddFront list e d =
      { ((listCreateEntry list e d).setNext e (some f)).setPrev f (some e) with front := some e, size := list.size + 1 } := by
  have hf' : ((listCreateEntry list e d).setNext e (some f)).front = some f := hf
  simp only [listAddFront, hf, hf']
  rfl

/-- `list_add_front`. -/
theorem listAddFront_consistent {list : KernelList} {l : List (Nat × Nat)} {e : Nat} (d : Nat) (h : Consistent list l)
    (he : e ∉ l.map Prod.fst) : Consistent (listAddFront list e d) ((e, d) :: l) := by
  have hmem : ∀ x ∈ (e, d) :: l, x = (e, d) ∨ x ∈ l := fun x hx => List.mem_cons.mp hx
  have hdata := h.data_new he hmem
  have hnodup : (((e, d) :: l).map Prod.fst).Nodup := List.nodup_cons.mpr ⟨he, h.nodup⟩
  have hsize : list.size + 1 = (((e, d) :: l).length : Int) := by
    rw [h.size]
    rfl
  cases l with
  | nil =>
    rw [listAddFront_nil e d h.forward h.backward]
    refine ⟨⟨rfl, ?_⟩, ⟨rfl, ?_⟩, ?_, hsize, hnodup⟩
    · change ((listCreateEntry list e d).setNext e none).next e = none
      simp
    · change ((listCreateEntry list e d).setNext e none).prev e = none
      simp
    · change ∀ x ∈ [(e, d)], ((listCreateEntry list e d).setNext e none).data x.1 = x.2
      rw [data_setNext, data_createEntry]
      exact hdata
  | cons x l =>
    obtain ⟨f, df⟩ := x
    obtain ⟨hef, hel⟩ : e ≠ f ∧ e ∉ l.map Prod.fst := by simpa only [List.map_cons, List.mem_cons, not_or] using he
    rw [listAddFront_cons e d h.forward.1]
    refine ⟨?_, ?_, ?_, hsize, hnodup⟩
    · change Links (((listCreateEntry list e d).setNext e (some f)).setPrev f (some e)).next (some e) _
      rw [next_setPrev, next_setNext, next_createEntry, Function.update_idem, ← h.forward.1]
      exact h.forward.insertFirst he
    · change Links (((listCreateEntry list e d).setNext e (some f)).setPrev f (some e)).prev list.back _
      have hback := h.backward
      rw [List.map_cons, List.reverse_cons] at hback
      have hend : list.prev f = none := hback.drop
      have hout : e ∉ (l.map Prod.fst).reverse ++ [f] := by
        simp only [List.mem_append, List.mem_reverse, List.mem_singleton, not_or]
        exact ⟨hel, hef⟩
      have hins := hback.insertAfter (by simpa using List.nodup_reverse.mpr h.nodup) hout
      rw [prev_setPrev, prev_setNext, prev_createEntry, ← hend]
      simpa using hins
    · change ∀ x ∈ (e, d) :: (f, df) :: l, (((listCreateEntry list e d).setNext e (some f)).setPrev f (some e)).data x.1 = x.2
      rw [data_setPrev, data_setNext, data_createEntry]
      exact hdata

/-- `list_add_back`. -/
theorem listAddBack_consistent {list : KernelList} {l : List (Nat × Nat)} {e : Nat} (d : Nat) (h : Consistent list l)
    (he : e ∉ l.map Prod.fst) : Consistent (listAddBack list e d) (l ++ [(e, d)]) := by
  refine consistent_mirror_iff.mp ?_
  rw [mirror_listAddBack, List.reverse_concat]
  exact listAddFront_consistent d h.mirror (by rwa [List.map_reverse, List.mem_reverse])

theorem listAddAfter_last {list : KernelList} {x e : Nat} (d : Nat) (hxe : x ≠ e) (hx : list.next x = none)
    (hb : list.back = some x) :
    listAddAfter list x e d =
      { ((listCreateEntry list e d).setNext x (some e)).setPrev e (some x) with back := some e, size := list.size + 1 } := by
  have hx' : (listCreateEntry list e d).next x = none := by rw [next_createEntry, Function.update_of_ne hxe, hx]
  have hb' : (((listCreateEntry list e d).setNext x (some e)).setPrev e (some x)).back = some x := hb
  simp only [listAddAfter, hx', hb', if_true]
  rfl

theorem listAddAfter_middle {list : KernelList} {x y e : Nat} (d : Nat) (hxe : x ≠ e) (hx : list.next x = some y)
    (hb : list.back ≠ some x) :
    listAddAfter list x e d =
      { ((((listCreateEntry list e d).setNext e (some y)).setPrev y (some e)).setNext x (some e)).setPrev e (some x) with
        size := list.size + 1 } := by
  have hx' : (listCreateEntry list e d).next x = some y := by rw [next_createEntry, Function.update_of_ne hxe, hx]
  simp only [listAddAfter, hx']
  have hb' : ((((((listCreateEntry list e d).setNext e (some y)).setPrev y (some e)).setNext x (some e)).setPrev e (some x)).back =
    some x) = False := eq_false hb
  simp only [hb', if_false]
  rfl

/-- The data, the size and the addresses with a new entry behind `(x, dx)`, whatever the pointers are. -/
theorem Consistent.insert {list : KernelList} {l₁ l₂ : List (Nat × Nat)} {x dx e : Nat} (d : Nat)
    (h : Consistent list (l₁ ++ (x, dx) :: l₂)) (he : e ∉ (l₁ ++ (x, dx) :: l₂).map Prod.fst) :
    (∀ z ∈ l₁ ++ (x, dx) :: (e, d) :: l₂, Function.update list.data e d z.1 = z.2) ∧
      list.size + 1 = ((l₁ ++ (x, dx) :: (e, d) :: l₂).length : Int) ∧
      ((l₁ ++ (x, dx) :: (e, d) :: l₂).map Prod.fst).Nodup := by
  refine ⟨h.data_new he ?_, ?_, ?_⟩
  · intro z hz
    simp only [List.mem_append, List.mem_cons] at hz ⊢
    tauto
  · rw [h.size]
    simp only [List.length_append, List.length_cons]
    omega
  · have hnd := h.nodup
    simp only [List.map_append, List.map_cons] at he hnd ⊢
    have hperm : (l₁.map Prod.fst ++ x :: e :: l₂.map Prod.fst).Perm (e :: (l₁.map Prod.fst ++ x :: l₂.map Prod.fst)) := by
      rw [List.append_cons]
      exact (List.perm_middle).trans (by rw [List.append_assoc]; rfl)
    exact hperm.nodup_iff.mpr (List.nodup_cons.mpr ⟨he, hnd⟩)

/-- An entry is added behind the last one. -/
theorem listAddAfter_last_consistent {list : KernelList} {l₁ : List (Nat × Nat)} {x dx e : Nat} (d : Nat)
    (h : Consistent list (l₁ ++ [(x, dx)])) (he : e ∉ (l₁ ++ [(x, dx)]).map Prod.fst) :
    Consistent (listAddAfter list x e d) (l₁ ++ [(x, dx), (e, d)]) := by
  obtain ⟨hdata, hsize, hnodup⟩ := h.insert d he
  have hforward := h.forward
  have hbackward := h.backward
  have hnd := h.nodup
  simp only [List.map_append, List.map_cons, List.map_nil] at he hforward hbackward hnd
  have hxe : x ≠ e := fun hxe => he (by simp [hxe])
  have hnext := hforward.drop.head_eq
  have hback : list.back = some x := by simpa using hbackward.head_eq
  rw [listAddAfter_last d hxe hnext hback]
  refine ⟨?_, ?_, ?_, hsize, hnodup⟩
  · change Links (((listCreateEntry list e d).setNext x (some e)).setPrev e (some x)).next list.front _
    have hins := hforward.insertAfter hnd he
    rw [next_setPrev, next_setNext, next_createEntry]
    rw [hnext] at hins
    simpa using hins
  · change Links (((listCreateEntry list e d).setNext x (some e)).setPrev e (some x)).prev (some e) _
    rw [prev_setPrev, prev_setNext, prev_createEntry, Function.update_idem, ← hback]
    have hout : e ∉ (l₁.map Prod.fst ++ [x]).reverse := by rwa [List.mem_reverse]
    simpa using hbackward.insertFirst hout
  · change ∀ z ∈ l₁ ++ (x, dx) :: [(e, d)], (((listCreateEntry list e d).setNext x (some e)).setPrev e (some x)).data z.1 = z.2
    rw [data_setPrev, data_setNext, data_createEntry]
    exact hdata

/-- The last entry of a list is not one with another behind it. -/
theorem Consistent.back_ne {list : KernelList} {l₁ l₂ : List (Nat × Nat)} {x dx y dy : Nat}
    (h : Consistent list (l₁ ++ (x, dx) :: (y, dy) :: l₂)) : list.back ≠ some x := by
  intro hback
  have hlast := h.backward.head_eq
  have hnd := h.nodup
  simp only [List.map_append, List.map_cons] at hlast hnd
  rw [hback, List.head?_reverse, List.getLast?_append, List.getLast?_cons_cons] at hlast
  have hmem := List.mem_of_getLast? (l := y :: l₂.map Prod.fst) (a := x) (by
    cases hl : (y :: l₂.map Prod.fst).getLast? with
    | none => simp at hl
    | some z => rw [hl] at hlast; simpa using hlast.symm)
  exact (List.nodup_cons.mp (List.nodup_append.mp hnd).2.1).1 hmem

/-- An entry is added between two others. -/
theorem listAddAfter_middle_consistent {list : KernelList} {l₁ l₂ : List (Nat × Nat)} {x dx y dy e : Nat} (d : Nat)
    (h : Consistent list (l₁ ++ (x, dx) :: (y, dy) :: l₂)) (he : e ∉ (l₁ ++ (x, dx) :: (y, dy) :: l₂).map Prod.fst) :
    Consistent (listAddAfter list x e d) (l₁ ++ (x, dx) :: (e, d) :: (y, dy) :: l₂) := by
  obtain ⟨hdata, hsize, hnodup⟩ := h.insert d he
  have hback := h.back_ne
  have hforward := h.forward
  have hbackward := h.backward
  have hnd := h.nodup
  simp only [List.map_append, List.map_cons] at he hforward hbackward hnd
  have hxe : x ≠ e := fun hxe => he (by simp [hxe])
  have hye : y ≠ e := fun hye => he (by simp [hye])
  have hnext : list.next x = some y := hforward.drop.head_eq
  rw [listAddAfter_middle d hxe hnext hback]
  refine ⟨?_, ?_, ?_, hsize, hnodup⟩
  · change Links (((((listCreateEntry list e d).setNext e (some y)).setPrev y (some e)).setNext x (some e)).setPrev e
      (some x)).next list.front _
    have hins := hforward.insertAfter hnd he
    simp only [next_setPrev, next_setNext, next_createEntry, Function.update_idem]
    rw [hnext] at hins
    simpa using hins
  · change Links (((((listCreateEntry list e d).setNext e (some y)).setPrev y (some e)).setNext x (some e)).setPrev e
      (some x)).prev list.back _
    have hrev : (l₁.map Prod.fst ++ x :: y :: l₂.map Prod.fst).reverse =
        (l₂.map Prod.fst).reverse ++ y :: x :: (l₁.map Prod.fst).reverse := by simp
    have hnd' := List.nodup_reverse.mpr hnd
    have hout := mt List.mem_reverse.mp he
    rw [hrev] at hbackward hnd' hout
    have hprev : list.prev y = some x := hbackward.drop.head_eq
    have hins' := hbackward.insertAfter hnd' hout
    rw [hprev] at hins'
    simp only [prev_setPrev, prev_setNext, prev_createEntry, Function.update_comm hye, Function.update_idem]
    simpa using hins'
  · change ∀ z ∈ l₁ ++ (x, dx) :: (e, d) :: (y, dy) :: l₂, (((((listCreateEntry list e d).setNext e (some y)).setPrev y
      (some e)).setNext x (some e)).setPrev e (some x)).data z.1 = z.2
    simp only [data_setPrev, data_setNext, data_createEntry]
    exact hdata

/-- `list_add_after`, for an entry of the list. -/
theorem listAddAfter_consistent {list : KernelList} {l₁ l₂ : List (Nat × Nat)} {x dx e : Nat} (d : Nat)
    (h : Consistent list (l₁ ++ (x, dx) :: l₂)) (he : e ∉ (l₁ ++ (x, dx) :: l₂).map Prod.fst) :
    Consistent (listAddAfter list x e d) (l₁ ++ (x, dx) :: (e, d) :: l₂) := by
  cases l₂ with
  | nil => exact listAddAfter_last_consistent d h he
  | cons y l₂ => exact listAddAfter_middle_consistent d h he

/-! ## Deleting -/

/-- The pointer that `list_del_front` leaves as it is. -/
theorem Consistent.prev_second {list : KernelList} {l : List (Nat × Nat)} {x y : Nat × Nat} (h : Consistent list (x :: y :: l)) :
    list.prev y.1 = some x.1 := by
  have hbackward := h.backward
  rw [List.map_cons, List.map_cons, List.reverse_cons, List.reverse_cons, List.append_assoc] at hbackward
  exact hbackward.drop.head_eq

theorem Consistent.prev_first {list : KernelList} {l : List (Nat × Nat)} {x : Nat × Nat} (h : Consistent list (x :: l)) :
    list.prev x.1 = none := by
  have hbackward := h.backward
  rw [List.map_cons, List.reverse_cons] at hbackward
  exact hbackward.drop

/-- The entry that `list_del_front` deletes, and the pointers that it changes. -/
theorem listDelFront_eq {list : KernelList} {l : List (Nat × Nat)} {x : Nat × Nat} (h : Consistent list (x :: l)) :
    listDelFront list = (x.2,
      { list with front := list.next x.1, back := if list.back = some x.1 then none else list.back, size := list.size - 1 }) := by
  have hfront : list.front = some x.1 := h.forward.1
  simp only [listDelFront, hfront, h.data x (List.mem_cons_self ..)]

/-- `list_del_front` of the only entry. -/
theorem listDelFront_only {list : KernelList} {x : Nat × Nat} (h : Consistent list [x]) :
    Consistent (listDelFront list).2 [] := by
  have hback : list.back = some x.1 := h.backward.1
  rw [listDelFront_eq h]
  refine ⟨h.forward.2, ?_, fun _ hx => absurd hx List.not_mem_nil, ?_, List.nodup_nil⟩
  · simp only [hback, if_true]
    rfl
  · simp only [h.size]
    rfl

/-- `list_del_front` of one entry of several: the new first entry still points back to the one deleted. -/
theorem listDelFront_stale {list : KernelList} {l : List (Nat × Nat)} {x y : Nat × Nat} (h : Consistent list (x :: y :: l)) :
    ¬Consistent (listDelFront list).2 (y :: l) := by
  intro h'
  have hstale : (listDelFront list).2.prev y.1 = some x.1 := by
    rw [listDelFront_eq h]
    exact h.prev_second
  cases hstale.symm.trans h'.prev_first

/-- `list_del_entry` does not count the entry off. -/
theorem listDelEntry_size (list : KernelList) (entry : Nat) : (listDelEntry list entry).2.size = list.size := by
  unfold listDelEntry
  cases list.next entry with
  | none => cases h : list.prev entry <;> (simp only [h]; try rfl)
  | some n => cases h : (list.setPrev n (list.prev entry)).prev entry <;> (simp only [h]; rfl)

/-- `list_del_entry` returns the data of the entry. -/
theorem listDelEntry_data (list : KernelList) (entry : Nat) : (listDelEntry list entry).1 = list.data entry := by
  unfold listDelEntry
  cases list.next entry with
  | none => cases h : list.prev entry <;> simp only [h, data_setNext]
  | some n => cases h : (list.setPrev n (list.prev entry)).prev entry <;> simp only [h, data_setNext, data_setPrev]

end Kos
