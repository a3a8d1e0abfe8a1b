import Kos.Lib.Run
import Kos.Lemmas.List
import Kos.Cdi.Lists

/-!
# The lists of the driver interface over whole runs

Only the pointers forwards matter to these functions, and those `list_del_front` leaves in order. But `cdi_list_insert` adds the new
element behind the one with the given index, and none at the end, and `cdi_list_remove` does not count the element off. A run keeps its
list equal to the sequence that it stands for as long as it does neither (`cdiList_isSeq_of_keepsSeq`).
-/

namespace Kos

/-- The list holds these values, in this order, and counts them. -/
def IsSeq (list : KernelList) (vs : List Nat) : Prop :=
  ∃ l, Links list.next list.front l ∧ l.Nodup ∧ l.map list.data = vs ∧ list.size = vs.length

/-- A list, and the sequence that it should be. -/
structure CdiRun where
  list : KernelList
  seq : List Nat

def cdiStep (r : CdiRun) (c : CdiCall) : Option CdiRun := some ⟨(c.exec r.list).2, (c.onSeq r.seq).2⟩

/-- The operation is not an insertion that is made one place too late or not at all, unless the value is the one it is put behind, and
not the removal of an element. -/
def KeepsSeq (r : CdiRun) : CdiCall → Prop
  | .insert index _ value => r.seq.length < index ∨ r.seq[index]? = some value
  | .remove index => r.seq.length ≤ index
  | _ => True

namespace CdiAux

open ListAux

/-! ## The pointers forwards -/

section

variable (list : KernelList) (e d : Nat)

theorem listAddFront_fields : (listAddFront list e d).next = Function.update list.next e list.front ∧
    (listAddFront list e d).data = Function.update list.data e d ∧ (listAddFront list e d).front = some e ∧
    (listAddFront list e d).size = list.size + 1 := by
  cases hf : list.front with
  | some f =>
    rw [listAddFront_cons e d hf]
    refine ⟨?_, ?_, rfl, rfl⟩
    · change (((listCreateEntry list e d).setNext e (some f)).setPrev f (some e)).next = _
      rw [next_setPrev, next_setNext, next_createEntry, Function.update_idem]
    · change (((listCreateEntry list e d).setNext e (some f)).setPrev f (some e)).data = _
      rw [data_setPrev, data_setNext, data_createEntry]
  | none =>
    -- the entry is created alike; only `back` is set or not
    have hf' : ((listCreateEntry list e d).setNext e none).front = none := hf
    have hnext : ((listCreateEntry list e d).setNext e none).next = Function.update list.next e none := by
      rw [next_setNext, next_createEntry, Function.update_idem]
    have hdata : ((listCreateEntry list e d).setNext e none).data = Function.update list.data e d := by
      rw [data_setNext, data_createEntry]
    cases hb : list.back with
    | none =>
      rw [listAddFront_nil e d hf hb]
      exact ⟨hnext, hdata, rfl, rfl⟩
    | some b =>
      have hb' : ((listCreateEntry list e d).setNext e none).back = some b := hb
      have hadd : listAddFront list e d = { (listCreateEntry list e d).setNext e none with front := some e, size := list.size + 1 } := by
        simp only [listAddFront, hf, hf', hb', Option.isNone_some, Bool.false_eq_true, if_false]
        rfl
      rw [hadd]
      exact ⟨hnext, hdata, rfl, rfl⟩

theorem listAddAfter_fields {entry : Nat} (hne : entry ≠ e) :
    (listAddAfter list entry e d).next = Function.update (Function.update list.next e (list.next entry)) entry (some e) ∧
    (listAddAfter list entry e d).data = Function.update list.data e d ∧ (listAddAfter list entry e d).front = list.front ∧
    (listAddAfter list entry e d).size = list.size + 1 := by
  have hentry : (listCreateEntry list e d).next entry = list.next entry := by
    rw [next_createEntry, Function.update_of_ne hne]
  cases hn : list.next entry with
  | none =>
    simp only [listAddAfter, hentry, hn]
    refine ⟨?_, ?_, rfl, rfl⟩
    · change (((listCreateEntry list e d).setNext entry (some e)).setPrev e (some entry)).next = _
      rw [next_setPrev, next_setNext, next_createEntry]
    · change (((listCreateEntry list e d).setNext entry (some e)).setPrev e (some entry)).data = _
      rw [data_setPrev, data_setNext, data_createEntry]
  | some n =>
    simp only [listAddAfter, hentry, hn]
    refine ⟨?_, ?_, rfl, rfl⟩
    · change (((((listCreateEntry list e d).setNext e (some n)).setPrev n (some e)).setNext entry (some e)).setPrev e
        (some entry)).next = _
      simp only [next_setPrev, next_setNext, next_createEntry, Function.update_idem]
    · change (((((listCreateEntry list e d).setNext e (some n)).setPrev n (some e)).setNext entry (some e)).setPrev e
        (some entry)).data = _
      simp only [data_setPrev, data_setNext, data_createEntry]

end

/-! ## The sequence that a list holds -/

variable {list : KernelList} {vs : List Nat}

/-- The walk to an index finds the entry of the list with this index. -/
theorem entryAt_of_links {p : Option Nat} {l : List Nat} (h : Links list.next p l) (i : Nat) : entryAt list p i = l[i]? := by
  induction l generalizing p i with
  | nil =>
    obtain rfl : p = none := h
    cases i <;> rfl
  | cons a l ih =>
    obtain ⟨rfl, h⟩ := h
    cases i with
    | zero => rfl
    | succ i => simpa [entryAt] using ih h i

theorem fresh_iff {l : List Nat} {e : Nat} (h : Links list.next list.front l) :
    (∀ i, entryAt list list.front i ≠ some e) ↔ e ∉ l := by
  simp only [entryAt_of_links h, List.mem_iff_getElem?, not_exists]

/-- The list holds one sequence only. -/
theorem isSeq_unique {ws : List Nat} (h : IsSeq list vs) (h' : IsSeq list ws) : vs = ws := by
  obtain ⟨l, hl, -, rfl, -⟩ := h
  obtain ⟨l', hl', -, rfl, -⟩ := h'
  rw [hl.unique hl']

/-- Values of other entries are not touched by a new one. -/
theorem map_update (list : KernelList) {l : List Nat} {e : Nat} (d : Nat) (he : e ∉ l) : l.map (Function.update list.data e d) = l.map list.data := by
  refine List.map_congr_left fun a ha => Function.update_of_ne ?_ _ _
  rintro rfl
  exact he ha

theorem create_isSeq (entries : Nat → ListEntry) : IsSeq (cdiListCreate entries) [] := ⟨[], rfl, List.nodup_nil, rfl, rfl⟩

theorem push_isSeq {e : Nat} (d : Nat) (h : IsSeq list vs) (hfresh : ∀ i, entryAt list list.front i ≠ some e) :
    IsSeq (cdiListPush list e d) (d :: vs) := by
  obtain ⟨l, hl, hnd, rfl, hsize⟩ := h
  have he := (fresh_iff hl).mp hfresh
  obtain ⟨hnext, hdata, hfront, hsize'⟩ := listAddFront_fields list e d
  refine ⟨e :: l, ?_, List.nodup_cons.mpr ⟨he, hnd⟩, ?_, ?_⟩
  · rw [cdiListPush, hnext, hfront]
    exact hl.insertFirst he
  · rw [cdiListPush, hdata, List.map_cons, Function.update_self, map_update list d he]
  · rw [cdiListPush, hsize', hsize, List.length_cons]
    rfl

theorem pop_isSeq (h : IsSeq list vs) : (cdiListPop list).1 = vs.head?.getD 0 ∧ IsSeq (cdiListPop list).2 vs.tail := by
  obtain ⟨l, hl, hnd, rfl, hsize⟩ := h
  cases l with
  | nil =>
    have hfront : list.front = none := hl
    simp only [cdiListPop, listDelFront, hfront]
    exact ⟨rfl, [], hl, hnd, rfl, hsize⟩
  | cons a l =>
    have hfront : list.front = some a := hl.1
    simp only [cdiListPop, listDelFront, hfront]
    refine ⟨rfl, l, hl.2, (List.nodup_cons.mp hnd).2, rfl, ?_⟩
    simp only [hsize, List.map_cons, List.tail_cons, List.length_cons]
    omega

theorem get_eq (h : IsSeq list vs) (i : Nat) : cdiListGet list i = vs[i]?.getD 0 := by
  obtain ⟨l, hl, -, rfl, -⟩ := h
  rw [cdiListGet, entryAt_of_links hl, List.getElem?_map]
  cases l[i]? <;> rfl

theorem empty_eq (h : IsSeq list vs) : cdiListEmpty list = vs.isEmpty := by
  obtain ⟨l, hl, -, rfl, -⟩ := h
  rw [cdiListEmpty, listEmpty, hl.head_eq]
  cases l <;> rfl

theorem size_eq (h : IsSeq list vs) : cdiListSize list = vs.length := by
  have hempty := empty_eq h
  rw [cdiListSize, listSize]
  rw [cdiListEmpty] at hempty
  split
  · rename_i he
    rw [hempty, List.isEmpty_iff] at he
    rw [he]
    rfl
  · obtain ⟨-, -, -, -, hsize⟩ := h
    exact hsize

/-! ## Insertion and removal -/

theorem insertIdx_length {α : Type*} (l₁ l₂ : List α) (a : α) : (l₁ ++ l₂).insertIdx l₁.length a = l₁ ++ a :: l₂ := by
  induction l₁ with
  | nil => cases l₂ <;> rfl
  | cons b l₁ ih => simpa using ih

/-- Inserting within the list puts the value behind the element with the index. -/
theorem insert_isSeq {ws₁ ws₂ : List Nat} {w e : Nat} (d : Nat) (h : IsSeq list (ws₁ ++ w :: ws₂))
    (hfresh : ∀ i, entryAt list list.front i ≠ some e) :
    (cdiListInsert list ws₁.length e d).1 = true ∧ IsSeq (cdiListInsert list ws₁.length e d).2 (ws₁ ++ w :: d :: ws₂) := by
  obtain ⟨l, hl, hnd, hmap, hsize⟩ := h
  obtain ⟨l₁, l', rfl, hmap₁, hmap'⟩ := List.map_eq_append_iff.mp hmap
  obtain ⟨a, l₂, rfl, rfl, hmap₂⟩ := List.map_eq_cons_iff.mp hmap'
  have he := (fresh_iff hl).mp hfresh
  have hlen : ws₁.length = l₁.length := by rw [← hmap₁, List.length_map]
  have hentry : entryAt list list.front ws₁.length = some a := by
    rw [entryAt_of_links hl, hlen]
    simp
  have hne : a ≠ e := fun heq => he (by simp [heq])
  obtain ⟨hnext, hdata, hfront, hsize'⟩ := listAddAfter_fields list e d hne
  simp only [cdiListInsert, hentry]
  refine ⟨trivial, l₁ ++ a :: e :: l₂, ?_, ?_, ?_, ?_⟩
  · rw [hnext, hfront]
    exact hl.insertAfter hnd he
  · have hperm : (l₁ ++ a :: e :: l₂).Perm (e :: (l₁ ++ a :: l₂)) := by
      rw [List.append_cons]
      exact List.perm_middle.trans (by rw [List.append_assoc]; rfl)
    exact hperm.nodup_iff.mpr (List.nodup_cons.mpr ⟨he, hnd⟩)
  · have hmap'' := map_update list d he
    rw [List.map_append, List.map_cons, List.map_append, List.map_cons, hmap₁, hmap₂] at hmap''
    obtain ⟨h₁, h₂⟩ := List.append_inj hmap'' (by rw [List.length_map, hlen])
    obtain ⟨h₂, h₃⟩ := List.cons.inj h₂
    rw [hdata, List.map_append, List.map_cons, List.map_cons, h₁, h₂, h₃, Function.update_self]
  · rw [hsize', hsize]
    simp only [List.length_append, List.length_cons]
    omega

/-- That is where it belongs if and only if the two values are the same. -/
theorem insert_ok_iff {i e : Nat} (d : Nat) (h : IsSeq list vs) (hfresh : ∀ i, entryAt list list.front i ≠ some e) :
    (CdiResult.list (cdiListInsert list i e d).1 = ((CdiCall.insert i e d).onSeq vs).1 ∧
      IsSeq (cdiListInsert list i e d).2 ((CdiCall.insert i e d).onSeq vs).2) ↔ vs.length < i ∨ vs[i]? = some d := by
  rcases Nat.lt_or_ge i vs.length with hi | hi
  · obtain ⟨ws₁, w, ws₂, rfl, rfl⟩ : ∃ ws₁ w ws₂, vs = ws₁ ++ w :: ws₂ ∧ i = ws₁.length :=
      ⟨vs.take i, vs[i], vs.drop (i + 1), by simp, by simp; omega⟩
    obtain ⟨hok, hins⟩ := insert_isSeq d h hfresh
    have hle : ws₁.length ≤ (ws₁ ++ w :: ws₂).length := Nat.le_of_lt hi
    simp only [CdiCall.onSeq, hle, if_true, hok, insertIdx_length, true_and]
    have hget : (ws₁ ++ w :: ws₂)[ws₁.length]? = some w := by simp
    rw [hget]
    constructor
    · intro hseq
      have heq := List.append_cancel_left (isSeq_unique hins hseq)
      exact .inr (congrArg some (List.cons.inj heq).1)
    · rintro (hlt | heq)
      · omega
      · rw [← Option.some.inj heq]
        rwa [← Option.some.inj heq] at hins
  · -- past the last element nothing is inserted
    have hentry : entryAt list list.front i = none := by
      obtain ⟨l, hl, -, rfl, -⟩ := h
      rw [List.length_map] at hi
      rw [entryAt_of_links hl, List.getElem?_eq_none hi]
    have hget : vs[i]? = none := List.getElem?_eq_none hi
    simp only [cdiListInsert, hentry, hget, CdiCall.onSeq]
    split
    · rename_i hle
      refine ⟨fun hok => ?_, fun hlt => ?_⟩
      · cases hok.1
      · rcases hlt with hlt | hlt
        · omega
        · cases hlt
    · exact ⟨fun _ => .inl (by omega), fun _ => ⟨rfl, h⟩⟩

/-- An element that is removed is still counted. -/
theorem remove_ok_iff (h : IsSeq list vs) (i : Nat) :
    (cdiListRemove list i).1 = vs[i]?.getD 0 ∧ (IsSeq (cdiListRemove list i).2 (vs.eraseIdx i) ↔ vs.length ≤ i) := by
  have h' := h
  obtain ⟨l, hl, -, rfl, hsize⟩ := h'
  rw [List.length_map] at hsize ⊢
  rw [cdiListRemove, entryAt_of_links hl, List.getElem?_map]
  rcases Nat.lt_or_ge i l.length with hi | hi
  · rw [List.getElem?_eq_getElem hi]
    refine ⟨listDelEntry_data list l[i], fun ⟨_, _, _, _, hsize'⟩ => ?_, fun hle => by omega⟩
    simp only [listDelEntry_size, hsize, List.length_eraseIdx, List.length_map, hi, if_true] at hsize'
    omega
  · rw [List.getElem?_eq_none hi]
    refine ⟨rfl, fun _ => hi, fun _ => ?_⟩
    rwa [List.eraseIdx_of_length_le (by rwa [List.length_map])]

/-- What an operation does to a list that holds a sequence. -/
theorem exec_ok_iff (h : IsSeq list vs) (c : CdiCall) (hc : c.Fresh list) :
    ((c.exec list).1 = (c.onSeq vs).1 ∧ IsSeq (c.exec list).2 (c.onSeq vs).2) ↔ KeepsSeq ⟨list, vs⟩ c := by
  cases c with
  | push e d => exact ⟨fun _ => trivial, fun _ => ⟨rfl, push_isSeq d h hc⟩⟩
  | pop =>
    obtain ⟨hvalue, hseq⟩ := pop_isSeq h
    exact ⟨fun _ => trivial, fun _ => ⟨congrArg CdiResult.value hvalue, hseq⟩⟩
  | empty => exact ⟨fun _ => trivial, fun _ => ⟨congrArg CdiResult.empty (empty_eq h), h⟩⟩
  | get i => exact ⟨fun _ => trivial, fun _ => ⟨congrArg CdiResult.value (get_eq h i), h⟩⟩
  | insert i e d => exact insert_ok_iff d h hc
  | remove i =>
    obtain ⟨hvalue, hseq⟩ := remove_ok_iff h i
    exact ⟨fun hok => hseq.mp hok.2, fun hle => ⟨congrArg CdiResult.value hvalue, hseq.mpr hle⟩⟩
  | size => exact ⟨fun _ => trivial, fun _ => ⟨congrArg CdiResult.size (size_eq h), h⟩⟩

end CdiAux

open CdiAux

/-- In every state reached from a new list by operations that meet the condition, the list holds the sequence that the interface
documents; there every further operation returns what is documented, and leaves the documented sequence, if and only if it meets the
condition. -/
theorem cdiList_isSeq_of_keepsSeq (entries : Nat → ListEntry) (r : CdiRun)
    (h : Reach cdiStep (fun r c => c.Fresh r.list ∧ KeepsSeq r c) ⟨cdiListCreate entries, []⟩ r) :
    IsSeq r.list r.seq ∧ ∀ c : CdiCall, c.Fresh r.list →
      (((c.exec r.list).1 = (c.onSeq r.seq).1 ∧ IsSeq (c.exec r.list).2 (c.onSeq r.seq).2) ↔ KeepsSeq r c) := by
  have hinv : IsSeq r.list r.seq := by
    refine h.inv (fun r => IsSeq r.list r.seq) (create_isSeq entries) ?_
    intro r c r' hr hc hstep
    cases hstep
    exact ((exec_ok_iff hr c hc.1).mpr hc.2).2
  exact ⟨hinv, fun c hc => exec_ok_iff hinv c hc⟩

/-- A list without entries. -/
def noValues : KernelList := cdiListCreate fun _ => ⟨0, none, none⟩

/-- A list of two values, 7 before 5, in the entries 32 and 16. -/
def sevenFive : KernelList := cdiListPush (cdiListPush noValues 16 5) 32 7

/-- Two values are pushed. -/
theorem sevenFive_isSeq : IsSeq sevenFive [7, 5] := by
  have hnone : Links noValues.next noValues.front [] := rfl
  have hone : Links (cdiListPush noValues 16 5).next (cdiListPush noValues 16 5).front [16] := ⟨rfl, rfl⟩
  exact (cdiList_isSeq_of_keepsSeq (fun _ => ⟨0, none, none⟩) ⟨sevenFive, [7, 5]⟩
    (.step (.push 32 7) (.step (.push 16 5) .init ⟨(fresh_iff hnone).mpr (by decide), trivial⟩ rfl)
      ⟨(fresh_iff hone).mpr (by decide), trivial⟩ rfl)).1

/-- Inserting 9 at index 0 leaves 7 there; at index 2, the end, it is refused. Removing an element leaves a list of one element that
says its size is 2. -/
theorem sevenFive_not_kept :
    (cdiListGet (cdiListInsert sevenFive 0 48 9).2 0 = 7 ∧ cdiListGet (cdiListInsert sevenFive 0 48 9).2 1 = 9) ∧
    (cdiListInsert sevenFive 2 48 9).1 = false ∧
    cdiListGet (cdiListRemove sevenFive 0).2 0 = 5 ∧ cdiListGet (cdiListRemove sevenFive 0).2 1 = 0 ∧
    cdiListSize (cdiListRemove sevenFive 0).2 = 2 := by
  decide +kernel

end Kos
