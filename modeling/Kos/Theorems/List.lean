import Kos.Lib.Run
import Kos.Lemmas.List

/-!
# Linked lists over whole runs

The functions that delete entries forget a field each: `list_del_front` the `prev` of the new first entry, `list_del_back` the `next`
of the new last one, and `list_del_entry` the size. A run keeps its list consistent as long as `list_del_front` and `list_del_back`
are only used on a list of at most one entry, and `list_del_entry` is not used (`list_consistent_of_keepsLinks`).
-/

namespace Kos

/-- A call on a list; `e` is the address that `kmalloc` returns for a new entry. -/
inductive ListCall where
  | addFront (e data : Nat)
  | addBack (e data : Nat)
  | addAfter (entry e data : Nat)
  | delFront
  | delBack
  | delEntry (entry : Nat)
  deriving DecidableEq, Repr

namespace ListCall

/-- The data that is returned, for a call that deletes an entry, and the list. -/
def exec (list : KernelList) : ListCall → Option (Option Nat × KernelList)
  | addFront e data => some (none, listAddFront list e data)
  | addBack e data => some (none, listAddBack list e data)
  | addAfter entry e data => some (none, listAddAfter list entry e data)
  | delFront => some (some (listDelFront list).1, (listDelFront list).2)
  | delBack => (listDelBack list).map fun (data, list) => (some data, list)
  | delEntry entry => some (some (listDelEntry list entry).1, (listDelEntry list entry).2)

/-- The call on a sequence of entries, each with its data. -/
def onSeq (l : List (Nat × Nat)) : ListCall → Option Nat × List (Nat × Nat)
  | addFront e data => (none, (e, data) :: l)
  | addBack e data => (none, l ++ [(e, data)])
  | addAfter entry e data => (none, l.flatMap fun x => if x.1 = entry then [x, (e, data)] else [x])
  | delFront => (some (l.head?.elim 0 Prod.snd), l.tail)
  | delBack => (some (l.getLast?.elim 0 Prod.snd), l.dropLast)
  | delEntry entry => (some ((l.find? (·.1 = entry)).elim 0 Prod.snd), l.filter (·.1 ≠ entry))

/-- A new entry is at an address that is not one of the list's, and an entry that is named is one of the list's. -/
def Legal (l : List (Nat × Nat)) : ListCall → Prop
  | addFront e _ | addBack e _ => e ∉ l.map Prod.fst
  | addAfter entry e _ => entry ∈ l.map Prod.fst ∧ e ∉ l.map Prod.fst
  | delFront | delBack => True
  | delEntry entry => entry ∈ l.map Prod.fst

instance (l : List (Nat × Nat)) : (c : ListCall) → Decidable (c.Legal l)
  | addFront _ _ | addBack _ _ => inferInstanceAs (Decidable (_ ∉ _))
  | addAfter _ _ _ => inferInstanceAs (Decidable (_ ∧ _))
  | delFront | delBack => inferInstanceAs (Decidable True)
  | delEntry _ => inferInstanceAs (Decidable (_ ∈ _))

end ListCall

/-- A list, and the sequence that it should be. -/
structure ListRun where
  list : KernelList
  seq : List (Nat × Nat)

def listStep (r : ListRun) (c : ListCall) : Option ListRun :=
  if c.Legal r.seq then (c.exec r.list).map (⟨·.2, (c.onSeq r.seq).2⟩) else none

/-- The call sets every field that it has to set: an end is deleted only of a list of at most one entry, and no entry in the middle. -/
def KeepsLinks (r : ListRun) : ListCall → Prop
  | .delFront | .delBack => r.list.size ≤ 1
  | .delEntry _ => False
  | _ => True

namespace ListRunAux

/-- Adding after an entry that occurs once. -/
theorem flatMap_addAfter {l₁ l₂ : List (Nat × Nat)} {x : Nat × Nat} (hnd : ((l₁ ++ x :: l₂).map Prod.fst).Nodup) (y : Nat × Nat) :
    (l₁ ++ x :: l₂).flatMap (fun z => if z.1 = x.1 then [z, y] else [z]) = l₁ ++ x :: y :: l₂ := by
  have hother : ∀ l : List (Nat × Nat), x.1 ∉ l.map Prod.fst → l.flatMap (fun z => if z.1 = x.1 then [z, y] else [z]) = l := by
    intro l hl
    induction l with
    | nil => rfl
    | cons z l ih =>
      obtain ⟨hz, hl⟩ := not_or.mp (mt List.mem_cons.mpr hl)
      rw [List.flatMap_cons, if_neg (Ne.symm hz), ih hl]
      rfl
  rw [List.map_append, List.map_cons] at hnd
  obtain ⟨hx₁, hx₂⟩ : x.1 ∉ l₁.map Prod.fst ∧ x.1 ∉ l₂.map Prod.fst := by
    simpa only [List.mem_append, not_or] using (List.nodup_cons.mp (List.nodup_middle.mp hnd)).1
  rw [List.flatMap_append, List.flatMap_cons, if_pos rfl, hother l₁ hx₁, hother l₂ hx₂]
  rfl

/-- The entry that is found by its address. -/
theorem find?_of_mem {l : List (Nat × Nat)} {x : Nat × Nat} (hnd : (l.map Prod.fst).Nodup) (hx : x ∈ l) :
    l.find? (·.1 = x.1) = some x := by
  cases hfind : l.find? (·.1 = x.1) with
  | none =>
    have := List.find?_eq_none.mp hfind x hx
    simp at this
  | some y =>
    have hy : y.1 = x.1 := by simpa using List.find?_some hfind
    rw [List.inj_on_of_nodup_map hnd (List.mem_of_find?_eq_some hfind) hx hy]

variable {list : KernelList} {l : List (Nat × Nat)}

/-- An entry of a consistent list is counted. -/
theorem one_lt_size {x y : Nat × Nat} (h : Consistent list (x :: y :: l)) : ¬list.size ≤ 1 := by
  rw [h.size, List.length_cons, List.length_cons]
  omega

theorem delFront_ok (h : Consistent list l) :
    (listDelFront list).1 = l.head?.elim 0 Prod.snd ∧ (Consistent (listDelFront list).2 l.tail ↔ list.size ≤ 1) := by
  match l, h with
  | [], h =>
    have hfront : list.front = none := h.forward
    have hsize : list.size = 0 := h.size
    simp only [listDelFront, hfront]
    exact ⟨rfl, fun _ => by omega, fun _ => h⟩
  | [x], h =>
    refine ⟨by rw [listDelFront_eq h]; rfl, fun _ => ?_, fun _ => listDelFront_only h⟩
    rw [h.size]
    exact Int.le_refl 1
  | x :: y :: l, h =>
    refine ⟨by rw [listDelFront_eq h]; rfl, fun h' => absurd h' (listDelFront_stale h), fun hle => absurd hle (one_lt_size h)⟩

theorem delBack_ok (h : Consistent list l) :
    ∃ list', listDelBack list = some (l.getLast?.elim 0 Prod.snd, list') ∧ (Consistent list' l.dropLast ↔ list.size ≤ 1) := by
  rcases List.eq_nil_or_concat' l with rfl | ⟨l', x, rfl⟩
  · have hfront : list.front = none := h.forward
    have hsize : list.size = 0 := h.size
    refine ⟨list, ?_, fun _ => by omega, fun _ => h⟩
    simp [listDelBack, listEmpty, hfront]
  · have hback : list.back = some x.1 := by simpa using h.backward.head_eq
    have hfront : list.front ≠ none := by
      rw [h.forward.head_eq]
      simp
    obtain ⟨hdata, hiff⟩ := delFront_ok h.mirror
    rw [List.reverse_concat, List.tail_cons] at hiff
    refine ⟨(listDelFront list.mirror).2.mirror, ?_, ?_⟩
    · rw [ListAux.mirror_listDelBack hback hfront, hdata]
      simp
    · rw [List.dropLast_concat, ← consistent_mirror_iff]
      exact hiff

/-- What a legal call does to a consistent list. -/
theorem exec_ok (h : Consistent list l) (c : ListCall) (hc : c.Legal l) :
    ∃ list', c.exec list = some ((c.onSeq l).1, list') ∧
      (Consistent list' (c.onSeq l).2 ↔ KeepsLinks ⟨list, l⟩ c) := by
  cases c with
  | addFront e d => exact ⟨_, rfl, fun _ => trivial, fun _ => listAddFront_consistent d h hc⟩
  | addBack e d => exact ⟨_, rfl, fun _ => trivial, fun _ => listAddBack_consistent d h hc⟩
  | addAfter entry e d =>
    obtain ⟨hentry, he⟩ := hc
    obtain ⟨x, hx, rfl⟩ := List.mem_map.mp hentry
    obtain ⟨l₁, l₂, rfl⟩ := List.append_of_mem hx
    refine ⟨_, rfl, fun _ => trivial, fun _ => ?_⟩
    simp only [ListCall.onSeq]
    rw [flatMap_addAfter h.nodup]
    exact listAddAfter_consistent d h he
  | delFront =>
    obtain ⟨hdata, hiff⟩ := delFront_ok h
    exact ⟨_, congrArg (fun d => some (some d, (listDelFront list).2)) hdata, hiff⟩
  | delBack =>
    obtain ⟨list', hdel, hiff⟩ := delBack_ok h
    refine ⟨list', ?_, hiff⟩
    simp only [ListCall.exec, ListCall.onSeq, hdel, Option.map_some]
  | delEntry entry =>
    obtain ⟨x, hx, rfl⟩ := List.mem_map.mp hc
    refine ⟨(listDelEntry list x.1).2, ?_, fun h' => ?_, False.elim⟩
    · simp only [ListCall.exec, ListCall.onSeq, listDelEntry_data, find?_of_mem h.nodup hx, h.data x hx, Option.elim_some]
    · -- the entry is gone, and still counted
      have hlen : (l.filter (·.1 ≠ x.1)).length < l.length := List.length_filter_lt_length_iff_exists.mpr ⟨x, hx, by simp⟩
      have hsize := h'.size
      rw [listDelEntry_size, h.size] at hsize
      exact absurd (Int.ofNat_inj.mp hsize) (Nat.ne_of_gt hlen)

end ListRunAux

open ListRunAux

/-- In every state reached from a new list by calls that all set the fields they have to set, the list is consistent; there every
further legal call returns what it should, and leaves the list consistent, with the effect of the call on the sequence, if and only if
it sets the fields that it has to set. -/
theorem list_consistent_of_keepsLinks (entries : Nat → ListEntry) (r : ListRun)
    (h : Reach listStep KeepsLinks ⟨listCreate entries, []⟩ r) :
    Consistent r.list r.seq ∧ ∀ c : ListCall, c.Legal r.seq →
      ∃ list', c.exec r.list = some ((c.onSeq r.seq).1, list') ∧ (Consistent list' (c.onSeq r.seq).2 ↔ KeepsLinks r c) := by
  have hinv : Consistent r.list r.seq := by
    refine h.inv (fun r => Consistent r.list r.seq) (listCreate_consistent entries) ?_
    intro r c r' hr hc hstep
    unfold listStep at hstep
    split at hstep
    · rename_i hlegal
      obtain ⟨list', hexec, hiff⟩ := exec_ok hr c hlegal
      rw [hexec] at hstep
      cases hstep
      exact hiff.mpr hc
    · cases hstep
  exact ⟨hinv, fun c hc => exec_ok hinv c hc⟩

/-- Memory for entries, with no entry in it. -/
def noEntries (_ : Nat) : ListEntry := ⟨0, none, none⟩

/-- A list of two entries, at the addresses 16 and 32. -/
def twoEntries : KernelList := listAddBack (listAddBack (listCreate noEntries) 16 1) 32 2

/-- Two entries are added to a list. -/
theorem list_two_consistent : Consistent twoEntries [(16, 1), (32, 2)] :=
  (list_consistent_of_keepsLinks noEntries ⟨twoEntries, [(16, 1), (32, 2)]⟩
    (.step (.addBack 32 2) (.step (.addBack 16 1) .init trivial rfl) trivial rfl)).1

/-- Of two entries the first is deleted: walking back from the second one leads to the entry that was freed. Or one is deleted by
`list_del_entry`: the list has one entry, and the size 2. -/
theorem list_delete_inconsistent :
    ((listDelFront twoEntries).2.back = some 32 ∧ (listDelFront twoEntries).2.prev 32 = some 16 ∧
      ¬Consistent (listDelFront twoEntries).2 [(32, 2)]) ∧
    ((listDelEntry twoEntries 16).2.front = some 32 ∧ (listDelEntry twoEntries 16).2.next 32 = none ∧
      (listDelEntry twoEntries 16).2.size = 2) := by
  refine ⟨⟨by decide +kernel, by decide +kernel, ?_⟩, by decide +kernel, by decide +kernel, by decide +kernel⟩
  intro h
  have hstale : (listDelFront twoEntries).2.prev 32 = some 16 := by decide +kernel
  cases hstale.symm.trans h.prev_first

end Kos
