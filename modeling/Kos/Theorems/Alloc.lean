import Kos.Lib.Run
import Kos.Lemmas.Alloc

/-!
# Allocations that are held at the same time

A run of the page allocator is a sequence of allocations mixed with frees of what is held. `mmAllocPage` and
`mmAllocPhysRange` only ever hand out free pages. `mmAllocRange` does so exactly when its search does not glue two runs of free
pages that are not neighbours (`grantsFree_iff`); in the runs in which no search does, allocations that are held at the
same time have no page in common (`held_disjoint_of_unglued`).
-/

namespace Kos

/-- A call of the page allocator. -/
inductive MmCall where
  | allocPage
  | allocRange (num : UInt32)
  | allocPhysRange (start num : UInt32)
  | freePage (page : UInt32)
  | freeRange (start num : UInt32)
  | freePhysRange (start num : UInt32)
  deriving DecidableEq, Repr

/-- A range of pages: its start address and its number of pages. -/
abbrev PageRange := Nat × Nat

/-- The state of the allocator after a call. -/
def MmCall.exec (s : Mm) : MmCall → Mm
  | .allocPage => (mmAllocPage s).2
  | .allocRange num => (mmAllocRange s num.toNat).2
  | .allocPhysRange start num => (mmAllocPhysRange s start.toNat num.toNat).2
  | .freePage page => mmFreePage s page.toNat
  | .freeRange start num => mmFreeRange s start.toNat num.toNat
  | .freePhysRange start num => mmFreePhysRange s start.toNat num.toNat

/-- The range a successful allocation returns. -/
def MmCall.granted (s : Mm) : MmCall → Option PageRange
  | .allocPage => if (mmAllocPage s).1 = noPage then none else some ((mmAllocPage s).1, 1)
  | .allocRange num => if (mmAllocRange s num.toNat).1 = noPage then none else some ((mmAllocRange s num.toNat).1, num.toNat)
  | .allocPhysRange start num => if (mmAllocPhysRange s start.toNat num.toNat).1 then some (start.toNat, num.toNat) else none
  | _ => none

/-- The range a free gives back. -/
def MmCall.givesBack : MmCall → Option PageRange
  | .freePage page => some (page.toNat, 1)
  | .freeRange start num => some (start.toNat, num.toNat)
  | .freePhysRange start num => some (start.toNat, num.toNat)
  | _ => none

/-- The allocator and the ranges that its callers hold. -/
structure MmRun where
  mm : Mm
  held : List PageRange

/-- One call: an allocation, or a free of a range that is held. -/
def mmStep (s : MmRun) (c : MmCall) : Option MmRun :=
  match c.givesBack with
  | some r => if r ∈ s.held then some ⟨c.exec s.mm, s.held.erase r⟩ else none
  | none => some ⟨c.exec s.mm, (c.granted s.mm).toList ++ s.held⟩

/-- No page belongs to both ranges. -/
def PagesDisjoint (r r' : PageRange) : Prop := ∀ a, ¬(InRange r.1 r.2 a ∧ InRange r'.1 r'.2 a)

/-- A search for several pages does not glue. -/
def Unglued (s : MmRun) (c : MmCall) : Prop :=
  ∀ num, c = .allocRange num → ¬Glues s.mm.mmap num.toNat dmaEnd s.mm.memEnd

/-- What holds along a run: the pages held are marked used, the ranges held are disjoint and are ranges of pages. -/
structure HeldInv (s : MmRun) : Prop where
  used : ∀ r ∈ s.held, ∀ a, InRange r.1 r.2 a → isFree s.mm.mmap a = false
  disjoint : s.held.Pairwise PagesDisjoint
  aligned : ∀ r ∈ s.held, r.1 % 4096 = 0 ∧ r.1 < 4294967296 ∧ 0 < r.2

namespace AllocAux

/-! ## What each call does to the map -/

/-- A call that is no free either fails and leaves the map as it was, or grants a range of pages and marks exactly these
used. -/
theorem exec_of_alloc (s : Mm) {c : MmCall} (hg : c.givesBack = none) :
    (c.granted s = none ∧ (c.exec s).mmap = s.mmap) ∨
      ∃ r, c.granted s = some r ∧ r.1 % 4096 = 0 ∧ r.1 < 4294967296 ∧ 0 < r.2 ∧
        ∀ a, isFree (c.exec s).mmap a = (isFree s.mmap a && !decide (InRange r.1 r.2 a)) := by
  cases c with
  | allocPage =>
    rcases mmAllocPage_cases s with h | ⟨page, hf, hp, h⟩
    · exact .inl ⟨by simp [MmCall.granted, h], by simp [MmCall.exec, h, Mm.seterr]⟩
    · obtain ⟨ha, hlt⟩ := find_aligned (Nat.le_refl 1) (by decide) s.memEnd_lt (hf ▸ hp)
      rw [hf] at ha hlt
      refine .inr ⟨(page, 1), by simp [MmCall.granted, h, hp], ha, hlt, Nat.one_pos, fun a => ?_⟩
      simp only [MmCall.exec, h, Mm.markUsed, isFree_markUsed, inRange_one hlt]
  | allocRange num =>
    rcases mmAllocRange_cases s num.toNat with ⟨e, h⟩ | ⟨start, hf, hp, h1, h⟩
    · exact .inl ⟨by simp [MmCall.granted, h], by simp [MmCall.exec, h, Mm.seterr]⟩
    · obtain ⟨ha, hlt⟩ := find_aligned h1 (by decide) s.memEnd_lt (hf ▸ hp)
      rw [hf] at ha hlt
      refine .inr ⟨(start, num.toNat), by simp [MmCall.granted, h, hp], ha, hlt, h1, fun a => ?_⟩
      simp only [MmCall.exec, h, Mm.markRangeUsed, isFree_markRangeUsed]
  | allocPhysRange start num =>
    rcases mmAllocPhysRange_cases s start.toNat num.toNat with ⟨e, h⟩ | ⟨ha, h1, -, h⟩
    · exact .inl ⟨by simp [MmCall.granted, h], by simp [MmCall.exec, h, Mm.seterr]⟩
    · refine .inr ⟨(start.toNat, num.toNat), by simp [MmCall.granted, h], ha, start.toNat_lt, h1, fun a => ?_⟩
      simp only [MmCall.exec, h, Mm.markRangeUsed, isFree_markRangeUsed]
  | freePage page => cases hg
  | freeRange start num => cases hg
  | freePhysRange start num => cases hg

/-- A free of a range of pages marks exactly its range free. -/
theorem exec_of_givesBack (s : Mm) {c : MmCall} {r : PageRange} (h : c.givesBack = some r) (ha : r.1 % 4096 = 0)
    (hlt : r.1 < 4294967296) (h0 : 0 < r.2) (a : Nat) :
    isFree (c.exec s).mmap a = (isFree s.mmap a || decide (InRange r.1 r.2 a)) := by
  have hal : isPageAligned r.1 = true := (isPageAligned_iff r.1).mpr ha
  have hno : r.1 ≠ noPage := by intro h1; rw [h1] at ha; simp at ha
  have h0' : r.2 ≠ 0 := Nat.pos_iff_ne_zero.mp h0
  cases c with
  | freePage page =>
    cases h
    simp only at hal hno hlt
    simp only [MmCall.exec, mmFreePage, hno, hal, if_false, Bool.not_true, Bool.false_eq_true, Mm.markFree, isFree_markFree,
      inRange_one hlt]
  | freeRange start num =>
    cases h
    simp only at hal hno h0'
    simp only [MmCall.exec, mmFreeRange, hno, hal, h0', if_false, Bool.not_true, Bool.false_eq_true, Mm.markRangeFree,
      isFree_markRangeFree]
  | freePhysRange start num =>
    cases h
    simp only at hal h0'
    simp only [MmCall.exec, mmFreePhysRange, hal, h0', if_false, Bool.not_true, Bool.false_eq_true, Mm.markRangeFree,
      isFree_markRangeFree]
  | allocPage => cases h
  | allocRange num => cases h
  | allocPhysRange start num => cases h

/-- The pages a call grants are all free before it. -/
def GrantsFree (s : Mm) (c : MmCall) : Prop :=
  ∀ r, c.granted s = some r → ∀ i < r.2, isFree s.mmap (pageOf r.1 i) = true

/-- A call grants free pages exactly when its search does not glue. -/
theorem grantsFree_iff (s : MmRun) (c : MmCall) : GrantsFree s.mm c ↔ Unglued s c := by
  cases c with
  | allocRange num =>
    constructor
    · rintro h _ ⟨⟩ hg
      have h1 : 1 ≤ num.toNat := by obtain ⟨k, hk, -⟩ := hg; omega
      obtain ⟨hne, i, hi, hused⟩ := find_used_of_glues h1 (by decide) s.mm.memEnd_lt hg
      rcases mmAllocRange_cases s.mm num.toNat with ⟨e, he⟩ | ⟨start, hf, hp, -, he⟩
      · simp [mmAllocRange, Nat.one_le_iff_ne_zero.mp h1, hne] at he
      · have := h (start, num.toNat) (by simp [MmCall.granted, he, hp]) i hi
        rw [← hf, hused] at this
        cases this
    · intro hu r hr
      rcases mmAllocRange_cases s.mm num.toNat with ⟨e, he⟩ | ⟨start, hf, hp, h1, he⟩
      · simp [MmCall.granted, he] at hr
      · simp only [MmCall.granted, he, hp, if_false, Option.some.injEq] at hr
        subst hr hf
        exact find_free_of_not_glues h1 (by decide) s.mm.memEnd_lt (hu num rfl) hp
  | allocPage =>
    refine ⟨fun _ num h => (by cases h), fun _ r hr => ?_⟩
    rcases mmAllocPage_cases s.mm with he | ⟨page, hf, hp, he⟩
    · simp [MmCall.granted, he] at hr
    · simp only [MmCall.granted, he, hp, if_false, Option.some.injEq] at hr
      subst hr hf
      exact find_free_of_not_glues (Nat.le_refl 1) (by decide) s.mm.memEnd_lt not_glues_one hp
  | allocPhysRange start num =>
    refine ⟨fun _ num h => (by cases h), fun _ r hr => ?_⟩
    rcases mmAllocPhysRange_cases s.mm start.toNat num.toNat with ⟨e, he⟩ | ⟨-, -, hfree, he⟩
    · simp [MmCall.granted, he] at hr
    · simp only [MmCall.granted, he, if_true, Option.some.injEq] at hr
      subst hr
      exact hfree
  | freePage page => exact ⟨fun _ num h => (by cases h), fun _ r hr => by cases hr⟩
  | freeRange start num => exact ⟨fun _ num h => (by cases h), fun _ r hr => by cases hr⟩
  | freePhysRange start num => exact ⟨fun _ num h => (by cases h), fun _ r hr => by cases hr⟩

end AllocAux

open AllocAux

/-- One call keeps the invariant when it grants free pages only. -/
theorem HeldInv.step {s s' : MmRun} {c : MmCall} (h : HeldInv s) (hf : GrantsFree s.mm c) (hs : mmStep s c = some s') :
    HeldInv s' := by
  unfold mmStep at hs
  cases hg : c.givesBack with
  | some r =>
    simp only [hg] at hs
    split at hs
    · rename_i hr
      cases hs
      obtain ⟨ha, hlt, h0⟩ := h.aligned r hr
      have hrest : ∀ r' ∈ s.held.erase r, PagesDisjoint r r' := by
        have hsymm : ∀ {x y}, PagesDisjoint x y → PagesDisjoint y x := fun hxy a hxa => hxy a hxa.symm
        have hpw := ((List.perm_cons_erase hr).pairwise_iff hsymm).mp h.disjoint
        exact (List.pairwise_cons.mp hpw).1
      have hsub : ∀ r' ∈ s.held.erase r, r' ∈ s.held := fun r' => List.mem_of_mem_erase
      refine ⟨fun r' hr' a hin => ?_, h.disjoint.sublist List.erase_sublist, fun r' hr' => h.aligned r' (hsub r' hr')⟩
      have hout : ¬InRange r.1 r.2 a := fun hra => hrest r' hr' a ⟨hra, hin⟩
      simp [exec_of_givesBack s.mm hg ha hlt h0, h.used r' (hsub r' hr') a hin, hout]
    · cases hs
  | none =>
    simp only [hg, Option.some.injEq] at hs
    subst hs
    rcases exec_of_alloc s.mm hg with ⟨hr, hm⟩ | ⟨r, hr, ha, hlt, h0, hex⟩
    · simp only [hr, Option.toList_none, List.nil_append]
      exact ⟨by rw [hm]; exact h.used, h.disjoint, h.aligned⟩
    · simp only [hr, Option.toList_some, List.singleton_append]
      have hdis : ∀ r' ∈ s.held, PagesDisjoint r r' := by
        rintro r' hr' a ⟨⟨i, hi, hia⟩, hin⟩
        have := hf r hr i hi
        rw [isFree_congr _ hia, h.used r' hr' a hin] at this
        cases this
      refine ⟨List.forall_mem_cons.mpr ⟨fun a hin => ?_, fun r' hr' a hin => ?_⟩,
        List.pairwise_cons.mpr ⟨hdis, h.disjoint⟩, List.forall_mem_cons.mpr ⟨⟨ha, hlt, h0⟩, h.aligned⟩⟩
      · simp [hex, hin]
      · simp [hex, h.used r' hr' a hin]

/-- In every state that a run reaches in which no search glues, the ranges held have no page in common; and there the next call
grants pages that are all free before it exactly when its search does not glue. -/
theorem held_disjoint_of_unglued (mm : Mm) (s : MmRun) (h : Reach mmStep Unglued ⟨mm, []⟩ s) :
    s.held.Pairwise PagesDisjoint ∧
      ∀ c, (∀ r, c.granted s.mm = some r → ∀ i < r.2, isFree s.mm.mmap (pageOf r.1 i) = true) ↔ Unglued s c := by
  have hinv : HeldInv s := by
    refine h.inv HeldInv ⟨by simp, List.Pairwise.nil, by simp⟩ ?_
    intro s a s' hi hp hs
    exact hi.step ((grantsFree_iff s a).mpr hp) hs
  exact ⟨hinv.disjoint, grantsFree_iff s⟩

/-- Three free pages: 191 and 192, which are neighbours, and 224. -/
def threePages (memEnd : UInt32) : Mm where
  mmap i := if i = 5 then 0x80000000#32 else if i = 6 ∨ i = 7 then 1#32 else 0#32
  memEnd := memEnd.toNat
  lastError := .ok
  memEnd_lt := memEnd.toNat_lt

/-- With the memory ending after page 223, on a word boundary, two pages are found where they are. -/
theorem held_disjoint_boundary :
    ∃ s, mmStep ⟨threePages 917504, []⟩ (.allocRange 2) = some s ∧ s.held = [(191 * 4096, 2)] ∧ s.held.Pairwise PagesDisjoint := by
  refine ⟨_, rfl, by decide +kernel, ?_⟩
  refine (held_disjoint_of_unglued (threePages 917504) _ (.step (.allocRange 2) .init ?_ rfl)).1
  intro num _
  exact not_glues_of_boundary (by decide)

/-- With the memory ending after page 224, `mm_alloc_range(2)` takes page 191 and page 224 for neighbours: it returns pages 191
and 192 although page 192 has just been allocated. -/
theorem held_overlap_of_glued :
    ∃ s, [MmCall.allocPhysRange (192 * 4096) 1, .allocRange 2].foldlM mmStep ⟨threePages 921600, []⟩ = some s ∧
      s.held = [(191 * 4096, 2), (192 * 4096, 1)] ∧ ¬s.held.Pairwise PagesDisjoint := by
  refine ⟨_, rfl, by decide +kernel, ?_⟩
  intro h
  have hheld : ∀ l, l = [(191 * 4096, 2), (192 * 4096, 1)] → ¬l.Pairwise PagesDisjoint := by
    rintro _ rfl h
    exact (List.pairwise_cons.mp h).1 (192 * 4096, 1) (by simp) (192 * 4096) (by decide)
  exact hheld _ (by decide +kernel) h

end Kos
