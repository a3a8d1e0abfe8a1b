import Kos.Lemmas.PageMap

/-!
# Testing whether a range is mapped

`vm_is_mapped` steps from the first byte of the range by the size of a page, and asks of each entry for any one of the flags. The
last page of the range is left out when it lies behind the last step, an entry with some of the flags passes for one with all of them,
no entry has any of no flags, and at the top of the address space the next step begins again at page 0. What the loop
answers is said once, in `isMappedFrom_stops`; `vmIsMapped_iff` says when that is right.
-/

namespace Kos

/-- The byte lies in a present page whose entry has all of the flags. -/
def HasFlags (s : Vm) (pdir : Nat) (flags : Entry) (v : Nat) : Prop :=
  present (getPtabEntry s pdir v) = true ∧ getPtabEntry s pdir v &&& flags = flags

/-- The entry of the byte's page passes the test of the loop. -/
def HasAnyFlag (s : Vm) (pdir : Nat) (flags : Entry) (v : Nat) : Prop :=
  getPtabEntry s pdir v ≠ 0#32 ∧ bisset (getPtabEntry s pdir v) flags = true

instance (s : Vm) (pdir : Nat) (flags : Entry) (v : Nat) : Decidable (HasFlags s pdir flags v) := inferInstanceAs (Decidable (_ ∧ _))

instance (s : Vm) (pdir : Nat) (flags : Entry) (v : Nat) : Decidable (HasAnyFlag s pdir flags v) :=
  inferInstanceAs (Decidable (_ ∧ _))

/-- Every byte of the range lies in a present page with all of the flags. -/
def RangeHasFlags (s : Vm) (pdir vaddr size : Nat) (flags : Entry) : Prop := ∀ i < size, HasFlags s pdir flags (vaddr + i)

/-- `vm_is_mapped` returns, and it returns 1 exactly when every byte of the range is mapped with the flags. -/
def AnswersRight (s : Vm) (pdir vaddr size : Nat) (flags : Entry) : Prop :=
  ∃ rounds answer, vmIsMapped s pdir vaddr size flags rounds = some answer ∧ (answer = true ↔ RangeHasFlags s pdir vaddr size flags)

/-- The number of steps of a page that begin inside the range. -/
def visited (size : Nat) : Nat := (size + 4095) / 4096

/-- The kinds of ranges about which the loop is wrong. -/
inductive Misjudged (s : Vm) (pdir vaddr size : Nat) (flags : Entry) : Prop where
  /-- All pages are present, and no flags are asked for. -/
  | noFlags (hsize : 0 < size) (hflags : flags = 0#32) (hall : RangeHasFlags s pdir vaddr size flags)
  /-- Each page that is tested has some of the flags, and one does not have all of them. -/
  | someFlags (hend : vaddr + visited size * 4096 < 4294967296) (hpass : ∀ i < visited size, HasAnyFlag s pdir flags (vaddr + i * 4096))
      (hpage : ∃ i < visited size, ¬HasFlags s pdir flags (vaddr + i * 4096))
  /-- The last byte lies in a page that is not tested. -/
  | lastPage (hsize : 0 < size) (hend : vaddr + visited size * 4096 < 4294967296)
      (hpass : ∀ i < visited size, HasAnyFlag s pdir flags (vaddr + i * 4096)) (hlast : 4096 ≤ vaddr % 4096 + (size - 1) % 4096)
      (hpage : ¬HasFlags s pdir flags (vaddr + size - 1))
  /-- The range reaches into the last page of the address space, from where the loop goes on at the first one. -/
  | wraps (hend : 4294967296 ≤ vaddr + visited size * 4096)
      (hall : RangeHasFlags s pdir vaddr size flags ∨ ∀ page < 1048576, HasAnyFlag s pdir flags (4096 * page))

namespace IsMappedAux

variable {s : Vm} {pdir vaddr size : Nat} {flags : Entry}

/-! ## The test of one entry -/

theorem hasFlags_congr {v v' : Nat} (h : v / 4096 = v' / 4096) : HasFlags s pdir flags v ↔ HasFlags s pdir flags v' := by
  simp only [HasFlags, PageMapAux.getPtabEntry_eq, h]

theorem hasAnyFlag_congr {v v' : Nat} (h : v / 4096 = v' / 4096) : HasAnyFlag s pdir flags v ↔ HasAnyFlag s pdir flags v' := by
  simp only [HasAnyFlag, PageMapAux.getPtabEntry_eq, h]

/-- A page with all of the flags passes the test, unless there are none. -/
theorem any_of_hasFlags {v : Nat} (h : HasFlags s pdir flags v) (hflags : flags ≠ 0#32) : HasAnyFlag s pdir flags v := by
  refine ⟨fun h0 => ?_, ?_⟩
  · have hp := h.1
    rw [h0] at hp
    exact absurd hp (by decide)
  · rw [bisset, h.2]
    exact bne_iff_ne.mpr hflags

theorem flags_ne_zero {v : Nat} (h : HasAnyFlag s pdir flags v) : flags ≠ 0#32 := by
  rintro rfl
  have hb := h.2
  rw [bisset, BitVec.and_zero] at hb
  exact absurd hb (by decide)

/-! ## The loop -/

/-- The loop goes on after the step from `cur` that has this number. -/
def GoesOn (s : Vm) (pdir stop : Nat) (flags : Entry) (cur i : Nat) : Prop :=
  pageOf cur i < stop ∧ HasAnyFlag s pdir flags (pageOf cur i)

/-- The loop ends at this step with the answer. -/
def Stops (s : Vm) (pdir stop : Nat) (flags : Entry) (cur i : Nat) (answer : Bool) : Prop :=
  if answer then stop ≤ pageOf cur i else pageOf cur i < stop ∧ ¬HasAnyFlag s pdir flags (pageOf cur i)

theorem isMappedFrom_succ (s : Vm) (pdir stop : Nat) (flags : Entry) (rounds cur : Nat) :
    isMappedFrom s pdir stop flags (rounds + 1) cur =
      if cur < stop then
        if HasAnyFlag s pdir flags cur then isMappedFrom s pdir stop flags rounds (w32 (cur + pageSize)) else some false
      else some true := by
  have htest : (getPtabEntry s pdir cur == 0#32 || bnotset (getPtabEntry s pdir cur) flags) = true ↔ ¬HasAnyFlag s pdir flags cur := by
    simp only [HasAnyFlag, bnotset_eq, Bool.or_eq_true, beq_iff_eq, Bool.not_eq_true', not_and_or, not_not, Bool.not_eq_true]
  simp only [isMappedFrom, htest, ite_not]

theorem pageOf_zero {cur : Nat} (h : cur < 4294967296) : pageOf cur 0 = cur := by
  rw [pageOf, Nat.zero_mul, Nat.add_zero, w32_of_lt h]

theorem pageOf_next (cur i : Nat) : pageOf (w32 (cur + pageSize)) i = pageOf cur (i + 1) := by
  rw [pageOf, pageOf, w32_add_left]
  congr 1
  ring

/-- The loop ends at the first step at which it does not go on. -/
theorem isMappedFrom_stops {stop n : Nat} {answer : Bool} (rounds cur : Nat) (hcur : cur < 4294967296)
    (hgo : ∀ i < n, GoesOn s pdir stop flags cur i) (hstop : Stops s pdir stop flags cur n answer) :
    isMappedFrom s pdir stop flags rounds cur = if n < rounds then some answer else none := by
  induction rounds generalizing cur n with
  | zero => rfl
  | succ rounds ih =>
    rw [isMappedFrom_succ]
    cases n with
    | zero =>
      rw [Stops, pageOf_zero hcur] at hstop
      rw [if_pos (Nat.succ_pos rounds)]
      cases answer with
      | false =>
        obtain ⟨hlt, hno⟩ := hstop
        rw [if_pos hlt, if_neg hno]
      | true => exact if_neg (Nat.not_lt.mpr hstop)
    | succ n =>
      have hfirst := hgo 0 (Nat.succ_pos n)
      rw [GoesOn, pageOf_zero hcur] at hfirst
      rw [if_pos hfirst.1, if_pos hfirst.2, ih (n := n) _ (w32_lt _)]
      · simp only [Nat.add_lt_add_iff_right]
      · intro i hi
        rw [GoesOn, pageOf_next]
        exact hgo (i + 1) (by omega)
      · rw [Stops, pageOf_next]
        exact hstop

/-- The loop does not end if it goes on at each step. -/
theorem isMappedFrom_none {stop : Nat} (rounds cur : Nat) (hcur : cur < 4294967296) (hgo : ∀ i, GoesOn s pdir stop flags cur i) :
    isMappedFrom s pdir stop flags rounds cur = none := by
  induction rounds generalizing cur with
  | zero => rfl
  | succ rounds ih =>
    have hfirst := hgo 0
    rw [GoesOn, pageOf_zero hcur] at hfirst
    rw [isMappedFrom_succ, if_pos hfirst.1, if_pos hfirst.2]
    refine ih _ (w32_lt _) fun i => ?_
    rw [GoesOn, pageOf_next]
    exact hgo (i + 1)

/-! ## The answer -/

section

variable (hlt : vaddr + size < 4294967296)

include hlt in
theorem vmIsMapped_eq (rounds : Nat) :
    vmIsMapped s pdir vaddr size flags rounds = isMappedFrom s pdir (vaddr + size) flags rounds vaddr := by
  rw [vmIsMapped, w32_of_lt hlt, if_neg (by omega)]

include hlt in
theorem answersRight_iff {n : Nat} {answer : Bool} (hgo : ∀ i < n, GoesOn s pdir (vaddr + size) flags vaddr i)
    (hstop : Stops s pdir (vaddr + size) flags vaddr n answer) :
    AnswersRight s pdir vaddr size flags ↔ (answer = true ↔ RangeHasFlags s pdir vaddr size flags) := by
  have hloop : ∀ rounds, vmIsMapped s pdir vaddr size flags rounds = if n < rounds then some answer else none := fun rounds => by
    rw [vmIsMapped_eq hlt, isMappedFrom_stops rounds vaddr (by omega) hgo hstop]
  constructor
  · rintro ⟨rounds, answer', hanswer, hright⟩
    rw [hloop] at hanswer
    split at hanswer
    · rwa [Option.some.inj hanswer]
    · cases hanswer
  · intro hright
    exact ⟨n + 1, answer, by rw [hloop, if_pos (Nat.lt_succ_self n)], hright⟩

include hlt in
/-- If one of the steps before the end of the range fails, the answer is 0. -/
theorem answersRight_of_fails {i : Nat} (hin : ∀ j ≤ i, pageOf vaddr j < vaddr + size)
    (hno : ¬HasAnyFlag s pdir flags (pageOf vaddr i)) :
    AnswersRight s pdir vaddr size flags ↔ ¬RangeHasFlags s pdir vaddr size flags := by
  classical
  have hex : ∃ n, ¬HasAnyFlag s pdir flags (pageOf vaddr n) := ⟨i, hno⟩
  have hle : Nat.find hex ≤ i := Nat.find_min' hex hno
  have hgo : ∀ j < Nat.find hex, GoesOn s pdir (vaddr + size) flags vaddr j := fun j hj =>
    ⟨hin j (by omega), not_not.mp (Nat.find_min hex hj)⟩
  have hstop : Stops s pdir (vaddr + size) flags vaddr (Nat.find hex) false := ⟨hin _ hle, Nat.find_spec hex⟩
  rw [answersRight_iff hlt hgo hstop]
  simp only [Bool.false_eq_true, false_iff]

include hlt in
theorem pageOf_visited {i : Nat} (hi : i < visited size) : pageOf vaddr i = vaddr + i * 4096 ∧ i * 4096 < size := by
  have hin : i * 4096 < size := by
    simp only [visited] at hi
    omega
  refine ⟨w32_of_lt ?_, hin⟩
  simp only [pageSize]
  omega

/-- A page that fails the test shows that the range does not have the flags, unless there are none. -/
theorem not_rangeHasFlags {i : Nat} (hi : i < size) (hno : ¬HasAnyFlag s pdir flags (vaddr + i)) (hflags : flags ≠ 0#32) :
    ¬RangeHasFlags s pdir vaddr size flags :=
  fun hall => hno (any_of_hasFlags (hall i hi) hflags)

/-- If all pages that are tested have all of the flags, and so does the last one, then every byte of the range does. -/
theorem rangeHasFlags_of_pages (hpages : ∀ i < visited size, HasFlags s pdir flags (vaddr + i * 4096))
    (hlast : 4096 ≤ vaddr % 4096 + (size - 1) % 4096 → HasFlags s pdir flags (vaddr + size - 1)) :
    RangeHasFlags s pdir vaddr size flags := by
  intro i hi
  have hvis : i / 4096 < visited size := by
    simp only [visited]
    omega
  by_cases hsame : vaddr % 4096 + i % 4096 < 4096
  · exact (hasFlags_congr (by omega)).mp (hpages (i / 4096) hvis)
  -- the byte lies in the page behind that of the step before it
  · by_cases hnext : i / 4096 + 1 < visited size
    · exact (hasFlags_congr (by omega)).mp (hpages (i / 4096 + 1) hnext)
    · simp only [visited] at hnext
      exact (hasFlags_congr (by omega)).mp (hlast (by omega))

section Inside

variable (hend : vaddr + visited size * 4096 < 4294967296)

include hlt hend in
/-- If all steps pass, the answer is 1. -/
theorem answersRight_of_passes (hpass : ∀ i < visited size, HasAnyFlag s pdir flags (vaddr + i * 4096)) :
    AnswersRight s pdir vaddr size flags ↔ RangeHasFlags s pdir vaddr size flags := by
  have hgo : ∀ i < visited size, GoesOn s pdir (vaddr + size) flags vaddr i := by
    intro i hi
    obtain ⟨hpage, hin⟩ := pageOf_visited hlt hi
    have hbefore : vaddr + i * 4096 < vaddr + size := Nat.add_lt_add_left hin vaddr
    rw [GoesOn, hpage]
    exact ⟨hbefore, hpass i hi⟩
  have hstop : Stops s pdir (vaddr + size) flags vaddr (visited size) true := by
    have hlast : pageOf vaddr (visited size) = vaddr + visited size * 4096 := by
      simp only [pageOf, pageSize]
      exact w32_of_lt hend
    have hsize : size ≤ visited size * 4096 := by
      simp only [visited]
      omega
    simp only [Stops, hlast, if_true]
    omega
  rw [answersRight_iff hlt hgo hstop]
  exact ⟨fun hright => hright.mp rfl, fun hall => iff_of_true rfl hall⟩

include hlt hend in
/-- Then the range is misjudged if a page has not all of the flags, which may be the last one. -/
theorem rangeHasFlags_iff_of_passes (hpass : ∀ i < visited size, HasAnyFlag s pdir flags (vaddr + i * 4096)) :
    RangeHasFlags s pdir vaddr size flags ↔ ¬Misjudged s pdir vaddr size flags := by
  constructor
  · rintro hall (⟨hsize, hflags, -⟩ | ⟨-, -, i, hi, hno⟩ | ⟨hsize, -, -, -, hno⟩ | ⟨htop, -⟩)
    · exact flags_ne_zero (hpass 0 (by simp only [visited]; omega)) hflags
    · exact hno (hall _ (pageOf_visited hlt hi).2)
    · have hbyte := hall (size - 1) (by omega)
      rw [show vaddr + (size - 1) = vaddr + size - 1 by omega] at hbyte
      exact hno hbyte
    · omega
  · intro hnot
    refine rangeHasFlags_of_pages (fun i hi => ?_) fun hlast => ?_
    · by_contra hno
      exact hnot (.someFlags hend hpass ⟨i, hi, hno⟩)
    · by_contra hno
      have hsize : 0 < size := by
        by_contra h0
        obtain rfl : size = 0 := by omega
        omega
      exact hnot (.lastPage hsize hend hpass hlast hno)

include hlt hend in
/-- If a step fails, the answer is 0, and only a range without flags is misjudged. -/
theorem inside_iff_of_fails {i : Nat} (hi : i < visited size) (hno : ¬HasAnyFlag s pdir flags (vaddr + i * 4096)) :
    AnswersRight s pdir vaddr size flags ↔ ¬Misjudged s pdir vaddr size flags := by
  obtain ⟨hpage, hin⟩ := pageOf_visited hlt hi
  have hsteps : ∀ j ≤ i, pageOf vaddr j < vaddr + size := by
    intro j hj
    obtain ⟨hj, hjin⟩ := pageOf_visited hlt (show j < visited size by omega)
    omega
  rw [answersRight_of_fails hlt hsteps (by rwa [hpage])]
  refine not_congr ⟨fun hall => ?_, ?_⟩
  · by_cases hflags : flags = 0#32
    · exact .noFlags (by omega) hflags hall
    · exact absurd hall (not_rangeHasFlags hin hno hflags)
  · rintro (⟨-, -, hall⟩ | ⟨-, hpass, -⟩ | ⟨-, -, hpass, -, -⟩ | ⟨htop, -⟩)
    · exact hall
    · exact absurd (hpass i hi) hno
    · exact absurd (hpass i hi) hno
    · omega

include hlt hend in
/-- When the steps end behind the range. -/
theorem inside_iff : AnswersRight s pdir vaddr size flags ↔ ¬Misjudged s pdir vaddr size flags := by
  by_cases hpass : ∀ i < visited size, HasAnyFlag s pdir flags (vaddr + i * 4096)
  · rw [answersRight_of_passes hlt hend hpass]
    exact rangeHasFlags_iff_of_passes hlt hend hpass
  · push Not at hpass
    obtain ⟨i, hi, hno⟩ := hpass
    exact inside_iff_of_fails hlt hend hi hno

end Inside

/-- At the top of the address space every step lies before the end of the range. -/
theorem pageOf_lt_end (hlt : vaddr + size < 4294967296) (htop : 4294967296 ≤ vaddr + visited size * 4096) (i : Nat) :
    pageOf vaddr i < vaddr + size := by
  simp only [pageOf, w32, pageSize, visited] at htop ⊢
  omega

/-- And the steps come to every page. -/
theorem exists_step (page : Nat) (hpage : page < 1048576) (hv : vaddr < 4294967296) : ∃ i, pageOf vaddr i / 4096 = page := by
  refine ⟨page + 1048576 - vaddr / 4096, ?_⟩
  simp only [pageOf, w32, pageSize]
  omega

include hlt in
theorem wraps_iff (htop : 4294967296 ≤ vaddr + visited size * 4096) :
    AnswersRight s pdir vaddr size flags ↔ ¬Misjudged s pdir vaddr size flags := by
  by_cases hpass : ∀ page < 1048576, HasAnyFlag s pdir flags (4096 * page)
  · refine iff_of_false ?_ (not_not.mpr (.wraps htop (.inr hpass)))
    rintro ⟨rounds, answer, hanswer, -⟩
    have hgo : ∀ i, GoesOn s pdir (vaddr + size) flags vaddr i := by
      intro i
      have hin : pageOf vaddr i < 4294967296 := w32_lt _
      refine ⟨pageOf_lt_end hlt htop i, (hasAnyFlag_congr ?_).mp (hpass (pageOf vaddr i / 4096) (by omega))⟩
      omega
    rw [vmIsMapped_eq hlt, isMappedFrom_none rounds vaddr (by omega) hgo] at hanswer
    cases hanswer
  · have hall := hpass
    push Not at hpass
    obtain ⟨page, hpage, hno⟩ := hpass
    have hv : vaddr < 4294967296 := by omega
    obtain ⟨i, hi⟩ := exists_step page hpage hv
    have hfails : ¬HasAnyFlag s pdir flags (pageOf vaddr i) := by
      rwa [hasAnyFlag_congr (show pageOf vaddr i / 4096 = 4096 * page / 4096 by omega)]
    rw [answersRight_of_fails hlt (fun j _ => pageOf_lt_end hlt htop j) hfails]
    refine not_congr ⟨fun h => .wraps htop (.inl h), ?_⟩
    rintro (⟨-, -, h⟩ | ⟨hend, -, -⟩ | ⟨-, hend, -, -, -⟩ | ⟨-, h | h⟩)
    · exact h
    · omega
    · omega
    · exact h
    · exact absurd h hall

end

end IsMappedAux

open IsMappedAux

/-- For every directory, every range that does not wrap around and all flags: `vm_is_mapped` returns, and returns 1 exactly for a range
that is mapped with the flags, if and only if the range is of none of the kinds about which it is wrong. -/
theorem vmIsMapped_iff (s : Vm) (pdir vaddr size : Nat) (flags : Entry) (hlt : vaddr + size < 4294967296) :
    AnswersRight s pdir vaddr size flags ↔ ¬Misjudged s pdir vaddr size flags := by
  rcases Nat.lt_or_ge (vaddr + visited size * 4096) 4294967296 with hend | htop
  · exact inside_iff hlt hend
  · exact wraps_iff hlt htop

/-- A process with one page, at the beginning of its part of the address space. -/
def onePage : Vm where
  mm := { mmap := fun _ => 0#32, memEnd := 0x6000, lastError := .ok, memEnd_lt := by decide }
  tabs frame i :=
    if frame = 0x3000 ∧ i = 256 then mkEntry 0x4000 vmUserFlags
    else if frame = 0x4000 ∧ i = 0 then mkEntry 0x5000 vmUserFlags
    else 0#32
  kernelPdir := 0x1000
  kpdirRev := 0

/-- Eight bytes inside the page are found to be mapped. -/
theorem onePage_inside : vmIsMapped onePage 0x3000 0x40000010 8 pePresent 2 = some true ∧
    AnswersRight onePage 0x3000 0x40000010 8 pePresent := by
  refine ⟨by decide, (vmIsMapped_iff onePage 0x3000 0x40000010 8 pePresent (by decide)).mpr ?_⟩
  rintro (⟨-, hflags, -⟩ | ⟨-, -, i, hi, hno⟩ | ⟨-, -, -, hlast, -⟩ | ⟨hend, -⟩)
  · exact absurd hflags (by decide)
  · obtain rfl : i = 0 := Nat.lt_one_iff.mp hi
    exact hno (by decide)
  · exact absurd hlast (by decide)
  · exact absurd hend (by decide)

/-- So are eight bytes of which the last four lie behind the page. -/
theorem onePage_across : vmIsMapped onePage 0x3000 0x40000FFC 8 pePresent 2 = some true ∧
    present (getPtabEntry onePage 0x3000 0x40001000) = false ∧ ¬AnswersRight onePage 0x3000 0x40000FFC 8 pePresent := by
  have hno : present (getPtabEntry onePage 0x3000 0x40001000) = false := by decide
  have hlast : ¬HasFlags onePage 0x3000 pePresent (0x40000FFC + 8 - 1) := by decide
  have hpass : ∀ i < visited 8, HasAnyFlag onePage 0x3000 pePresent (0x40000FFC + i * 4096) := by decide
  have hmis : Misjudged onePage 0x3000 0x40000FFC 8 pePresent := .lastPage (by decide) (by decide) hpass (by decide) hlast
  exact ⟨by decide, hno, fun hright => (inside_iff (by decide) (by decide)).mp hright hmis⟩

end Kos
