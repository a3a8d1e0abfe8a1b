import Kos.Lemmas.Alloc

/-!
# Finding the first free pages

`find` looks at the pages from `start` to `midEnd`, and then at those of the last word. If these follow each other, it returns the first
run of free pages in the range. If the range begins before the word that lies before the last one, this word is left out: a run
that touches it is overlooked, or takes part in a run of pages that are no neighbours. If the range lies inside one word, `find` goes
on behind its end and then comes back to the pages before its start (`find_firstFit_iff`).
-/

namespace Kos

/-- The first page of the word that `find` looks at last. -/
abbrev lastWord (finish : Nat) : Nat := 32 * addrToIdx finish

/-- The `num` pages from page `b` on are free and lie in the range. -/
def FitsIn (m : Mmap) (num start finish b : Nat) : Prop :=
  start ≤ pageAddr b ∧ pageAddr (b + num) ≤ finish ∧ FreeRun (freePage m) b num

instance (m : Mmap) (num start finish b : Nat) : Decidable (FitsIn m num start finish b) := inferInstanceAs (Decidable (_ ∧ _))

/-- The first fit: the address of the lowest run that fits, and `NO_PAGE` if there is none. -/
def FirstFit (m : Mmap) (num start finish r : Nat) : Prop :=
  (∃ b, FitsIn m num start finish b ∧ (∀ c, FitsIn m num start finish c → b ≤ c) ∧ r = pageAddr b) ∨
    (∀ b, ¬FitsIn m num start finish b) ∧ r = noPage

/-- The word before the last one is skipped, and a run touches it; there is no run before it, and none is carried into the last word. -/
structure Overlooks (m : Mmap) (num start finish : Nat) : Prop where
  gap : midEnd start finish < lastWord finish
  none_below : NoneBelow m num start finish
  not_carried : ∀ k < num, ¬Carries m num start finish k
  run : ∃ b < lastWord finish, FitsIn m num start finish b

/-- The range lies inside one word, no run fits into it, and there is a run in what `find` looks at besides: from the start to the end
of the word, from there to its beginning, or from its beginning to the end of the range. -/
structure Strays (m : Mmap) (num start finish : Nat) : Prop where
  overlap : lastWord finish < midEnd start finish
  none_fits : ∀ b, ¬FitsIn m num start finish b
  run : (∃ b, start / 4096 ≤ b ∧ b + num ≤ midEnd start finish ∧ FreeRun (freePage m) b num) ∨
    (∃ k < num, Carries m num start finish k) ∨
    ∃ b, lastWord finish ≤ b ∧ b + num ≤ finish / 4096 ∧ FreeRun (freePage m) b num

/-- The search is misled by the pages that it skips or looks at besides. -/
def Misled (m : Mmap) (num start finish : Nat) : Prop :=
  Overlooks m num start finish ∨ Glues m num start finish ∨ Strays m num start finish

namespace FirstFitAux

variable {m : Mmap} {num start finish r b : Nat}

/-! ## The pages of the range -/

theorem fitsIn_iff (hs : start % 4096 = 0) (hf : finish % 4096 = 0) :
    FitsIn m num start finish b ↔ start / 4096 ≤ b ∧ b + num ≤ finish / 4096 ∧ FreeRun (freePage m) b num := by
  unfold FitsIn
  refine and_congr ?_ (and_congr_left' ?_)
  · simp only [pageAddr]
    omega
  · simp only [pageAddr]
    omega

theorem finish_eq (finish : Nat) : finish / 4096 = lastWord finish + pageToPos finish := by
  rw [pageToPos_eq]
  simp only [lastWord, addrToIdx, pageSize]
  omega

/-- The pages before the last word end before it, or reach behind the end of the range. -/
theorem midEnd_place (hle : start ≤ finish) :
    midEnd start finish ≤ lastWord finish ∨ lastWord finish < midEnd start finish ∧ finish / 4096 ≤ midEnd start finish := by
  have hs := pageToPos_eq start
  have hf := pageToPos_eq finish
  simp only [midEnd, midStart, lastWord, addrToIdx, pageSize]
  split <;> split <;> omega

theorem not_strays_of_le (h : midEnd start finish ≤ lastWord finish) : ¬Strays m num start finish := by
  intro hstrays
  have := hstrays.overlap
  omega

theorem pageAddr_ne_noPage (b : Nat) : pageAddr b ≠ noPage := by
  simp only [pageAddr, noPage]
  omega

theorem firstFit_pageAddr : FirstFit m num start finish (pageAddr b) ↔
    FitsIn m num start finish b ∧ ∀ c, FitsIn m num start finish c → b ≤ c := by
  constructor
  · rintro (⟨b', hfits, hlow, he⟩ | ⟨-, he⟩)
    · obtain rfl : b = b' := by simpa [pageAddr] using he
      exact ⟨hfits, hlow⟩
    · exact absurd he (pageAddr_ne_noPage b)
  · rintro ⟨hfits, hlow⟩
    exact .inl ⟨b, hfits, hlow, rfl⟩

theorem firstFit_noPage : FirstFit m num start finish noPage ↔ ∀ b, ¬FitsIn m num start finish b := by
  constructor
  · rintro (⟨b, -, -, he⟩ | ⟨hnone, -⟩)
    · exact absurd he.symm (pageAddr_ne_noPage b)
    · exact hnone
  · exact fun hnone => .inr ⟨hnone, rfl⟩

/-! ## Each outcome of the search -/

section

variable (hnum : 1 ≤ num) (hs : start % 4096 = 0) (hf : finish % 4096 = 0) (hle : start ≤ finish)

include hs hf in
/-- When the range lies inside one word, nothing fits into it that does not lie below `midEnd`. -/
theorem none_fits_of_overlap (hend : finish / 4096 ≤ midEnd start finish) (hno : NoneBelow m num start finish) :
    ∀ c, ¬FitsIn m num start finish c := by
  intro c hc
  obtain ⟨hlo, hhi, hrun⟩ := (fitsIn_iff hs hf).mp hc
  exact hno c hlo (by omega) hrun

include hnum hs hf hle in
theorem below_iff (hb : start / 4096 ≤ b) (hend : b + num ≤ midEnd start finish) (hrun : FreeRun (freePage m) b num)
    (hfirst : ∀ c, start / 4096 ≤ c → c < b → ¬FreeRun (freePage m) c num) :
    FirstFit m num start finish (pageAddr b) ↔ ¬Misled m num start finish := by
  have hlow : ∀ c, FitsIn m num start finish c → b ≤ c := by
    intro c hc
    obtain ⟨hc, -, hcrun⟩ := (fitsIn_iff hs hf).mp hc
    by_contra hlt
    exact hfirst c hc (by omega) hcrun
  have hnot : ¬Overlooks m num start finish ∧ ¬Glues m num start finish := by
    refine ⟨fun h => h.none_below b hb hend hrun, ?_⟩
    rintro ⟨k, -, hc, -⟩
    exact hc.no_run b (by omega) hb hend hrun
  have hfin := finish_eq finish
  rw [firstFit_pageAddr, Misled, or_iff_right hnot.1, or_iff_right hnot.2, fitsIn_iff hs hf]
  rcases midEnd_place hle with hmid | ⟨hmid, -⟩
  · exact iff_of_true ⟨⟨hb, by omega, hrun⟩, hlow⟩ (not_strays_of_le hmid)
  · constructor
    · rintro ⟨hfits, -⟩ hstrays
      exact hstrays.none_fits b ((fitsIn_iff hs hf).mpr hfits)
    · intro hstrays
      refine ⟨⟨hb, ?_, hrun⟩, hlow⟩
      by_contra hout
      refine hstrays ⟨hmid, fun c hc => ?_, .inl ⟨b, hb, hend, hrun⟩⟩
      have hbc := hlow c hc
      have := ((fitsIn_iff hs hf).mp hc).2.1
      omega

include hs hf hle in
theorem carried_iff {k : Nat} (hk : k < num) (hc : Carries m num start finish k) :
    FirstFit m num start finish (pageAddr (midEnd start finish - k)) ↔ ¬Misled m num start finish := by
  have hno : NoneBelow m num start finish := fun c hcs hce => hc.no_run c (by omega) hcs hce
  have hover : ¬Overlooks m num start finish := fun h => h.not_carried k hk hc
  have hpos := hc.pos
  have hkle := hc.le
  have hfits := hc.fits
  have hfin := finish_eq finish
  rw [firstFit_pageAddr, Misled, or_iff_right hover]
  rcases midEnd_place hle with hmid | ⟨hmid, hend⟩
  · have hglues : Glues m num start finish ↔ ¬FreeRun (freePage m) (midEnd start finish) (num - k) := by
      constructor
      · rintro ⟨k', -, hc', hgap⟩
        rwa [hc.unique hc']
      · exact fun hgap => ⟨k, hk, hc, hgap⟩
    rw [or_iff_left (not_strays_of_le hmid), hglues, not_not, fitsIn_iff hs hf]
    constructor
    · rintro ⟨⟨-, -, hrun⟩, -⟩ i hi
      have := hrun (k + i) (by omega)
      rwa [show midEnd start finish - k + (k + i) = midEnd start finish + i by omega] at this
    · intro hgap
      refine ⟨⟨by omega, by omega, fun i hi => ?_⟩, fun c hfit => ?_⟩
      · rcases Nat.lt_or_ge i k with hik | hik
        · exact hc.run i hik
        · have := hgap (i - k) (by omega)
          rwa [show midEnd start finish + (i - k) = midEnd start finish - k + i by omega] at this
      · obtain ⟨hcs, -, hrun⟩ := (fitsIn_iff hs hf).mp hfit
        by_contra hlt
        by_cases hin : c + num ≤ midEnd start finish
        · exact hno c hcs hin hrun
        -- the run would hold the page before the longest run that ends at `midEnd`
        · rcases hc.maximal with hmax | hmax
          · omega
          · have := hrun (midEnd start finish - k - 1 - c) (by omega)
            rw [show c + (midEnd start finish - k - 1 - c) = midEnd start finish - k - 1 by omega, hmax] at this
            cases this
  · have hnone := none_fits_of_overlap hs hf hend hno
    refine iff_of_false (fun h => hnone _ h.1) (not_not.mpr (.inr ⟨hmid, hnone, .inr (.inl ⟨k, hk, hc⟩)⟩))

include hs hf hnum in
/-- When nothing is skipped, a run that reaches into the last word is carried there. -/
theorem carries_of_crossing (hmid : midEnd start finish = lastWord finish) (hno : NoneBelow m num start finish)
    (hfit : FitsIn m num start finish b) (hb : b < lastWord finish) : ∃ k < num, Carries m num start finish k := by
  obtain ⟨hbs, hbe, hrun⟩ := (fitsIn_iff hs hf).mp hfit
  have hfin := finish_eq finish
  have hcross : midEnd start finish < b + num := by
    by_contra hin
    exact hno b hbs (by omega) hrun
  obtain ⟨k, hk, htail, hmax⟩ := exists_tail (freePage m) (start / 4096) (midEnd start finish - start / 4096)
  have hle : start / 4096 ≤ midEnd start finish := start_le_midEnd
  rw [show start / 4096 + (midEnd start finish - start / 4096) = midEnd start finish by omega] at htail hmax
  have hlong : midEnd start finish - b ≤ k := by
    by_contra hshort
    rcases hmax with hmax | hmax
    · omega
    · have := hrun (midEnd start finish - k - 1 - b) (by omega)
      rw [show b + (midEnd start finish - k - 1 - b) = midEnd start finish - k - 1 by omega, hmax] at this
      cases this
  have hshort : k < num := by
    by_contra hlong
    refine hno (midEnd start finish - num) (by omega) (by omega) fun i hi => ?_
    have := htail (k - num + i) (by omega)
    rwa [show midEnd start finish - k + (k - num + i) = midEnd start finish - num + i by omega] at this
  refine ⟨k, hshort, fun c _ hcs hce => hno c hcs hce, by omega, by omega, htail, ?_, by omega, fun i hi => ?_⟩
  · exact hmax.imp_left fun h => by omega
  · have := hrun (midEnd start finish - b + i) (by omega)
    rwa [show b + (midEnd start finish - b + i) = lastWord finish + i by omega] at this

include hs hf hnum in
/-- A run that fits before the last word is overlooked, if it is neither found nor carried. -/
theorem overlooks_of_fits (hmid : midEnd start finish ≤ lastWord finish) (hno : NoneBelow m num start finish)
    (hc : ∀ k < num, ¬Carries m num start finish k) (hfit : FitsIn m num start finish b) (hb : b < lastWord finish) :
    Overlooks m num start finish := by
  rcases Nat.eq_or_lt_of_le hmid with heq | hgap
  · obtain ⟨k, hk, hcar⟩ := carries_of_crossing hnum hs hf heq hno hfit hb
    exact absurd hcar (hc k hk)
  · exact ⟨hgap, hno, hc, b, hb, hfit⟩

include hnum hs hf hle in
theorem last_iff (hno : NoneBelow m num start finish) (hc : ∀ k < num, ¬Carries m num start finish k) (hb : lastWord finish ≤ b)
    (hend : b + num ≤ lastWord finish + pageToPos finish) (hrun : FreeRun (freePage m) b num)
    (hfirst : ∀ c, lastWord finish ≤ c → c < b → ¬FreeRun (freePage m) c num) :
    FirstFit m num start finish (pageAddr b) ↔ ¬Misled m num start finish := by
  have hglues : ¬Glues m num start finish := fun ⟨k, hk, hcar, _⟩ => hc k hk hcar
  have hfin := finish_eq finish
  rw [firstFit_pageAddr, Misled, or_iff_right hglues]
  rcases midEnd_place hle with hmid | ⟨hmid, hout⟩
  · rw [or_iff_left (not_strays_of_le hmid)]
    constructor
    · rintro ⟨-, hlow⟩ h
      obtain ⟨c, hc, hfit⟩ := h.run
      have := hlow c hfit
      omega
    · intro hover
      have hstart : start / 4096 ≤ midEnd start finish := start_le_midEnd
      refine ⟨(fitsIn_iff hs hf).mpr ⟨by omega, by omega, hrun⟩, fun c hfit => ?_⟩
      by_contra hlt
      have hcl : c < lastWord finish := by
        by_contra hcl
        exact hfirst c (by omega) (by omega) ((fitsIn_iff hs hf).mp hfit).2.2
      exact hover (overlooks_of_fits hnum hs hf hmid hno hc hfit hcl)
  · have hnone := none_fits_of_overlap hs hf hout hno
    refine iff_of_false (fun h => hnone b h.1) (not_not.mpr (.inr ⟨hmid, hnone, .inr (.inr ⟨b, hb, by omega, hrun⟩)⟩))

include hnum hs hf hle in
theorem nothing_iff (hno : NoneBelow m num start finish) (hc : ∀ k < num, ¬Carries m num start finish k)
    (hlast : ∀ b, lastWord finish ≤ b → b + num ≤ lastWord finish + pageToPos finish → ¬FreeRun (freePage m) b num) :
    FirstFit m num start finish noPage ↔ ¬Misled m num start finish := by
  have hglues : ¬Glues m num start finish := fun ⟨k, hk, hcar, _⟩ => hc k hk hcar
  have hfin := finish_eq finish
  rw [firstFit_noPage, Misled, or_iff_right hglues]
  rcases midEnd_place hle with hmid | ⟨hmid, hout⟩
  · rw [or_iff_left (not_strays_of_le hmid)]
    constructor
    · intro hnone h
      obtain ⟨c, -, hfit⟩ := h.run
      exact hnone c hfit
    · intro hover c hfit
      have hcl : c < lastWord finish := by
        by_contra hcl
        obtain ⟨-, hce, hrun⟩ := (fitsIn_iff hs hf).mp hfit
        exact hlast c (by omega) (by omega) hrun
      exact hover (overlooks_of_fits hnum hs hf hmid hno hc hfit hcl)
  · have hnone := none_fits_of_overlap hs hf hout hno
    refine iff_of_true hnone ?_
    rintro (h | h)
    · have := h.gap
      omega
    · rcases h.run with ⟨b, hbs, hbe, hrun⟩ | ⟨k, hk, hcar⟩ | ⟨b, hbs, hbe, hrun⟩
      · exact hno b hbs hbe hrun
      · exact hc k hk hcar
      · exact hlast b hbs (by omega) hrun

end

/-- An allocation that reports `E_NO_MEM` has found nothing. -/
theorem mmAllocRange_noMem {s : Mm} (hnum : 1 ≤ num) (h : (mmAllocRange s num).1 = noPage) :
    find s.mmap num dmaEnd s.memEnd = noPage := by
  by_contra hne
  rw [mmAllocRange, if_neg (by omega)] at h
  simp only [hne, if_false] at h

theorem mmAllocPage_noMem {s : Mm} (h : (mmAllocPage s).1 = noPage) : find s.mmap 1 dmaEnd s.memEnd = noPage := by
  by_contra hne
  simp only [mmAllocPage, hne, if_false] at h

/-- With the end on a word boundary, nothing is skipped and nothing is looked at besides. -/
theorem not_misled_of_boundary (hle : start ≤ finish) (hpos : pageToPos finish = 0) : ¬Misled m num start finish := by
  have hfin := finish_eq finish
  have hmid : lastWord finish ≤ midEnd start finish := by
    simp only [midEnd, hpos, ne_eq, not_true_eq_false, if_false]
    exact Nat.le_max_right _ _
  rintro (h | h | h)
  · have := h.gap
    omega
  · exact not_glues_of_boundary hpos h
  · have hover := h.overlap
    have hs := pageToPos_eq start
    simp only [midEnd, midStart, hpos, lastWord, addrToIdx, pageSize, ne_eq, not_true_eq_false, if_false] at hover hfin
    split at hover <;> omega

end FirstFitAux

open FirstFitAux

/-- For every page map and every range between page boundaries, `find` returns the first fit exactly when it is not misled; and then
`mm_alloc_range` and `mm_alloc_page` fail only when there is no such range. -/
theorem find_firstFit_iff (m : Mmap) (num start finish : Nat) (hnum : 1 ≤ num) (hs : start % 4096 = 0) (hf : finish % 4096 = 0)
    (hle : start ≤ finish) (hlt : finish < 4294967296) :
    (FirstFit m num start finish (find m num start finish) ↔ ¬Misled m num start finish) ∧
      ∀ s : Mm, s.mmap = m → dmaEnd = start → s.memEnd = finish → ¬Misled m num start finish →
        ((mmAllocRange s num).1 = noPage → ∀ b, ¬FitsIn m num start finish b) ∧
        (num = 1 → (mmAllocPage s).1 = noPage → ∀ b, ¬FitsIn m num start finish b) := by
  have hiff : FirstFit m num start finish (find m num start finish) ↔ ¬Misled m num start finish := by
    have hfinds := find_finds (m := m) hnum (show start < 4294967296 by omega) hlt
    generalize find m num start finish = r at hfinds ⊢
    cases hfinds with
    | below hb hend hrun hfirst => exact below_iff hnum hs hf hle hb hend hrun hfirst
    | carried hk hc => exact carried_iff hs hf hle hk hc
    | last hno hc hb hend hrun hfirst => exact last_iff hnum hs hf hle hno hc hb hend hrun hfirst
    | nothing hno hc hlast => exact nothing_iff hnum hs hf hle hno hc hlast
  refine ⟨hiff, ?_⟩
  rintro s rfl rfl rfl hmis
  have hfirst := hiff.mpr hmis
  refine ⟨fun hfail => ?_, ?_⟩
  · rw [mmAllocRange_noMem hnum hfail] at hfirst
    exact firstFit_noPage.mp hfirst
  · rintro rfl hfail
    rw [mmAllocPage_noMem hfail] at hfirst
    exact firstFit_noPage.mp hfirst

/-- The pages 40, 41 and 45 to 63 are free. -/
def someFree : Mmap := fun i => if i = 1 then 0xFFFFE300#32 else 0#32

/-- Three pages are found from page 45 on. -/
theorem someFree_found : find someFree 3 0 (64 * 4096) = pageAddr 45 ∧ FirstFit someFree 3 0 (64 * 4096) (pageAddr 45) := by
  have hfind : find someFree 3 0 (64 * 4096) = pageAddr 45 := by decide +kernel
  refine ⟨hfind, ?_⟩
  rw [← hfind]
  exact (find_firstFit_iff someFree 3 0 (64 * 4096) (by decide) (by decide) (by decide) (by decide) (by decide)).1.mpr
    (not_misled_of_boundary (by decide) (by decide))

/-- Only page 192 is free, and the memory ends behind page 224. -/
def page192 : Mm := ⟨fun i => if i = 6 then 1#32 else 0#32, 225 * 4096, .ok, by decide⟩

/-- The page lies in the word before the last one, and `mm_alloc_page` reports that there is no memory. -/
theorem page192_overlooked : FitsIn page192.mmap 1 dmaEnd page192.memEnd 192 ∧ (mmAllocPage page192).1 = noPage ∧
    (mmAllocPage page192).2.lastError = .noMem ∧
    ¬FirstFit page192.mmap 1 dmaEnd page192.memEnd (find page192.mmap 1 dmaEnd page192.memEnd) := by
  have hfits : FitsIn page192.mmap 1 dmaEnd page192.memEnd 192 := by decide
  have hfind : find page192.mmap 1 dmaEnd page192.memEnd = noPage := by decide +kernel
  refine ⟨hfits, by simp only [mmAllocPage, hfind, if_true], by simp only [mmAllocPage, hfind, if_true, Mm.seterr], ?_⟩
  rw [hfind, firstFit_noPage]
  exact fun hnone => hnone 192 hfits

end Kos
