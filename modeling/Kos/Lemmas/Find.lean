import Kos.Lemmas.Bitmap

/-!
# What `find` scans

The three passes of `find` are one scan of page numbers (`findPasses_eq`): first the pages from `start` to the end of the last
whole word the middle loop visits (`midEnd`), which follow each other without a gap, and then the pages of the last, partial
word. Between the two lies a gap of one word when the end is inside a word: the middle loop stops one word early, and the run
of free pages it carries is counted on in the last word.
-/

namespace Kos

/-- The address of a page. -/
abbrev pageAddr (p : Nat) : Nat := p * 4096

/-- The number of the first page of the first whole word at or after `start`. -/
def midStart (start : Nat) : Nat := if pageToPos start ≠ 0 then 32 * (addrToIdx start + 1) else 32 * addrToIdx start

/-- The number of the page at which the first two passes of `find` stop. -/
def midEnd (start finish : Nat) : Nat :=
  max (midStart start) (32 * if pageToPos finish ≠ 0 then addrToIdx finish - 1 else addrToIdx finish)

/-- The scan of page numbers that `find` runs. -/
abbrev pageScan (m : Mmap) (num : Nat) : Scan → List Nat → Except Nat Scan := Scan.pass (freePage m) pageAddr num

theorem test_eq_step (m : Mmap) (num : Nat) (sc : Scan) {idx pos : Nat} (hi : idx < 32768) (hp : pos < 32) :
    test m num idx pos sc = Scan.step (freePage m) pageAddr num sc (32 * idx + pos) := by
  have hfree : freePage m (32 * idx + pos) = bissetn (m idx) pos := by
    rw [bissetn_eq _ hp, freePage, show (32 * idx + pos) / 32 = idx by omega, show (32 * idx + pos) % 32 = pos by omega]
  have haddr : w32 (idxToAddr idx + posToOffs pos) = pageAddr (32 * idx + pos) := by
    simp only [idxToAddr, posToOffs, pageSize, w32_add_left, w32_add_right, pageAddr]
    rw [w32_of_lt (by omega)]
    omega
  simp only [test, Scan.step, hfree, haddr]

theorem testBits_eq (m : Mmap) (num : Nat) (sc : Scan) {idx lo hi : Nat} (hx : idx < 32768) (hh : hi ≤ 32) :
    testBits m num idx lo hi sc = pageScan m num sc (List.range' (32 * idx + lo) (hi - lo)) := by
  have hmap : List.range' (32 * idx + lo) (hi - lo) = (List.range' lo (hi - lo)).map (32 * idx + ·) := by
    rw [List.map_add_range']
  rw [pageScan, Scan.pass, hmap, List.foldlM_map]
  have hstep : ∀ p ∈ List.range' lo (hi - lo), p < 32 := by
    intro p hp
    rw [List.mem_range'_1] at hp
    omega
  unfold testBits
  generalize List.range' lo (hi - lo) = ps at hstep
  induction ps generalizing sc with
  | nil => rfl
  | cons p ps ih =>
    rw [List.foldlM_cons, List.foldlM_cons, test_eq_step m num sc hx (hstep p (by simp))]
    congr 1
    funext sc'
    exact ih sc' (fun q hq => hstep q (List.mem_cons_of_mem p hq))

/-- Skipping a word without a free page is scanning it. -/
theorem testWord_eq (m : Mmap) (num : Nat) (sc : Scan) {i : Nat} (hi : i < 32768) :
    testWord m num sc i = pageScan m num sc (List.range' (32 * i) 32) := by
  unfold testWord
  split
  · rename_i h0
    have hw : m i = 0#32 := by simpa using h0
    symm
    apply Scan.pass_used
    · simp
    · intro p hp
      rw [List.mem_range'_1] at hp
      rw [freePage, show p / 32 = i by omega, hw]
      simp
  · exact testBits_eq m num sc hi (Nat.le_refl 32)

theorem testWords_eq (m : Mmap) (num : Nat) (sc : Scan) (lo n : Nat) (h : lo + n ≤ 32768) :
    testWords m num lo (lo + n) sc = pageScan m num sc (List.range' (32 * lo) (32 * n)) := by
  unfold testWords
  rw [Nat.add_sub_cancel_left]
  induction n with
  | zero => rfl
  | succ n ih =>
    rw [List.range'_concat, List.foldlM_append, ih (by omega)]
    have hsplit : List.range' (32 * lo) (32 * (n + 1)) =
        List.range' (32 * lo) (32 * n) ++ List.range' (32 * (lo + n)) 32 := by
      rw [show 32 * (lo + n) = 32 * lo + 32 * n by omega, List.range'_append_1, show 32 * (n + 1) = 32 * n + 32 by omega]
    rw [hsplit, pageScan, Scan.pass_append]
    change Except.bind _ _ = _
    congr 1
    funext sc'
    simp only [List.foldlM_cons, List.foldlM_nil, Nat.one_mul, testWord_eq m num sc' (show lo + n < 32768 by omega)]
    exact bind_pure _

/-- The first pass: the rest of the first word. -/
theorem firstPass_eq (m : Mmap) (num : Nat) (sc : Scan) {start : Nat} (hs : start < 4294967296) :
    (if pageToPos start ≠ 0 then testBits m num (addrToIdx start) (pageToPos start) 32 sc else pure sc) =
      pageScan m num sc (List.range' (start / 4096) (midStart start - start / 4096)) := by
  have hpos := pageToPos_eq start
  unfold midStart
  split
  · rename_i h
    rw [testBits_eq m num sc (by simp only [addrToIdx, pageSize]; omega) (Nat.le_refl 32)]
    simp only [addrToIdx, pageSize] at *
    rw [show 32 * (start / 4096 / 32) + pageToPos start = start / 4096 by omega,
      show 32 - pageToPos start = 32 * (start / 4096 / 32 + 1) - start / 4096 by omega]
  · rename_i h
    simp only [addrToIdx, pageSize]
    rw [show 32 * (start / 4096 / 32) - start / 4096 = 0 by omega]
    rfl

theorem start_le_midStart (start : Nat) : start / 4096 ≤ midStart start := by
  have hpos := pageToPos_eq start
  unfold midStart
  simp only [addrToIdx, pageSize]
  split <;> omega

/-- The second pass: whole words, from the first one at or after `start`. -/
theorem midPass_eq (m : Mmap) (num : Nat) (sc : Scan) {start finish : Nat} (hf : finish < 4294967296) :
    testWords m num (if pageToPos start ≠ 0 then addrToIdx start + 1 else addrToIdx start)
        (if pageToPos finish ≠ 0 then addrToIdx finish - 1 else addrToIdx finish) sc =
      pageScan m num sc (List.range' (midStart start) (midEnd start finish - midStart start)) := by
  have hms : midStart start = 32 * if pageToPos start ≠ 0 then addrToIdx start + 1 else addrToIdx start := by
    unfold midStart
    split <;> rfl
  unfold midEnd
  rw [hms]
  generalize hlo : (if pageToPos start ≠ 0 then addrToIdx start + 1 else addrToIdx start) = lo
  generalize hhi : (if pageToPos finish ≠ 0 then addrToIdx finish - 1 else addrToIdx finish) = hi
  have hhi' : hi ≤ 32768 := by
    rw [← hhi]
    simp only [addrToIdx, pageSize]
    split <;> omega
  rcases Nat.le_total lo hi with hle | hle
  · obtain ⟨n, rfl⟩ := Nat.exists_eq_add_of_le hle
    rw [testWords_eq m num sc lo n hhi']
    congr 2
    omega
  · have h0 : hi - lo = 0 := by omega
    have h1 : max (32 * lo) (32 * hi) - 32 * lo = 0 := by omega
    simp only [testWords, h0, h1, pageScan, Scan.pass, List.range'_zero, List.foldlM_nil]

/-- The last pass: the beginning of the last word. -/
theorem lastPass_eq (m : Mmap) (num : Nat) (sc : Scan) {finish : Nat} (hf : finish < 4294967296) :
    (if pageToPos finish ≠ 0 then testBits m num (addrToIdx finish) 0 (pageToPos finish) sc else pure sc) =
      pageScan m num sc (List.range' (32 * addrToIdx finish) (pageToPos finish)) := by
  split
  · rw [testBits_eq m num sc (by simp only [addrToIdx, pageSize]; omega) (Nat.le_of_lt (pageToPos_lt finish))]
    rfl
  · rename_i h
    have h0 : pageToPos finish = 0 := by simpa using h
    simp [h0, pageScan, Scan.pass]

/-- `find` is one scan: the pages up to `midEnd`, then the pages of the last word below the end. -/
theorem findPasses_eq (m : Mmap) (num : Nat) {start finish : Nat} (hs : start < 4294967296) (hf : finish < 4294967296) :
    findPasses m num start finish =
      (pageScan m num ⟨0, noPage⟩ (List.range' (start / 4096) (midEnd start finish - start / 4096))).bind
        (fun sc => pageScan m num sc (List.range' (32 * addrToIdx finish) (pageToPos finish))) := by
  have h1 := start_le_midStart start
  have h2 : midStart start ≤ midEnd start finish := Nat.le_max_left _ _
  have hsplit : List.range' (start / 4096) (midEnd start finish - start / 4096) =
      List.range' (start / 4096) (midStart start - start / 4096) ++
        List.range' (midStart start) (midEnd start finish - midStart start) := by
    obtain ⟨n, hn⟩ := Nat.exists_eq_add_of_le h1
    rw [hn, Nat.add_sub_cancel_left, List.range'_append_1]
    congr 1
    omega
  rw [hsplit, pageScan, Scan.pass_append]
  change _ = Except.bind (Except.bind (pageScan m num _ _) _) _
  rw [← firstPass_eq m num ⟨0, noPage⟩ hs]
  unfold findPasses
  simp only [← midPass_eq m num _ hf, ← lastPass_eq m num _ hf]
  generalize (if pageToPos start ≠ 0 then testBits m num (addrToIdx start) (pageToPos start) 32 ⟨0, noPage⟩
    else pure ⟨0, noPage⟩) = e
  cases e <;> rfl

/-! ## When the range found is free -/

/-- The scan of `find` comes to the last word with a run of `k` free pages, the longest one below `midEnd`, and completes it there:
the last word begins with the `num - k` free pages that were missing. It did not stop before, so no run of `num` free pages
lies below `midEnd`. -/
structure Carries (m : Mmap) (num start finish k : Nat) : Prop where
  no_run : ∀ c < midEnd start finish, start / 4096 ≤ c → c + num ≤ midEnd start finish → ¬FreeRun (freePage m) c num
  pos : 0 < k
  le : start / 4096 + k ≤ midEnd start finish
  run : FreeRun (freePage m) (midEnd start finish - k) k
  maximal : start / 4096 + k = midEnd start finish ∨ freePage m (midEnd start finish - k - 1) = false
  fits : num - k ≤ pageToPos finish
  last : FreeRun (freePage m) (32 * addrToIdx finish) (num - k)

/-- The scan of `find` glues the run of free pages it carries into the last word to free pages of the last word, and the pages that
follow the run, which it never tested, are not all free. -/
def Glues (m : Mmap) (num start finish : Nat) : Prop :=
  ∃ k < num, Carries m num start finish k ∧ ¬FreeRun (freePage m) (midEnd start finish) (num - k)

theorem pageOf_pageAddr {b i : Nat} (h : b + i < 1048576) : pageOf (pageAddr b) i = pageAddr (b + i) := by
  simp only [pageOf, pageAddr, pageSize]
  rw [w32_of_lt (by omega), Nat.add_mul]

theorem isFree_pageAddr (m : Mmap) (p : Nat) : isFree m (pageAddr p) = freePage m p := by
  rw [isFree_eq_freePage, pageAddr, Nat.mul_div_cancel _ (by decide)]

/-- A run of free page numbers is a free range of addresses. -/
theorem FreeRun.isFree {m : Mmap} {b num : Nat} (h : FreeRun (freePage m) b num) (hb : b + num ≤ 1048576) :
    ∀ i < num, isFree m (pageOf (pageAddr b) i) = true := by
  intro i hi
  rw [pageOf_pageAddr (by omega), isFree_pageAddr]
  exact h i hi

/-- The longest free run that ends at a page is unique. -/
theorem Scan.Tail.count_eq {free : Nat → Bool} {label : Nat → Nat} {a b k : Nat} {sc : Scan}
    (h : Scan.Tail free label a b sc) (hk : a + k ≤ b) (hrun : FreeRun free (b - k) k)
    (hmax : a + k = b ∨ free (b - k - 1) = false) : sc.count = k := by
  have hle := h.le
  rcases Nat.lt_trichotomy sc.count k with hlt | heq | hgt
  · rcases h.maximal with hm | hm
    · omega
    · have := hrun (k - sc.count - 1) (by omega)
      rw [show b - k + (k - sc.count - 1) = b - sc.count - 1 by omega, hm] at this
      exact absurd this (by decide)
  · exact heq
  · rcases hmax with hm | hm
    · omega
    · have := h.run (sc.count - k - 1) (by omega)
      rw [show b - sc.count + (sc.count - k - 1) = b - k - 1 by omega, hm] at this
      exact absurd this (by decide)

section

variable {m : Mmap} {num start finish : Nat}

theorem midEnd_le (hs : start < 4294705152) (hf : finish < 4294967296) : midEnd start finish ≤ 1048576 := by
  have hpos := pageToPos_eq start
  simp only [midEnd, midStart, addrToIdx, pageSize]
  split <;> split <;> omega

/-- When there is a last word, the gap before it lies inside the address space. -/
theorem midEnd_add_le (hs : start < 4294705152) (hf : finish < 4294967296) {n : Nat} (h0 : 0 < n)
    (hn : n ≤ pageToPos finish) : midEnd start finish + n ≤ 1048576 := by
  have hpos := pageToPos_lt finish
  have hne : pageToPos finish ≠ 0 := by omega
  simp only [midEnd, midStart, addrToIdx, pageSize, hne, ne_eq, not_false_eq_true, if_true]
  split <;> omega

theorem start_le_midEnd : start / 4096 ≤ midEnd start finish :=
  Nat.le_trans (start_le_midStart start) (Nat.le_max_left _ _)

/-- No run of `num` free pages lies between `start` and `midEnd`. -/
def NoneBelow (m : Mmap) (num start finish : Nat) : Prop :=
  ∀ c, start / 4096 ≤ c → c + num ≤ midEnd start finish → ¬FreeRun (freePage m) c num

/-- What `find` returns, in the order in which it looks: the first run below `midEnd`, the run that is carried into the last word, the
first run of the last word, or nothing. -/
inductive Finds (m : Mmap) (num start finish : Nat) : Nat → Prop where
  | below {b : Nat} (hb : start / 4096 ≤ b) (hend : b + num ≤ midEnd start finish) (hrun : FreeRun (freePage m) b num)
      (hfirst : ∀ c, start / 4096 ≤ c → c < b → ¬FreeRun (freePage m) c num) : Finds m num start finish (pageAddr b)
  | carried {k : Nat} (hk : k < num) (hc : Carries m num start finish k) : Finds m num start finish (pageAddr (midEnd start finish - k))
  | last {b : Nat} (hno : NoneBelow m num start finish) (hc : ∀ k < num, ¬Carries m num start finish k)
      (hb : 32 * addrToIdx finish ≤ b) (hend : b + num ≤ 32 * addrToIdx finish + pageToPos finish) (hrun : FreeRun (freePage m) b num)
      (hfirst : ∀ c, 32 * addrToIdx finish ≤ c → c < b → ¬FreeRun (freePage m) c num) : Finds m num start finish (pageAddr b)
  | nothing (hno : NoneBelow m num start finish) (hc : ∀ k < num, ¬Carries m num start finish k)
      (hlast : ∀ b, 32 * addrToIdx finish ≤ b → b + num ≤ 32 * addrToIdx finish + pageToPos finish → ¬FreeRun (freePage m) b num) :
      Finds m num start finish noPage

/-- The scan of the last word, when the run that is carried into it is not completed there. -/
theorem lastWord_finds (hnum : 1 ≤ num) {sc : Scan} (hlt : sc.count < num) (hno : NoneBelow m num start finish)
    (hc : ∀ k < num, ¬Carries m num start finish k)
    (hmiss : 0 < sc.count → ¬(num - sc.count ≤ pageToPos finish ∧ FreeRun (freePage m) (32 * addrToIdx finish) (num - sc.count))) :
    Finds m num start finish (match pageScan m num sc (List.range' (32 * addrToIdx finish) (pageToPos finish)) with
      | .error result => result
      | .ok _ => noPage) := by
  have hsame : ∀ x, pageScan m num sc (List.range' (32 * addrToIdx finish) (pageToPos finish)) = .error x ↔
      pageScan m num ⟨0, noPage⟩ (List.range' (32 * addrToIdx finish) (pageToPos finish)) = .error x := by
    intro x
    rcases Nat.eq_zero_or_pos sc.count with h0 | h0
    · have hsc : sc = ⟨0, sc.result⟩ := by rw [← h0]
      rw [hsc]
      exact ⟨Scan.pass_empty_error, Scan.pass_empty_error⟩
    · exact Scan.carry_missed hlt (hmiss h0)
  cases h2 : pageScan m num sc (List.range' (32 * addrToIdx finish) (pageToPos finish)) with
  | error x =>
    obtain ⟨b, hb, hend, rfl, hrun, hfirst⟩ := Scan.scan_error hnum ((hsame x).mp h2)
    exact .last hno hc hb hend hrun hfirst
  | ok sc' =>
    cases h3 : pageScan m num ⟨0, noPage⟩ (List.range' (32 * addrToIdx finish) (pageToPos finish)) with
    | error x =>
      rw [(hsame x).mpr h3] at h2
      cases h2
    | ok sc'' => exact .nothing hno hc (Scan.scan_ok hnum h3).2.2

theorem find_finds (hnum : 1 ≤ num) (hs : start < 4294967296) (hf : finish < 4294967296) :
    Finds m num start finish (find m num start finish) := by
  have hle : start / 4096 + (midEnd start finish - start / 4096) = midEnd start finish :=
    Nat.add_sub_cancel' start_le_midEnd
  unfold find
  rw [findPasses_eq m num hs hf]
  cases h1 : pageScan m num ⟨0, noPage⟩ (List.range' (start / 4096) (midEnd start finish - start / 4096)) with
  | error x =>
    obtain ⟨b, hb, hend, rfl, hrun, hfirst⟩ := Scan.scan_error hnum h1
    exact .below hb (by omega) hrun hfirst
  | ok sc =>
    obtain ⟨ht, hlt, hno⟩ := Scan.scan_ok hnum h1
    rw [hle] at ht hno
    simp only [Except.bind]
    by_cases hcarries : ∃ k < num, Carries m num start finish k
    · obtain ⟨k, hk, hc⟩ := hcarries
      have hcount : sc.count = k := ht.count_eq hc.le hc.run hc.maximal
      have hpos := hc.pos
      have hstop : pageScan m num sc (List.range' (32 * addrToIdx finish) (pageToPos finish)) =
          .error (if sc.count = 0 then pageAddr (32 * addrToIdx finish) else sc.result) :=
        Scan.pass_free_error pageAddr hlt (hcount ▸ hc.fits) (hcount ▸ hc.last)
      rw [hstop, if_neg (show sc.count ≠ 0 by omega), ht.labelled (by omega), hcount]
      exact .carried hk hc
    · push Not at hcarries
      refine lastWord_finds hnum hlt hno hcarries fun h0 ⟨hfits, hlast⟩ => ?_
      exact hcarries sc.count hlt ⟨fun c _ hc hcn => hno c hc hcn, h0, ht.le, ht.run, ht.maximal, hfits, hlast⟩

/-- What `find` returns is a run of free pages, or begins with the run that was carried into the last word. -/
theorem find_cases (hnum : 1 ≤ num) (hs : start < 4294705152) (hf : finish < 4294967296)
    (hne : find m num start finish ≠ noPage) :
    (∃ b, b + num ≤ 1048576 ∧ find m num start finish = pageAddr b ∧ FreeRun (freePage m) b num ∧
      (start / 4096 ≤ b ∨ 32 * addrToIdx finish ≤ b)) ∨
      ∃ k < num, Carries m num start finish k ∧ find m num start finish = pageAddr (midEnd start finish - k) := by
  have hmid := midEnd_le hs hf
  have hidx : 32 * addrToIdx finish + pageToPos finish ≤ 1048576 := by
    rw [pageToPos_eq]
    simp only [addrToIdx, pageSize]
    omega
  have hfinds := find_finds (m := m) hnum (show start < 4294967296 by omega) hf
  generalize find m num start finish = r at hne hfinds ⊢
  cases hfinds with
  | below hb hend hrun hfirst => exact .inl ⟨_, by omega, rfl, hrun, .inl hb⟩
  | carried hk hc => exact .inr ⟨_, hk, hc, rfl⟩
  | last hno hc hb hend hrun hfirst => exact .inl ⟨_, by omega, rfl, hrun, .inr hb⟩
  | nothing hno hc hlast => exact absurd rfl hne

/-- The run that is carried into the last word is unique. -/
theorem Carries.unique {k k' : Nat} (h : Carries m num start finish k) (h' : Carries m num start finish k') : k = k' := by
  have htail : Scan.Tail (freePage m) pageAddr (start / 4096) (midEnd start finish) ⟨k, pageAddr (midEnd start finish - k)⟩ :=
    ⟨h.le, h.run, fun _ => rfl, h.maximal⟩
  exact htail.count_eq h'.le h'.run h'.maximal

/-- A run that is carried into the last word and completed there is what `find` returns. -/
theorem Carries.find_eq (hnum : 1 ≤ num) (hs : start < 4294705152) (hf : finish < 4294967296) {k : Nat} (hk : k < num)
    (h : Carries m num start finish k) : find m num start finish = pageAddr (midEnd start finish - k) := by
  have hfinds := find_finds (m := m) hnum (show start < 4294967296 by omega) hf
  generalize find m num start finish = r at hfinds ⊢
  cases hfinds with
  | below hb hend hrun hfirst => exact absurd hrun (h.no_run _ (by omega) hb hend)
  | carried hk' hc => rw [h.unique hc]
  | last hno hc hb hend hrun hfirst => exact absurd h (hc k hk)
  | nothing hno hc hlast => exact absurd h (hc k hk)

/-- What `find` returns when it does not glue is a free range. -/
theorem find_free_of_not_glues (hnum : 1 ≤ num) (hs : start < 4294705152) (hf : finish < 4294967296)
    (hg : ¬Glues m num start finish) (hne : find m num start finish ≠ noPage) :
    ∀ i < num, isFree m (pageOf (find m num start finish) i) = true := by
  rcases find_cases hnum hs hf hne with ⟨b, hb, hfind, hrun, -⟩ | ⟨k, hk, hc, hfind⟩
  · rw [hfind]
    exact hrun.isFree hb
  · have hgap : FreeRun (freePage m) (midEnd start finish) (num - k) := by
      by_contra hgap
      exact hg ⟨k, hk, hc, hgap⟩
    have hle := hc.le
    have hrun : FreeRun (freePage m) (midEnd start finish - k) num := by
      intro i hi
      rcases Nat.lt_or_ge i k with hik | hik
      · exact hc.run i hik
      · have := hgap (i - k) (by omega)
        rwa [show midEnd start finish + (i - k) = midEnd start finish - k + i by omega] at this
    have := midEnd_add_le hs hf (show 0 < num - k by omega) hc.fits
    rw [hfind]
    exact hrun.isFree (by omega)

/-- When `find` glues it returns a range with a page that is not free. -/
theorem find_used_of_glues (hnum : 1 ≤ num) (hs : start < 4294705152) (hf : finish < 4294967296)
    (hg : Glues m num start finish) :
    find m num start finish ≠ noPage ∧ ∃ i < num, isFree m (pageOf (find m num start finish) i) = false := by
  obtain ⟨k, hk, hc, hgap⟩ := hg
  have hadd := midEnd_add_le hs hf (show 0 < num - k by omega) hc.fits
  have hle := hc.le
  have h0 := hc.pos
  rw [hc.find_eq hnum hs hf hk]
  refine ⟨by simp only [pageAddr, noPage]; omega, ?_⟩
  simp only [FreeRun, not_forall] at hgap
  obtain ⟨i, hi, hfree⟩ := hgap
  refine ⟨k + i, by omega, ?_⟩
  rw [pageOf_pageAddr (by omega), isFree_pageAddr,
    show midEnd start finish - k + (k + i) = midEnd start finish + i by omega]
  simpa using hfree

/-- A single page is never glued. -/
theorem not_glues_one : ¬Glues m 1 start finish := by
  rintro ⟨k, hk, hc, -⟩
  have := hc.pos
  omega

/-- Nothing is glued when the end of the memory is on a word boundary: there is no partial last word. -/
theorem not_glues_of_boundary (h : pageToPos finish = 0) : ¬Glues m num start finish := by
  rintro ⟨k, hk, hc, -⟩
  have := hc.fits
  omega

/-- A single page is found at the start or behind it, or in the last word. -/
theorem find_one_ge (hs : start < 4294705152) (hf : finish < 4294967296) (hne : find m 1 start finish ≠ noPage) :
    start / 4096 * 4096 ≤ find m 1 start finish ∨ addrToIdx finish * 131072 ≤ find m 1 start finish := by
  rcases find_cases (Nat.le_refl 1) hs hf hne with ⟨b, -, hfind, -, hb⟩ | ⟨k, hk, hc, -⟩
  · rw [hfind, pageAddr]
    omega
  · have := hc.pos
    omega

/-- The address `find` returns is page aligned. -/
theorem find_aligned (hnum : 1 ≤ num) (hs : start < 4294705152) (hf : finish < 4294967296)
    (hne : find m num start finish ≠ noPage) :
    find m num start finish % 4096 = 0 ∧ find m num start finish < 4294967296 := by
  have hmid : midEnd start finish ≤ 1048576 := midEnd_le hs hf
  rcases find_cases hnum hs hf hne with ⟨b, hb, hfind, -⟩ | ⟨k, hk, hc, hfind⟩
  · rw [hfind]
    simp only [pageAddr]
    omega
  · have := hc.pos
    have := hc.le
    rw [hfind]
    simp only [pageAddr]
    omega

end

end Kos
