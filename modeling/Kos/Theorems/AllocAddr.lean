import Kos.Theorems.PageMap

/-!
# Mapping a physical range at a free address

`vm_alloc_addr` maps the pages of a physical range to free pages of a directory and returns the address of the first byte, and
`vm_free_addr` computes the same pages from that address again. In between, the range is seen at that address and all other
addresses resolve as before, unless the number of pages is computed with an overflow (`vmAllocAddr_iff`).
-/

namespace Kos

/-- What `vm_resolve_virt` returns. -/
def Window.resolve (w : Window) (s : Vm) (pdir v : Nat) : Option Nat := (w.vmResolveVirt s pdir v).map Prod.fst

/-- `vm_find_range` finds pages that are not mapped. The page of the window is mapped whenever a table is accessed. -/
def FindsUnmapped (w : Window) (s : Vm) (pdir num : Nat) : Prop :=
  ∀ vstart sf, w.vmFindRange s pdir num = some (vstart, sf) →
    ∀ k < num, vstart / 4096 + k < 1048576 ∧ ¬w.OnWindow s pdir (vstart / 4096 + k) ∧ pageMap s pdir (vstart / 4096 + k) = none

/-- The physical range is seen at the address `v`, every address off its pages resolves as before, and when it is freed again, every
address does. -/
structure SeenAt (w : Window) (s s₁ : Vm) (pdir pstart size v : Nat) : Prop where
  seen : ∀ i < size, v + i < 4294967296 ∧ w.resolve s₁ pdir (v + i) = some (w32 (pstart + i))
  others : ∀ a < 4294967296, a / 4096 < v / 4096 ∨ (v + size - 1) / 4096 < a / 4096 → w.resolve s₁ pdir a = w.resolve s pdir a
  freed : ∀ s₂, w.vmFreeAddr s₁ pdir v size = some s₂ → ∀ a < 4294967296, w.resolve s₂ pdir a = w.resolve s pdir a

namespace AllocAddrAux

open WindowAux PageMapAux

variable {w : Window} {s s' s₁ s₂ sf vm : Vm} {pdir num vstart pstart size v page : Nat} {flags : Entry}

/-! ## What an address resolves to -/

/-- The address on the page of the window is that of `working_table_map`, which is put into the window to look it up. -/
theorem resolve_onWindow (hok : w.Ok s pdir) (hon : w.OnWindow s pdir (v / 4096)) :
    w.resolve s pdir v = some (w32 (w.workingTableMap + pageOffset v)) := by
  obtain ⟨hp, hpaging, hwtm, hidx⟩ := hon
  rw [page_div] at hp hwtm
  rw [page_mod] at hidx
  obtain ⟨ptab, s', hmap, -, hframe, hshows⟩ := mapWorkingTable_getaddr hok (s.tabs pdir (pdirIndex v))
  have ha := getaddr_mod (s.tabs pdir (pdirIndex v))
  have hlt := getaddr_lt (s.tabs pdir (pdirIndex v))
  have hpte := hshows hpaging
  rw [← hwtm, ← hidx] at hpte
  have hpresent : present (mkEntry (getaddr (s.tabs pdir (pdirIndex v))) Window.windowFlags) = true := by
    rw [present_mkEntry ha]
    rfl
  simp only [Window.resolve, Window.vmResolveVirt, Window.getPtabEntry, bnotset_eq, hp, Bool.not_true, Bool.false_eq_true, if_false, hmap,
    Window.load, hframe, Option.map_some, hpte, hpresent, if_true,
    getaddr_mkEntry ha hlt (by decide : Window.windowFlags.toNat < 4096)]
  rw [hwtm]

theorem resolve_offWindow (hok : w.Ok s pdir) (hoff : ¬w.OnWindow s pdir (v / 4096)) :
    w.resolve s pdir v = some (resolved (pageMap s pdir (v / 4096)) v) := by
  obtain ⟨addr, s', hresolve, -, haddr⟩ := vmResolveVirt_spec hok v
  rw [Window.resolve, hresolve, haddr hoff, vmResolveVirt_eq]
  rfl

/-- Addresses resolve to the same when the map is the same off the page of the window. -/
theorem resolve_congr (hok : w.Ok s pdir) (hok' : w.Ok s' pdir)
    (hwindow : w.OnWindow s' pdir (v / 4096) ↔ w.OnWindow s pdir (v / 4096))
    (hmap : ¬w.OnWindow s pdir (v / 4096) → pageMap s' pdir (v / 4096) = pageMap s pdir (v / 4096)) :
    w.resolve s' pdir v = w.resolve s pdir v := by
  by_cases hon : w.OnWindow s pdir (v / 4096)
  · rw [resolve_onWindow hok hon, resolve_onWindow hok' (hwindow.mpr hon)]
  · rw [resolve_offWindow hok hon, resolve_offWindow hok' (mt hwindow.mp hon), hmap hon]

/-! ## The search -/

theorem Same.trans (h : w.Same s₂ s₁) (h' : w.Same s₁ s) : w.Same s₂ s :=
  ⟨⟨h.mm.trans h'.mm, fun f i he => (h.tabs f i he).trans (h'.tabs f i he)⟩, h.kernelPdir.trans h'.kernelPdir,
    h.kpdirRev.trans h'.kpdirRev⟩

theorem ok_same (hok : w.Ok s pdir) (h : w.Same s' s) : w.Ok s' pdir :=
  ok_widens hok hok.toPdirOk (Widens.refl s pdir) h.toNear

theorem onWindow_same (hok : w.Ok s pdir) (h : w.Same s' s) (hpage : page < 1048576) :
    w.OnWindow s' pdir page ↔ w.OnWindow s pdir page :=
  onWindow_widens hok (Widens.refl s pdir) h.toNear hpage

/-- The search changes nothing but the entry of the window. -/
theorem findRangeFrom_same (hok : w.Ok s pdir) (pdis : List Nat) (r : RangeScan)
    (h : w.findRangeFrom pdir num pdis r s = some (vstart, sf)) : w.Same sf s ∧ vstart < 4294967296 := by
  induction pdis generalizing r s with
  | nil =>
    cases h
    exact ⟨Same.refl w _, by decide⟩
  | cons pdi rest ih =>
    obtain ⟨⟨r', s₁⟩, hfound, h⟩ := Option.bind_eq_some_iff.mp h
    have hsame : w.Same s₁ s := by
      by_cases hp : bisset (s.tabs pdir pdi) pePresent = true
      · simp only [hp, if_true] at hfound
        obtain ⟨ptab, s', hmap, hsame, -⟩ := mapWorkingTable_getaddr hok (s.tabs pdir pdi)
        rw [hmap] at hfound
        obtain ⟨r'', -, he⟩ := Option.map_eq_some_iff.mp hfound
        obtain ⟨-, rfl⟩ := Prod.mk.inj he
        exact hsame
      · simp only [hp] at hfound
        obtain ⟨-, rfl⟩ := Prod.mk.inj (Option.some.inj hfound)
        exact Same.refl w s
    dsimp only at h
    split_ifs at h
    · obtain ⟨rfl, rfl⟩ := Prod.mk.inj (Option.some.inj h)
      exact ⟨hsame, w32_lt _⟩
    · obtain ⟨hsame', hlt⟩ := ih (ok_same hok hsame) _ h
      exact ⟨Same.trans hsame' hsame, hlt⟩

/-! ## The pages -/

theorem pageOf_div {k : Nat} (ha : vstart % 4096 = 0) (hin : vstart / 4096 + k < 1048576) : pageOf vstart k / 4096 = vstart / 4096 + k := by
  simp only [pageOf, w32, pageSize]
  omega

/-- What becomes of the map of a directory when `num` pages from `vstart` on are mapped to those from `pbase` on. -/
structure RangeMapped (w : Window) (s s₁ : Vm) (pdir pbase vstart : Nat) (flags : Entry) (num : Nat) : Prop where
  ok : w.Ok s₁ pdir
  window : ∀ page < 1048576, w.OnWindow s₁ pdir page ↔ w.OnWindow s pdir page
  named : ∀ k < num, ¬w.OnWindow s pdir (vstart / 4096 + k) →
    clean (pageMap s₁ pdir (vstart / 4096 + k)) = clean (given (pageOf pbase k) flags)
  others : ∀ page < 1048576, page < vstart / 4096 ∨ vstart / 4096 + num ≤ page → ¬w.OnWindow s pdir page →
    pageMap s₁ pdir page = pageMap s pdir page

theorem vmMapRange_mapped {pbase : Nat} (hok : w.Ok s pdir) (hsame : w.Same sf s) (hf : flags.toNat < 4096)
    (hin : ∀ k < num, vstart / 4096 + k < 1048576) (h : w.vmMapRange sf pdir pbase vstart flags num = some s₁) :
    RangeMapped w s s₁ pdir pbase vstart flags num := by
  have hmaps := mapRange_maps (ok_same hok hsame) hf h
  have ha : vstart % 4096 = 0 := by
    unfold Window.vmMapRange at h
    split_ifs at h with hpa hva
    exact (isPageAligned_iff vstart).mp (by simpa using hva)
  have hwindow : ∀ page < 1048576, w.OnWindow sf pdir page ↔ w.OnWindow s pdir page := fun page hpage => onWindow_same hok hsame hpage
  refine ⟨hmaps.ok, fun page hpage => (hmaps.window page hpage).trans (hwindow page hpage), ?_, ?_⟩
  · intro k hk hoff
    have hpage := pageOf_div ha (hin k hk)
    have hnamed := hmaps.named ⟨pageOf vstart k, pageOf pbase k, flags⟩ (List.mem_map_of_mem (List.mem_range.mpr hk))
    simp only [Mapping.page, Mapping.value, pageSize, hpage] at hnamed
    exact hnamed (mt (hwindow _ (hin k hk)).mp hoff)
  · intro page hpage hout hoff
    have hnot : ∀ m ∈ (List.range num).map fun i => (⟨pageOf vstart i, pageOf pbase i, flags⟩ : Mapping), m.page ≠ page := by
      intro m hm
      obtain ⟨k, hk, rfl⟩ := List.mem_map.mp hm
      have hk := List.mem_range.mp hk
      simp only [Mapping.page, pageSize, pageOf_div ha (hin k hk)]
      omega
    rw [hmaps.others page hpage hnot (mt (hwindow page hpage).mp hoff)]
    exact near_pageMap hsame.toNear (map_ne_of_ok hok) hoff

theorem resolved_of_clean {m m' : Option (Nat × Entry)} (h : clean m = clean m') (v : Nat) : resolved m v = resolved m' v := by
  cases m with
  | none =>
    cases m' with
    | none => rfl
    | some e => cases h
  | some e =>
    cases m' with
    | none => cases h
    | some e' =>
      have hframe := (Prod.mk.inj (Option.some.inj h)).1
      simp only [resolved, hframe]

/-! ## The address that is returned -/

/-- What a call that returns has done. -/
theorem vmAllocAddr_spec (hok : w.Ok s pdir) (h : w.vmAllocAddr s pdir pstart flags size = some (v, s₁)) :
    ∃ vstart sf, w.vmFindRange s pdir (numPages (alignSize pstart size)) = some (vstart, sf) ∧ w.Same sf s ∧
      vstart % 4096 = 0 ∧ 4096 ≤ vstart ∧ vstart < 4294967296 ∧ v = vstart + pstart % 4096 ∧
      w.vmMapRange sf pdir (alignAddr pstart) vstart flags (numPages (alignSize pstart size)) = some s₁ := by
  unfold Window.vmAllocAddr at h
  obtain ⟨⟨vstart, sf⟩, hfind, h⟩ := Option.bind_eq_some_iff.mp h
  dsimp only at h
  split_ifs at h with hne
  obtain ⟨s', hmap, he⟩ := Option.map_eq_some_iff.mp h
  obtain ⟨hv, rfl⟩ := Prod.mk.inj he
  obtain ⟨hsame, hlt⟩ := findRangeFrom_same hok _ _ hfind
  have ha : vstart % 4096 = 0 := by
    unfold Window.vmMapRange at hmap
    split_ifs at hmap with hpa hva
    exact (isPageAligned_iff vstart).mp (by simpa using hva)
  have hpos : 4096 ≤ vstart := by omega
  have haddr : v = vstart + pstart % 4096 := by
    rw [← hv]
    simp only [pageOffset, pageSize, w32]
    omega
  exact ⟨vstart, sf, hfind, hsame, ha, hpos, hlt, haddr, hmap⟩

/-- Without an overflow, the number of pages is that of the range. -/
theorem numPages_alignSize (h : pageOffset pstart + size ≤ 4294963200) :
    numPages (alignSize pstart size) = (pstart % 4096 + size + 4095) / 4096 := by
  simp only [numPages, alignSize, pageOffset, w32, pageSize] at h ⊢
  omega

section Seen

variable (hok : w.Ok s pdir) (ha : vstart % 4096 = 0)
  (hunmapped : ∀ k < (pstart % 4096 + size + 4095) / 4096, vstart / 4096 + k < 1048576 ∧
    ¬w.OnWindow s pdir (vstart / 4096 + k) ∧ pageMap s pdir (vstart / 4096 + k) = none)
  (hmapped : RangeMapped w s s₁ pdir (alignAddr pstart) vstart flags ((pstart % 4096 + size + 4095) / 4096))

include ha hunmapped hmapped in
/-- A byte of the range, on its page. -/
theorem seen_byte (hflags : present flags = true) {i : Nat} (hi : i < size) :
    vstart + pstart % 4096 + i < 4294967296 ∧ w.resolve s₁ pdir (vstart + pstart % 4096 + i) = some (w32 (pstart + i)) := by
  have hk : (pstart % 4096 + i) / 4096 < (pstart % 4096 + size + 4095) / 4096 := by omega
  have hpage : (vstart + pstart % 4096 + i) / 4096 = vstart / 4096 + (pstart % 4096 + i) / 4096 := by omega
  obtain ⟨hin, hoff, -⟩ := hunmapped _ hk
  have hnamed := hmapped.named _ hk hoff
  rw [← hpage] at hin hoff hnamed
  have hoff₁ := mt (hmapped.window _ hin).mp hoff
  refine ⟨by omega, ?_⟩
  rw [resolve_offWindow hmapped.ok hoff₁, resolved_of_clean hnamed, given, if_pos hflags, Option.some.injEq]
  simp only [resolved, pageOf, alignAddr, pageOffset, pageSize, w32]
  omega

include hok hmapped in
/-- The addresses off the pages of the range. -/
theorem seen_others {a : Nat} (ha : a < 4294967296)
    (hout : a / 4096 < vstart / 4096 ∨ vstart / 4096 + (pstart % 4096 + size + 4095) / 4096 ≤ a / 4096) :
    w.resolve s₁ pdir a = w.resolve s pdir a :=
  resolve_congr hok hmapped.ok (hmapped.window _ (by omega)) fun hoff => hmapped.others _ (by omega) hout hoff

include hok hunmapped hmapped in
/-- When the pages are unmapped, they are as they were before. -/
theorem seen_freed (hun : RangeMapped w s₁ s₂ pdir 0 vstart 0#32 ((pstart % 4096 + size + 4095) / 4096)) {a : Nat}
    (ha : a < 4294967296) : w.resolve s₂ pdir a = w.resolve s pdir a := by
  have hpage : a / 4096 < 1048576 := by omega
  refine resolve_congr hok hun.ok ((hun.window _ hpage).trans (hmapped.window _ hpage)) fun hoff => ?_
  have hoff₁ := mt (hmapped.window _ hpage).mp hoff
  by_cases hin : vstart / 4096 ≤ a / 4096 ∧ a / 4096 < vstart / 4096 + (pstart % 4096 + size + 4095) / 4096
  · have hk : a / 4096 - vstart / 4096 < (pstart % 4096 + size + 4095) / 4096 := by omega
    have hsum : vstart / 4096 + (a / 4096 - vstart / 4096) = a / 4096 := by omega
    have hnone := (hunmapped _ hk).2.2
    have hnamed := hun.named _ hk
    rw [hsum] at hnone hnamed
    rw [hnone]
    exact Option.map_eq_none_iff.mp (hnamed hoff₁)
  · rw [hun.others _ hpage (by omega) hoff₁, hmapped.others _ hpage (by omega) hoff]

end Seen

/-- The pages that `vm_free_addr` computes are those that were mapped. -/
theorem vmFreeAddr_mapped (hok : w.Ok s₁ pdir) (hcond : pageOffset pstart + size ≤ 4294963200) (ha : vstart % 4096 = 0)
    (hin : ∀ k < (pstart % 4096 + size + 4095) / 4096, vstart / 4096 + k < 1048576)
    (h : w.vmFreeAddr s₁ pdir (vstart + pstart % 4096) size = some s₂) :
    RangeMapped w s₁ s₂ pdir 0 vstart 0#32 ((pstart % 4096 + size + 4095) / 4096) := by
  have hoff : pageOffset (vstart + pstart % 4096) = pageOffset pstart := by
    simp only [pageOffset, pageSize]
    omega
  have hbase : alignAddr (vstart + pstart % 4096) = vstart := by
    rw [alignAddr, hoff]
    simp only [pageOffset, pageSize]
    omega
  have hsize : alignSize (vstart + pstart % 4096) size = alignSize pstart size := by rw [alignSize, hoff, alignSize]
  unfold Window.vmFreeAddr Window.vmUnmapRange at h
  split_ifs at h
  rw [hbase, hsize, numPages_alignSize hcond] at h
  exact vmMapRange_mapped hok (Same.refl w s₁) (by decide) hin h

end AllocAddrAux

open AllocAddrAux WindowAux

/-- For every directory, every physical address and all flags with `PE_PRESENT`: if `vm_find_range` finds pages that are not mapped and
`vm_alloc_addr` returns, then it does what it should exactly when the size with the offset in the page, rounded up to pages,
is below 2^32. -/
theorem vmAllocAddr_iff (w : Window) (s s₁ : Vm) (pdir pstart size v : Nat) (flags : Entry) (hok : w.Ok s pdir)
    (hf : flags.toNat < 4096) (hflags : present flags = true) (hsize : 1 ≤ size)
    (hfinds : FindsUnmapped w s pdir (numPages (alignSize pstart size)))
    (h : w.vmAllocAddr s pdir pstart flags size = some (v, s₁)) :
    SeenAt w s s₁ pdir pstart size v ↔ pageOffset pstart + size ≤ 4294963200 := by
  obtain ⟨vstart, sf, hfind, hsame, ha, hpos, hlt, rfl, hmap⟩ := vmAllocAddr_spec hok h
  constructor
  · intro hseen
    have hlast := (hseen.seen (size - 1) (by omega)).1
    simp only [pageOffset, pageSize]
    omega
  · intro hcond
    have hnum := numPages_alignSize hcond
    rw [hnum] at hfinds hfind hmap
    have hunmapped := hfinds vstart sf hfind
    have hin := fun k hk => (hunmapped k hk).1
    have hmapped := vmMapRange_mapped hok hsame hf hin hmap
    refine ⟨fun i hi => seen_byte ha hunmapped hmapped hflags hi, ?_, ?_⟩
    · intro a hlt' hout
      exact seen_others hok hmapped hlt' (by omega)
    · intro s₂ hfree a hlt'
      exact seen_freed hok hunmapped hmapped (vmFreeAddr_mapped hmapped.ok hcond ha hin hfree) hlt'

/-- Three pages are mapped for two pages of bytes that do not begin at a page boundary, and unmapped again. -/
theorem unaligned_range_seen :
    ∃ s₁ s₂, bootWindow.vmAllocAddr bootVm 0x100000 0x5123 vmCommonFlags 0x2000 = some (0x1123, s₁) ∧
      bootWindow.resolve s₁ 0x100000 0x2123 = some 0x6123 ∧ bootWindow.vmFreeAddr s₁ 0x100000 0x1123 0x2000 = some s₂ ∧
      bootWindow.resolve s₂ 0x100000 0x2123 = bootWindow.resolve bootVm 0x100000 0x2123 := by
  have hfind : (bootWindow.vmFindRange bootVm 0x100000 3).all (fun r => ∀ k < 3, r.1 / 4096 + k < 1048576 ∧
      ¬bootWindow.OnWindow bootVm 0x100000 (r.1 / 4096 + k) ∧ pageMap bootVm 0x100000 (r.1 / 4096 + k) = none) = true := by
    decide +kernel
  have hfinds : FindsUnmapped bootWindow bootVm 0x100000 (numPages (alignSize 0x5123 0x2000)) := by
    intro vstart sf h
    rw [show numPages (alignSize 0x5123 0x2000) = 3 by decide] at h ⊢
    rw [h] at hfind
    exact of_decide_eq_true hfind
  have hrun : (bootWindow.vmAllocAddr bootVm 0x100000 0x5123 vmCommonFlags 0x2000).any
      (fun r => r.1 = 0x1123 ∧ (bootWindow.vmFreeAddr r.2 0x100000 0x1123 0x2000).isSome) = true := by decide +kernel
  obtain ⟨⟨v, s₁⟩, halloc, hr⟩ := (Option.any_eq_true _ _).mp hrun
  obtain ⟨rfl, hsome⟩ := of_decide_eq_true hr
  obtain ⟨s₂, hfree⟩ := Option.isSome_iff_exists.mp hsome
  have hseen := (vmAllocAddr_iff bootWindow bootVm s₁ 0x100000 0x5123 0x2000 0x1123 vmCommonFlags bootVm_ok (by decide) (by decide)
    (by decide) hfinds halloc).mpr (by decide)
  exact ⟨s₁, s₂, halloc, (hseen.seen 0x1000 (by decide)).2, hfree, hseen.freed s₂ hfree 0x2123 (by decide)⟩

/-- For a size that is rounded up to 2^32, no page is mapped at the address that is returned. -/
theorem large_range_not_seen :
    bootWindow.Ok bootVm 0x100000 ∧ FindsUnmapped bootWindow bootVm 0x100000 (numPages (alignSize 0x5000 0xFFFFF001)) ∧
    ∃ s₁, bootWindow.vmAllocAddr bootVm 0x100000 0x5000 vmCommonFlags 0xFFFFF001 = some (0x1000, s₁) ∧
      bootWindow.resolve s₁ 0x100000 0x1000 = some 0 ∧ ¬SeenAt bootWindow bootVm s₁ 0x100000 0x5000 0xFFFFF001 0x1000 := by
  have hnum : numPages (alignSize 0x5000 0xFFFFF001) = 0 := by decide
  have hrun : (bootWindow.vmAllocAddr bootVm 0x100000 0x5000 vmCommonFlags 0xFFFFF001).any
      (fun r => r.1 = 0x1000 ∧ bootWindow.resolve r.2 0x100000 0x1000 = some 0) = true := by decide +kernel
  obtain ⟨⟨v, s₁⟩, halloc, hr⟩ := (Option.any_eq_true _ _).mp hrun
  obtain ⟨rfl, hresolve⟩ := of_decide_eq_true hr
  refine ⟨bootVm_ok, ?_, s₁, halloc, hresolve, fun hseen => ?_⟩
  · intro vstart sf _ k hk
    rw [hnum] at hk
    exact absurd hk (Nat.not_lt_zero k)
  · have hfirst := (hseen.seen 0 (by decide)).2
    rw [Nat.add_zero, hresolve] at hfirst
    exact absurd hfirst (by decide)

end Kos
