import Kos.Mm.Window
import Kos.Lemmas.PageMap

/-!
# Mapping pages through the working window

Off the page of the window, the functions of `Kos.Mm.Window` do what those of `Kos.Mm.Virt` do (`doMap_refines`): the two states
differ only in the entry of the window. On the page of the window nothing but this entry changes.
-/

namespace Kos

namespace Window

variable (w : Window)

/-- The flags that `map_working_table` gives the window. -/
def windowFlags : Entry := pePresent ||| peReadWrite ||| peCachedisable

/-- The window shows this page table. -/
def Shows (s : Vm) (tab : Nat) : Prop :=
  w.pagingEnabled = true → s.tabs w.workingTableMap (ptabIndex mapTableVaddr) = mkEntry tab windowFlags

/-- The entry that `map_working_table` writes. -/
def IsEntry (f i : Nat) : Prop := w.pagingEnabled = true ∧ f = w.workingTableMap ∧ i = ptabIndex mapTableVaddr

/-- The page of the directory that is mapped by this entry. -/
def OnWindow (s : Vm) (pdir page : Nat) : Prop :=
  present (s.tabs pdir (page / 1024)) = true ∧ w.IsEntry (getaddr (s.tabs pdir (page / 1024))) (page % 1024)

/-- The tables are the same but for this entry. -/
structure Near (s vm : Vm) : Prop where
  mm : s.mm = vm.mm
  tabs : ∀ f i, ¬w.IsEntry f i → s.tabs f i = vm.tabs f i

/-- The whole states are. -/
structure Same (s vm : Vm) : Prop extends w.Near s vm where
  kernelPdir : s.kernelPdir = vm.kernelPdir
  kpdirRev : s.kpdirRev = vm.kpdirRev

/-- The directory that is loaded has `working_table_map` as its table for `MAP_TABLE_VADDR`. Both are in use, and they are neither
each other nor, one as a table and the other as the directory, parts of `pdir`. -/
structure Loaded (s : Vm) (pdir : Nat) : Prop where
  map_used : isFree s.mm.mmap w.workingTableMap = false
  map_ne : w.workingTableMap ≠ pdir
  cr3_used : isFree s.mm.mmap w.cr3 = false
  cr3_ne : w.cr3 ≠ w.workingTableMap
  cr3_table : ¬IsTable s pdir w.cr3
  pde : present (s.tabs w.cr3 (pdirIndex mapTableVaddr)) = true
  pde_addr : getaddr (s.tabs w.cr3 (pdirIndex mapTableVaddr)) = w.workingTableMap

/-- A page directory whose tables are in different frames, none of them free, and that can be reached through the window. -/
structure Ok (s : Vm) (pdir : Nat) : Prop extends PdirOk s pdir where
  loaded : w.pagingEnabled = true → w.Loaded s pdir

end Window

namespace WindowAux

open PageMapAux

variable {w : Window} {s s' vm : Vm} {pdir paddr v page : Nat} {flags : Entry} {force : Bool}

theorem Same.refl (w : Window) (s : Vm) : w.Same s s := ⟨⟨rfl, fun _ _ _ => rfl⟩, rfl, rfl⟩

/-! ## The window -/

theorem frameAt_congr {addr : Nat}
    (h : w.pagingEnabled = true → s'.tabs w.cr3 (pdirIndex addr) = s.tabs w.cr3 (pdirIndex addr) ∧
      s'.tabs (getaddr (s.tabs w.cr3 (pdirIndex addr))) = s.tabs (getaddr (s.tabs w.cr3 (pdirIndex addr)))) :
    w.frameAt s' addr = w.frameAt s addr := by
  unfold Window.frameAt
  split_ifs with hpaging
  · obtain ⟨hpde, htab⟩ := h hpaging
    rw [getPtabEntry, getPtabEntry, hpde, htab]
  · rfl

/-- A table that is put into the window is found there. -/
theorem mapWorkingTable_spec {tab : Nat}
    (hpde : w.pagingEnabled = true → w.cr3 ≠ w.workingTableMap ∧ present (s.tabs w.cr3 (pdirIndex mapTableVaddr)) = true ∧
      getaddr (s.tabs w.cr3 (pdirIndex mapTableVaddr)) = w.workingTableMap) (ha : tab % 4096 = 0) (hlt : tab < 4294967296) :
    ∃ ptab s', w.mapWorkingTable s tab = (ptab, s') ∧ w.Same s' s ∧ w.frameAt s' ptab = some tab ∧ w.Shows s' tab ∧
      (w.pagingEnabled = true → ptab = mapTableVaddr) := by
  unfold Window.mapWorkingTable Window.frameAt
  split_ifs with hpaging
  · obtain ⟨hne, hp, haddr⟩ := hpde hpaging
    refine ⟨_, _, rfl, ⟨⟨rfl, ?_⟩, rfl, rfl⟩, ?_, fun _ => ?_, fun _ => rfl⟩
    · intro f i hentry
      rw [setEntry_tabs, if_neg (fun he => hentry ⟨hpaging, he⟩)]
    · have hpte : present (mkEntry tab (pePresent ||| peReadWrite ||| peCachedisable)) = true := by
        rw [present_mkEntry ha]
        rfl
      have hfound : getPtabEntry (s.setEntry w.workingTableMap (ptabIndex mapTableVaddr)
          (mkEntry tab (pePresent ||| peReadWrite ||| peCachedisable))) w.cr3 mapTableVaddr =
          mkEntry tab (pePresent ||| peReadWrite ||| peCachedisable) := by
        simp only [getPtabEntry, setEntry_tabs, hne, false_and, if_false, bnotset_eq, hp, haddr, Bool.not_true, Bool.false_eq_true,
          and_self, if_true, hpte]
      simp only [hfound, hpte, if_true, getaddr_mkEntry ha hlt (by decide : (pePresent ||| peReadWrite ||| peCachedisable).toNat < 4096)]
    · rw [setEntry_tabs, if_pos ⟨rfl, rfl⟩, Window.windowFlags]
  · exact ⟨tab, s, rfl, Same.refl w s, rfl, fun h => absurd h hpaging, fun h => absurd h hpaging⟩

theorem loaded_pde (hok : w.Ok s pdir) (hpaging : w.pagingEnabled = true) :
    w.cr3 ≠ w.workingTableMap ∧ present (s.tabs w.cr3 (pdirIndex mapTableVaddr)) = true ∧
      getaddr (s.tabs w.cr3 (pdirIndex mapTableVaddr)) = w.workingTableMap :=
  ⟨(hok.loaded hpaging).cr3_ne, (hok.loaded hpaging).pde, (hok.loaded hpaging).pde_addr⟩

/-- The table of a page is put into the window. -/
theorem mapWorkingTable_getaddr (hok : w.Ok s pdir) (e : Entry) :
    ∃ ptab s', w.mapWorkingTable s (getaddr e) = (ptab, s') ∧ w.Same s' s ∧ w.frameAt s' ptab = some (getaddr e) ∧
      w.Shows s' (getaddr e) := by
  obtain ⟨ptab, s', hmap, hsame, hframe, hshows, -⟩ := mapWorkingTable_spec (loaded_pde hok) (getaddr_mod e) (getaddr_lt e)
  exact ⟨ptab, s', hmap, hsame, hframe, hshows⟩

/-! ## Refinement -/

theorem same_setEntry (h : w.Same s vm) (f i : Nat) (e : Entry) : w.Same (s.setEntry f i e) (vm.setEntry f i e) := by
  refine ⟨⟨h.mm, ?_⟩, h.kernelPdir, h.kpdirRev⟩
  intro f' i' hentry
  rw [setEntry_tabs, setEntry_tabs, h.tabs f' i' hentry]

theorem same_clearTab (h : w.Same s vm) (f : Nat) : w.Same (s.clearTab f) (vm.clearTab f) := by
  refine ⟨⟨h.mm, ?_⟩, h.kernelPdir, h.kpdirRev⟩
  intro f' i' hentry
  rw [clearTab_tabs, clearTab_tabs, h.tabs f' i' hentry]

theorem same_countRev (h : w.Same s vm) (hs : s.countRev pdir = some s') : ∃ vm', vm.countRev pdir = some vm' ∧ w.Same s' vm' := by
  unfold Vm.countRev at hs ⊢
  rw [h.kernelPdir, h.kpdirRev] at hs
  split_ifs at hs ⊢ <;> cases hs
  · exact ⟨_, rfl, ⟨h.mm, h.tabs⟩, rfl, rfl⟩
  · exact ⟨_, rfl, h⟩

/-- A new table is in a free page. -/
theorem tableFor_create {mm : Mm} {frame ptab : Nat} (hok : w.Ok s pdir) (hp : present (s.tabs pdir (pdirIndex v)) = false)
    (halloc : mmAllocPage s.mm = (frame, mm)) (hne : frame ≠ noPage) (h : w.tableFor s pdir v flags = some (ptab, s')) :
    w.Same s' (({ s with mm := mm }.setEntry pdir (pdirIndex v) (mkEntry frame flags)).clearTab frame) ∧
      w.frameAt s' ptab = some frame ∧ w.Shows s' frame := by
  obtain ⟨ha, hlt, hfree, -⟩ := mmAllocPage_spec halloc hne
  simp only [Window.tableFor, bnotset_eq, hp, Bool.not_false, if_true, halloc, if_neg hne] at h
  generalize hs₁ : { s with mm := mm }.setEntry pdir (pdirIndex v) (mkEntry frame flags) = s₁ at h ⊢
  have hcr3 : w.pagingEnabled = true → s₁.tabs w.cr3 (pdirIndex mapTableVaddr) = s.tabs w.cr3 (pdirIndex mapTableVaddr) := by
    intro hpaging
    rw [← hs₁, setEntry_tabs, if_neg]
    rintro ⟨hdir, hidx⟩
    have hpde := (hok.loaded hpaging).pde
    rw [hdir, hidx, hp] at hpde
    cases hpde
  obtain ⟨ptab', s₂, hmap, hsame, hframe, hshows, hwindow⟩ := mapWorkingTable_spec (s := s₁)
    (fun hpaging => by rw [hcr3 hpaging]; exact loaded_pde hok hpaging) ha hlt
  simp only [hmap, Window.clear, hframe, Option.map_some, Option.some.injEq, Prod.mk.injEq] at h
  obtain ⟨rfl, rfl⟩ := h
  refine ⟨same_clearTab hsame frame, Eq.trans (frameAt_congr ?_) hframe, ?_⟩
  · -- the new table is neither the loaded directory nor the working table map
    intro hpaging
    have hloaded := hok.loaded hpaging
    have hcr3' : s₂.tabs w.cr3 (pdirIndex mapTableVaddr) = s.tabs w.cr3 (pdirIndex mapTableVaddr) := by
      rw [hsame.tabs _ _ (fun he => hloaded.cr3_ne he.2.1), hcr3 hpaging]
    rw [hwindow hpaging, hcr3', hloaded.pde_addr]
    refine ⟨?_, ?_⟩
    · rw [clearTab_tabs, if_neg (ne_of_used hfree hloaded.cr3_used), hcr3']
    · funext i
      rw [clearTab_tabs, if_neg (ne_of_used hfree hloaded.map_used)]
  · intro hpaging
    rw [clearTab_tabs, if_neg (ne_of_used hfree (hok.loaded hpaging).map_used)]
    exact hshows hpaging

/-- The table for an address is the same one, and the window shows it. -/
theorem tableFor_refines {ptab : Nat} (hok : w.Ok s pdir) (h : w.tableFor s pdir v flags = some (ptab, s')) :
    ∃ frame vm, tableFor s pdir v flags = some (frame, vm) ∧ w.Same s' vm ∧ w.frameAt s' ptab = some frame ∧
      w.Shows s' frame := by
  cases hp : present (s.tabs pdir (pdirIndex v)) with
  | true =>
    obtain ⟨ptab', s₁, hmap, hsame, hframe, hshows⟩ := mapWorkingTable_getaddr hok (s.tabs pdir (pdirIndex v))
    simp only [Window.tableFor, bnotset_eq, hp, Bool.not_true, Bool.false_eq_true, if_false, hmap, Option.some.injEq,
      Prod.mk.injEq] at h
    obtain ⟨rfl, rfl⟩ := h
    exact ⟨_, s, tableFor_of_present flags hp, hsame, hframe, hshows⟩
  | false =>
    rcases hpage : mmAllocPage s.mm with ⟨frame, mm⟩
    by_cases hne : frame = noPage
    · simp only [Window.tableFor, bnotset_eq, hp, Bool.not_false, if_true, hpage, if_pos hne] at h
      cases h
    · obtain ⟨hsame, hframe, hshows⟩ := tableFor_create hok hp hpage hne h
      refine ⟨frame, _, ?_, hsame, hframe, hshows⟩
      rw [tableFor_of_absent flags hp, hpage, if_neg hne]

/-- What mapping a page does when its table is in the window. -/
theorem doMap_window (h : w.doMap s pdir paddr v flags force = some s') :
    isPageAligned v = true ∧ isPageAligned paddr = true ∧ ∃ ptab s₁, w.tableFor s pdir v flags = some (ptab, s₁) ∧
      ∀ frame, w.frameAt s₁ ptab = some frame →
        (if !force && present (s₁.tabs frame (ptabIndex v)) && present flags then
          if s₁.tabs frame (ptabIndex v) &&& ~~~(peAccessed ||| ptDirty) ≠ mkEntry paddr flags then none else some s₁
        else (s₁.setEntry frame (ptabIndex v) (mkEntry paddr flags)).countRev pdir) = some s' := by
  unfold Window.doMap at h
  split_ifs at h with hv hpaddr
  obtain ⟨⟨ptab, s₁⟩, htable, h⟩ := Option.bind_eq_some_iff.mp h
  obtain ⟨pte, hload, h⟩ := Option.bind_eq_some_iff.mp h
  refine ⟨by simpa using hv, by simpa using hpaddr, ptab, s₁, htable, ?_⟩
  intro frame hframe
  simp only [Window.load, Window.store, hframe, Option.map_some, Option.some.injEq, Option.bind_some] at hload h
  subst hload
  exact h

theorem doMap_refines (hok : w.Ok s pdir) (hoff : ¬w.OnWindow s pdir (v / 4096))
    (h : w.doMap s pdir paddr v flags force = some s') : ∃ vm, doMap s pdir paddr v flags force = some vm ∧ w.Same s' vm := by
  obtain ⟨hva, hpa, ptab, s₁, htable, hmap⟩ := doMap_window h
  obtain ⟨frame, vm₁, htable', hsame, hframe, -⟩ := tableFor_refines hok htable
  have hentry : ¬w.IsEntry frame (ptabIndex v) := by
    rintro ⟨hpaging, rfl, hidx⟩
    rcases tableFor_cases htable' with ⟨hp, haddr, -⟩ | ⟨-, -, -, hfree, -⟩
    · exact hoff ⟨hp, hpaging, haddr.symm, hidx⟩
    · rw [(hok.loaded hpaging).map_used] at hfree
      cases hfree
  have hmap := hmap frame hframe
  rw [hsame.tabs _ _ hentry] at hmap
  rw [doMap, hva, hpa]
  simp only [Bool.not_true, Bool.false_eq_true, if_false, htable', Option.bind_eq_bind, Option.bind_some]
  split_ifs at hmap ⊢
  · cases hmap
    exact ⟨vm₁, rfl, hsame⟩
  · exact same_countRev (same_setEntry hsame _ _ _) hmap

/-- On the page of the window only its entry is written. -/
theorem doMap_onWindow (hok : w.Ok s pdir) (hon : w.OnWindow s pdir (v / 4096))
    (h : w.doMap s pdir paddr v flags force = some s') : w.Near s' s := by
  obtain ⟨-, -, ptab, s₁, htable, hmap⟩ := doMap_window h
  obtain ⟨frame, vm₁, htable', hsame, hframe, -⟩ := tableFor_refines hok htable
  obtain ⟨hp, hentry⟩ := hon
  rcases tableFor_cases htable' with ⟨-, rfl, rfl⟩ | ⟨hno, -⟩
  · have hmap := hmap _ hframe
    split_ifs at hmap
    · cases hmap
      exact hsame.toNear
    · obtain ⟨hmm, htabs, -⟩ := countRev_some hmap
      refine ⟨hmm.trans hsame.mm, ?_⟩
      intro f i hne
      rw [htabs, setEntry_tabs, if_neg, hsame.tabs f i hne]
      rintro ⟨rfl, rfl⟩
      exact hne hentry
  · rw [page_div, hno] at hp
    cases hp

/-! ## The map -/

theorem near_dir (hnear : w.Near s' vm) (hne : w.pagingEnabled = true → w.workingTableMap ≠ pdir) (i : Nat) :
    s'.tabs pdir i = vm.tabs pdir i := hnear.tabs pdir i fun he => hne he.1 he.2.1.symm

theorem near_pageMap (hnear : w.Near s' vm) (hne : w.pagingEnabled = true → w.workingTableMap ≠ pdir)
    (hoff : ¬w.OnWindow vm pdir page) : pageMap s' pdir page = pageMap vm pdir page := by
  refine pageMap_congr (pageEntry_congr (near_dir hnear hne _) ?_)
  intro hp
  exact hnear.tabs _ _ fun he => hoff ⟨hp, he⟩

/-- A frame that is in use becomes a table of the directory only if it was one. -/
theorem isTable_of_widens {f : Nat} (hwidens : Widens s vm pdir) (hused : isFree s.mm.mmap f = false) (h : IsTable vm pdir f) :
    IsTable s pdir f := by
  obtain ⟨i, hi, hp, rfl⟩ := h
  rcases hwidens.added i hi hp with hp' | hfree
  · exact ⟨i, hi, hp', by rw [hwidens.kept i hi hp']⟩
  · rw [hused] at hfree
    cases hfree

/-- The directory that is loaded stays as it was for the window. -/
theorem loaded_widens (hloaded : w.Loaded s pdir) (hwidens : Widens s vm pdir) (hnear : w.Near s' vm) : w.Loaded s' pdir := by
  have hdir := near_dir hnear fun _ => hloaded.map_ne
  have hpde : s'.tabs w.cr3 (pdirIndex mapTableVaddr) = s.tabs w.cr3 (pdirIndex mapTableVaddr) := by
    rw [hnear.tabs _ _ fun he => hloaded.cr3_ne he.2.1]
    by_cases he : w.cr3 = pdir
    · have hpde := hloaded.pde
      rw [he] at hpde ⊢
      exact hwidens.kept _ (by decide) hpde
    · exact hwidens.others _ _ hloaded.cr3_used he hloaded.cr3_table
  refine ⟨?_, hloaded.map_ne, ?_, hloaded.cr3_ne, ?_, hpde ▸ hloaded.pde, hpde ▸ hloaded.pde_addr⟩
  · rw [hnear.mm]
    exact hwidens.used _ hloaded.map_used
  · rw [hnear.mm]
    exact hwidens.used _ hloaded.cr3_used
  · rintro ⟨i, hi, hp, haddr⟩
    rw [hdir] at hp haddr
    exact hloaded.cr3_table (isTable_of_widens hwidens hloaded.cr3_used ⟨i, hi, hp, haddr⟩)

theorem map_ne_of_ok (hok : w.Ok s pdir) (hpaging : w.pagingEnabled = true) : w.workingTableMap ≠ pdir := (hok.loaded hpaging).map_ne

theorem ok_widens (hok : w.Ok s pdir) (hok' : PdirOk vm pdir) (hwidens : Widens s vm pdir) (hnear : w.Near s' vm) : w.Ok s' pdir :=
  ⟨hok'.congr hnear.mm (funext (near_dir hnear (map_ne_of_ok hok))), fun hpaging => loaded_widens (hok.loaded hpaging) hwidens hnear⟩

/-- The page of the window is the same one. -/
theorem onWindow_widens (hok : w.Ok s pdir) (hwidens : Widens s vm pdir) (hnear : w.Near s' vm) (hpage : page < 1048576) :
    w.OnWindow s' pdir page ↔ w.OnWindow s pdir page := by
  have hi := page_div_lt hpage
  unfold Window.OnWindow
  rw [near_dir hnear (map_ne_of_ok hok)]
  constructor
  · rintro ⟨hp, hentry⟩
    rcases hwidens.added _ hi hp with hp' | hfree
    · rw [hwidens.kept _ hi hp'] at hentry
      exact ⟨hp', hentry⟩
    · rw [hentry.2.1, (hok.loaded hentry.1).map_used] at hfree
      cases hfree
  · rintro ⟨hp, hentry⟩
    rw [hwidens.kept _ hi hp]
    exact ⟨hp, hentry⟩

/-- What mapping a page makes of the map, off the page of the window. -/
theorem doMap_spec (hok : w.Ok s pdir) (hv : v < 4294967296) (hpaddr : paddr < 4294967296) (hf : flags.toNat < 4096)
    (h : w.doMap s pdir paddr v flags force = some s') :
    w.Ok s' pdir ∧ (∀ page < 1048576, w.OnWindow s' pdir page ↔ w.OnWindow s pdir page) ∧
      (¬w.OnWindow s pdir (v / 4096) → clean (pageMap s' pdir (v / 4096)) = clean (given paddr flags)) ∧
      ∀ page < 1048576, page ≠ v / 4096 → ¬w.OnWindow s pdir page → pageMap s' pdir page = pageMap s pdir page := by
  have hne := map_ne_of_ok hok
  by_cases hon : w.OnWindow s pdir (v / 4096)
  · have hnear := doMap_onWindow hok hon h
    have hwidens := Widens.refl s pdir
    refine ⟨ok_widens hok hok.toPdirOk hwidens hnear, fun _ hpage => onWindow_widens hok hwidens hnear hpage, fun hoff => absurd hon hoff, ?_⟩
    intro page _ _ hoff
    exact near_pageMap hnear hne hoff
  · obtain ⟨vm, hmap, hsame⟩ := doMap_refines hok hon h
    obtain ⟨hok', hwidens, hself, hothers⟩ := doMap_pageMap hok.toPdirOk hv hpaddr hf hmap
    have hwindow : ∀ page < 1048576, w.OnWindow s' pdir page ↔ w.OnWindow s pdir page := fun _ hpage =>
      onWindow_widens hok hwidens hsame.toNear hpage
    have hpages : ∀ page < 1048576, ¬w.OnWindow s pdir page → pageMap s' pdir page = pageMap vm pdir page := by
      intro page hpage hoff
      refine near_pageMap hsame.toNear hne ?_
      rwa [onWindow_widens hok hwidens (Same.refl w vm).toNear hpage]
    refine ⟨ok_widens hok hok' hwidens hsame.toNear, hwindow, ?_, ?_⟩
    · intro _
      rw [hpages _ (by omega) hon]
      exact hself
    · intro page hpage hother hoff
      rw [hpages page hpage hoff]
      exact hothers page hpage hother

/-- `vm_resolve_virt` writes nothing but the entry of the window. -/
theorem vmResolveVirt_spec (hok : w.Ok s pdir) (v : Nat) :
    ∃ addr s', w.vmResolveVirt s pdir v = some (addr, s') ∧ w.Same s' s ∧
      (¬w.OnWindow s pdir (v / 4096) → addr = vmResolveVirt s pdir v) := by
  cases hp : present (s.tabs pdir (pdirIndex v)) with
  | false =>
    refine ⟨0, s, ?_, Same.refl w s, fun _ => ?_⟩
    · simp only [Window.vmResolveVirt, Window.getPtabEntry, bnotset_eq, hp, Bool.not_false, if_true, Option.map_some]
      rfl
    · simp only [vmResolveVirt, getPtabEntry, bnotset_eq, hp, Bool.not_false, if_true]
      rfl
  | true =>
    obtain ⟨ptab, s', hmap, hsame, hframe, -⟩ := mapWorkingTable_getaddr hok (s.tabs pdir (pdirIndex v))
    simp only [Window.vmResolveVirt, Window.getPtabEntry, bnotset_eq, hp, Bool.not_true, Bool.false_eq_true, if_false, hmap, Window.load,
      hframe, Option.map_some]
    refine ⟨_, s', rfl, hsame, ?_⟩
    intro hoff
    have hpte : s'.tabs (getaddr (s.tabs pdir (pdirIndex v))) (ptabIndex v) =
        s.tabs (getaddr (s.tabs pdir (pdirIndex v))) (ptabIndex v) := hsame.tabs _ _ fun he => hoff ⟨hp, he⟩
    simp only [vmResolveVirt, getPtabEntry, bnotset_eq, hp, Bool.not_true, Bool.false_eq_true, if_false, hpte]

end WindowAux

end Kos
