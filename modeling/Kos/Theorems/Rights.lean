import Kos.Theorems.PageMap

/-!
# The rights of a mapped page

The processor lets a page be written, or be accessed by user programs, only if both the entry of the directory and that of the table
say so. `do_map` writes its flags into the entry of the directory only when it creates the table, so the rights of a page depend
on which page of the same 4 MiB was mapped first (`mapped_rights_iff`).
-/

namespace Kos

/-- Read and write access, and access by user programs, as an entry gives them. -/
def rightsOf (e : Entry) : Bool × Bool := (bisset e peReadWrite, bisset e peUserMode)

/-- The rights that the processor grants at a page, if it is mapped. -/
def rights (s : Vm) (pdir page : Nat) : Option (Bool × Bool) :=
  let pde := s.tabs pdir (page / 1024)
  (pageMap s pdir page).map fun (_, flags) =>
    ((rightsOf pde).1 && (rightsOf flags).1, (rightsOf pde).2 && (rightsOf flags).2)

/-- The entry of the directory is still to be written, or it has the rights of the flags. -/
def Admits (pde flags : Entry) : Prop :=
  present pde = true →
    ((rightsOf flags).1 = true → (rightsOf pde).1 = true) ∧ ((rightsOf flags).2 = true → (rightsOf pde).2 = true)

instance (pde flags : Entry) : Decidable (Admits pde flags) := inferInstanceAs (Decidable (_ → _))

/-- The calls `vm_map_page` and `vm_map_range` with flags that contain `PE_PRESENT`. -/
def VmCall.MapsPresent : VmCall → Prop
  | mapPage paddr vaddr flags => (mapPage paddr vaddr flags).Valid ∧ present flags = true
  | mapRange pstart vstart flags num => (mapRange pstart vstart flags num).Valid ∧ present flags = true
  | _ => False

instance : (c : VmCall) → Decidable c.MapsPresent
  | .mapPage paddr vaddr flags => inferInstanceAs (Decidable ((VmCall.mapPage paddr vaddr flags).Valid ∧ present flags = true))
  | .mapRange pstart vstart flags num =>
    inferInstanceAs (Decidable ((VmCall.mapRange pstart vstart flags num).Valid ∧ present flags = true))
  | .forceMap .. | .unmapPage .. | .unmapRange .. | .resolveVirt .. => inferInstanceAs (Decidable False)

namespace RightsAux

open WindowAux PageMapAux

variable {w : Window} {s s' : Vm} {pdir paddr v : Nat} {flags f : Entry} {force : Bool}

/-! ## The bits of an entry -/

theorem bisset_and {e mask bit : Entry} (h : mask &&& bit = bit) : bisset (e &&& mask) bit = bisset e bit := by
  rw [bisset, BitVec.and_assoc, h, bisset]

theorem rightsOf_getflags (e : Entry) : rightsOf (getflags e) = rightsOf e := by
  rw [rightsOf, getflags, bisset_and (by decide), bisset_and (by decide), rightsOf]

theorem rightsOf_mkEntry (ha : paddr % 4096 = 0) (hlt : paddr < 4294967296) (hf : flags.toNat < 4096) :
    rightsOf (mkEntry paddr flags) = rightsOf flags := by
  rw [← rightsOf_getflags, getflags_mkEntry ha hlt hf]

/-- The bits of the processor are none of these. -/
theorem rightsOf_clean (e : Entry) : rightsOf (e &&& ~~~(peAccessed ||| ptDirty)) = rightsOf e := by
  rw [rightsOf, bisset_and (by decide), bisset_and (by decide), rightsOf]

/-! ## The entry of the directory -/

theorem tabs_dir_of_doMap {ptab : Nat} {s₁ : Vm} (hok : PdirOk s pdir) (ht : TableOk s s₁ pdir v ptab flags)
    (h : s' = s₁ ∨ ∃ e, ∀ f i, s'.tabs f i = if f = ptab ∧ i = ptabIndex v then e else s₁.tabs f i) (i : Nat) :
    s'.tabs pdir i = s₁.tabs pdir i := by
  rcases h with rfl | ⟨e, htabs⟩
  · rfl
  · exact written_dir hok ht htabs i

/-- An entry of the directory is written only when there is no table for the address. -/
theorem doMap_dir (hok : w.Ok s pdir) (hv : v < 4294967296) (hf : flags.toNat < 4096)
    (h : w.doMap s pdir paddr v flags force = some s') :
    (∀ i, i ≠ pdirIndex v ∨ present (s.tabs pdir i) = true → s'.tabs pdir i = s.tabs pdir i) ∧
      (present (s.tabs pdir (pdirIndex v)) = false →
        ∃ ptab, ptab % 4096 = 0 ∧ ptab < 4294967296 ∧ s'.tabs pdir (pdirIndex v) = mkEntry ptab flags) := by
  by_cases hon : w.OnWindow s pdir (v / 4096)
  · have hdir := near_dir (doMap_onWindow hok hon h) (map_ne_of_ok hok)
    refine ⟨fun i _ => hdir i, fun hno => ?_⟩
    have hp := hon.1
    rw [page_div, hno] at hp
    cases hp
  · obtain ⟨vm, hmap, hsame⟩ := doMap_refines hok hon h
    obtain ⟨-, -, ptab, s₁, htable, hcases⟩ := doMap_cases hmap
    have ht := tableFor_spec hok.toPdirOk hv hf htable
    have hwrite : vm = s₁ ∨ ∃ e, ∀ f i, vm.tabs f i = if f = ptab ∧ i = ptabIndex v then e else s₁.tabs f i := by
      rcases hcases with ⟨-, -, -, -, rfl⟩ | ⟨-, -, -, htabs⟩
      · exact .inl rfl
      · exact .inr ⟨_, htabs⟩
    have hdir : ∀ i, s'.tabs pdir i = s₁.tabs pdir i := fun i => by
      rw [near_dir hsame.toNear (map_ne_of_ok hok), tabs_dir_of_doMap hok.toPdirOk ht hwrite]
    rcases tableFor_cases htable with ⟨hp, -, rfl⟩ | ⟨hp, ha, hlt, hfree, -, -, htabs⟩
    · refine ⟨fun i _ => hdir i, fun hno => ?_⟩
      rw [hp] at hno
      cases hno
    · have hnew := created_dir hok.toPdirOk hfree htabs
      refine ⟨fun i hi => ?_, fun _ => ⟨ptab, ha, hlt, by rw [hdir, hnew, if_pos rfl]⟩⟩
      rw [hdir, hnew, if_neg]
      rintro rfl
      rcases hi with hi | hi
      · exact hi rfl
      · rw [hp] at hi
        cases hi

/-- When some pages are mapped with the same flags, each entry of the directory stays, or it is created with these flags. -/
theorem mapAll_dir (hok : w.Ok s pdir) (ms : List Mapping)
    (hvalid : ∀ m ∈ ms, m.vaddr < 4294967296 ∧ m.paddr < 4294967296 ∧ m.flags.toNat < 4096) (hflags : ∀ m ∈ ms, m.flags = f)
    (hpresent : present f = true) (h : ms.foldlM (fun s m => w.doMap s pdir m.paddr m.vaddr m.flags force) s = some s') (i : Nat) :
    (present (s.tabs pdir i) = true → s'.tabs pdir i = s.tabs pdir i) ∧
      (present (s.tabs pdir i) = false → (∃ m ∈ ms, m.page / 1024 = i) → rightsOf (s'.tabs pdir i) = rightsOf f) := by
  induction ms generalizing s with
  | nil =>
    cases h
    refine ⟨fun _ => rfl, ?_⟩
    rintro - ⟨m, hm, -⟩
    cases hm
  | cons m ms ih =>
    obtain ⟨s₁, hmap, hrest⟩ := Option.bind_eq_some_iff.mp h
    obtain ⟨hv, hp, hf⟩ := hvalid m List.mem_cons_self
    obtain ⟨hkept, hnew⟩ := doMap_dir hok hv hf hmap
    have hok₁ := (doMap_spec hok hv hp hf hmap).1
    obtain ⟨hkept', hnew'⟩ := ih hok₁ (fun m' hm' => hvalid m' (List.mem_cons_of_mem _ hm'))
      (fun m' hm' => hflags m' (List.mem_cons_of_mem _ hm')) hrest
    refine ⟨fun hpi => ?_, fun hpi hex => ?_⟩
    · have hsame := hkept i (.inr hpi)
      rw [hkept' (by rw [hsame]; exact hpi), hsame]
    · by_cases hi : i = pdirIndex m.vaddr
      · subst hi
        obtain ⟨ptab, ha, hlt, hpde⟩ := hnew hpi
        rw [hflags m List.mem_cons_self] at hpde hf
        rw [hkept' (by rw [hpde, present_mkEntry ha]; exact hpresent), hpde, rightsOf_mkEntry ha hlt hf]
      · have hsame := hkept i (.inl hi)
        obtain ⟨m', hm', he⟩ := hex
        refine hnew' (by rw [hsame]; exact hpi) ⟨m', (List.mem_cons.mp hm').resolve_left ?_, he⟩
        rintro rfl
        exact hi he.symm

/-! ## The page of the window -/

/-- The window shows some page table. -/
def WindowSet (w : Window) (s : Vm) : Prop := ∃ tab, tab % 4096 = 0 ∧ tab < 4294967296 ∧ w.Shows s tab

/-- The page of the window can only be mapped as it is. -/
theorem doMap_windowSet (hok : w.Ok s pdir) (hpaddr : paddr < 4294967296) (hf : flags.toNat < 4096) (hflags : present flags = true)
    (h : w.doMap s pdir paddr v flags false = some s') :
    WindowSet w s' ∧ (w.OnWindow s pdir (v / 4096) → flags = Window.windowFlags) := by
  obtain ⟨-, hpa, ptab, s₁, htable, hmap⟩ := doMap_window h
  obtain ⟨frame, vm, htable', hsame, hframe, hshows⟩ := tableFor_refines hok htable
  have hmap := hmap frame hframe
  have ha : paddr % 4096 = 0 := (isPageAligned_iff paddr).mp hpa
  have htab : frame % 4096 = 0 ∧ frame < 4294967296 := by
    rcases tableFor_cases htable' with ⟨-, rfl, -⟩ | ⟨-, ha, hlt, -⟩
    · exact ⟨getaddr_mod _, getaddr_lt _⟩
    · exact ⟨ha, hlt⟩
  by_cases hentry : w.IsEntry frame (ptabIndex v)
  · obtain ⟨hpaging, hwtm, hidx⟩ := hentry
    have hpte := hshows hpaging
    rw [← hwtm, ← hidx] at hpte
    have hp : present (mkEntry frame Window.windowFlags) = true := by
      rw [present_mkEntry htab.1]
      rfl
    simp only [hpte, hp, hflags, Bool.not_false, Bool.and_self, if_true] at hmap
    split_ifs at hmap with hsameflags
    cases hmap
    refine ⟨⟨frame, htab.1, htab.2, hshows⟩, fun _ => ?_⟩
    have hgiven := getflags_of_same ha hpaddr hf (not_not.mp hsameflags)
    rw [getflags_mkEntry htab.1 htab.2 (by decide)] at hgiven
    rw [← hgiven]
    rfl
  · refine ⟨⟨frame, htab.1, htab.2, ?_⟩, fun hon => absurd ?_ hentry⟩
    · split_ifs at hmap
      · cases hmap
        exact hshows
      · intro hpaging
        rw [(countRev_some hmap).2.1, setEntry_tabs, if_neg (fun he => hentry ⟨hpaging, he.1.symm, he.2.symm⟩)]
        exact hshows hpaging
    · obtain ⟨hp, hwindow⟩ := hon
      rcases tableFor_cases htable' with ⟨-, rfl, -⟩ | ⟨hno, -⟩
      · exact hwindow
      · rw [page_div, hno] at hp
        cases hp

/-- When some pages are mapped, the window shows some table in the end, and its own page is among them only as it is. -/
theorem mapAll_windowSet (hok : w.Ok s pdir) (ms : List Mapping)
    (hvalid : ∀ m ∈ ms, m.vaddr < 4294967296 ∧ m.paddr < 4294967296 ∧ m.flags.toNat < 4096)
    (hpresent : ∀ m ∈ ms, present m.flags = true)
    (h : ms.foldlM (fun s m => w.doMap s pdir m.paddr m.vaddr m.flags false) s = some s') :
    (WindowSet w s ∨ ms ≠ [] → WindowSet w s') ∧ ∀ m ∈ ms, w.OnWindow s pdir m.page → m.flags = Window.windowFlags := by
  induction ms generalizing s with
  | nil =>
    cases h
    exact ⟨fun hset => hset.resolve_right fun hne => hne rfl, fun m hm => by cases hm⟩
  | cons m ms ih =>
    obtain ⟨s₁, hmap, hrest⟩ := Option.bind_eq_some_iff.mp h
    obtain ⟨hv, hp, hf⟩ := hvalid m List.mem_cons_self
    obtain ⟨hset, hself⟩ := doMap_windowSet hok hp hf (hpresent m List.mem_cons_self) hmap
    obtain ⟨hok₁, hwindow, -⟩ := doMap_spec hok hv hp hf hmap
    obtain ⟨hlast, hothers⟩ := ih hok₁ (fun m' hm' => hvalid m' (List.mem_cons_of_mem _ hm'))
      (fun m' hm' => hpresent m' (List.mem_cons_of_mem _ hm')) hrest
    refine ⟨fun _ => hlast (.inl hset), ?_⟩
    intro m' hm' hon
    rcases List.mem_cons.mp hm' with rfl | hm'
    · exact hself hon
    · have hpage : m'.page < 1048576 := by
        have := (hvalid m' (List.mem_cons_of_mem _ hm')).1
        simp only [Mapping.page, pageSize]
        omega
      exact hothers m' hm' ((hwindow _ hpage).mpr hon)

/-- The page of the window has the flags of the window. -/
theorem pageMap_onWindow {page : Nat} (hset : WindowSet w s) (hon : w.OnWindow s pdir page) :
    ∃ frame, pageMap s pdir page = some (frame, Window.windowFlags) := by
  obtain ⟨hp, hpaging, hwtm, hidx⟩ := hon
  obtain ⟨tab, ha, hlt, hshows⟩ := hset
  have hpte := hshows hpaging
  rw [← hwtm, ← hidx] at hpte
  have hpresent : present (mkEntry tab Window.windowFlags) = true := by
    rw [present_mkEntry ha]
    rfl
  refine ⟨tab, ?_⟩
  rw [pageMap, pageEntry, hp, hpte, hpresent]
  simp only [Bool.and_self, if_true, Option.map_some, getaddr_mkEntry ha hlt (by decide : Window.windowFlags.toNat < 4096),
    getflags_mkEntry ha hlt (by decide : Window.windowFlags.toNat < 4096)]

/-! ## A call -/

variable {c : VmCall}

/-- The flags of a call that maps pages. -/
def flagsOf : VmCall → Entry
  | .mapPage _ _ flags => flags
  | .mapRange _ _ flags _ => flags
  | _ => 0#32

/-- Such a call maps its pages one after the other, all with its flags. -/
theorem exec_mapAll (hc : c.MapsPresent) (h : c.exec w pdir s = some s') :
    c.Valid ∧ present (flagsOf c) = true ∧ c.mappings.foldlM (fun s m => w.doMap s pdir m.paddr m.vaddr m.flags false) s = some s' ∧
      ∀ m ∈ c.mappings, (m.vaddr < 4294967296 ∧ m.paddr < 4294967296 ∧ m.flags.toNat < 4096) ∧ m.flags = flagsOf c := by
  cases c with
  | mapPage paddr vaddr flags =>
    obtain ⟨hvalid, hflags⟩ := hc
    refine ⟨hvalid, hflags, ?_, ?_⟩
    · simp only [VmCall.mappings, List.foldlM_cons, List.foldlM_nil]
      exact Option.bind_eq_some_iff.mpr ⟨s', h, rfl⟩
    · intro m hm
      obtain rfl := List.mem_singleton.mp hm
      exact ⟨⟨hvalid.2.1, hvalid.1, hvalid.2.2⟩, rfl⟩
  | mapRange pstart vstart flags num =>
    obtain ⟨hvalid, hflags⟩ := hc
    refine ⟨hvalid, hflags, ?_, ?_⟩
    · simp only [VmCall.exec, Window.vmMapRange] at h
      split_ifs at h
      rw [VmCall.mappings, List.foldlM_map]
      exact h
    · intro m hm
      obtain ⟨i, -, rfl⟩ := List.mem_map.mp hm
      exact ⟨⟨w32_lt _, w32_lt _, hvalid.2.2⟩, rfl⟩
  | forceMap => exact hc.elim
  | unmapPage => exact hc.elim
  | unmapRange => exact hc.elim
  | resolveVirt => exact hc.elim

/-- The entries of the pages have the rights of the flags. -/
theorem exec_flags (hok : w.Ok s pdir) (hc : c.MapsPresent) (h : c.exec w pdir s = some s') {m : Mapping} (hm : m ∈ c.mappings) :
    ∃ frame fl, pageMap s' pdir m.page = some (frame, fl) ∧ rightsOf fl = rightsOf m.flags := by
  obtain ⟨hvalid, hflags, hfold, hall⟩ := exec_mapAll hc h
  have hmaps := exec_maps hok hvalid h
  have hpresent : ∀ m ∈ c.mappings, present m.flags = true := fun m hm => by rw [(hall m hm).2]; exact hflags
  by_cases hon : w.OnWindow s pdir m.page
  · obtain ⟨hset, hsame⟩ := mapAll_windowSet hok c.mappings (fun m hm => (hall m hm).1) hpresent hfold
    have hpage : m.page < 1048576 := by
      have := (hall m hm).1.1
      simp only [Mapping.page, pageSize]
      omega
    obtain ⟨frame, hmap⟩ := pageMap_onWindow (hset (.inr (List.ne_nil_of_mem hm))) ((hmaps.window _ hpage).mpr hon)
    exact ⟨frame, _, hmap, by rw [hsame m hm hon]⟩
  · have hnamed := hmaps.named m hm hon
    rw [Mapping.value, given, hpresent m hm, if_pos rfl] at hnamed
    cases hmap : pageMap s' pdir m.page with
    | none =>
      rw [hmap] at hnamed
      cases hnamed
    | some entry =>
      obtain ⟨frame, fl⟩ := entry
      rw [hmap] at hnamed
      have hfl := (Prod.mk.inj (Option.some.inj hnamed)).2
      exact ⟨frame, fl, rfl, by rw [← rightsOf_clean, hfl, rightsOf_clean]⟩

/-- The entry of the directory has the rights that it had, or those of the flags if there was none. -/
theorem exec_dir (hok : w.Ok s pdir) (hc : c.MapsPresent) (h : c.exec w pdir s = some s') {m : Mapping} (hm : m ∈ c.mappings) :
    rightsOf (s'.tabs pdir (m.page / 1024)) =
      if present (s.tabs pdir (m.page / 1024)) then rightsOf (s.tabs pdir (m.page / 1024)) else rightsOf m.flags := by
  obtain ⟨-, hflags, hfold, hall⟩ := exec_mapAll hc h
  obtain ⟨hkept, hnew⟩ := mapAll_dir hok c.mappings (fun m hm => (hall m hm).1) (fun m hm => (hall m hm).2) hflags hfold (m.page / 1024)
  cases hp : present (s.tabs pdir (m.page / 1024)) with
  | true => rw [hkept hp, if_pos rfl]
  | false => rw [hnew hp ⟨m, hm, rfl⟩, if_neg Bool.false_ne_true, (hall m hm).2]

theorem ok_of_mapped {s₀ : Vm} (h₀ : w.Ok s₀ pdir) (h : Reach (VmCall.exec w pdir) (fun _ c => c.MapsPresent) s₀ s) : w.Ok s pdir := by
  refine h.inv (fun s => w.Ok s pdir) h₀ ?_
  intro s c s' hok hc hstep
  exact (exec_maps hok (exec_mapAll hc hstep).1 hstep).ok

end RightsAux

open RightsAux WindowAux

/-- In every state that calls of `vm_map_page` and `vm_map_range` reach: after a call that returns, each page that it names has the
rights of its flags exactly when the entry of the directory had no table or admitted them before the call. -/
theorem mapped_rights_iff (w : Window) (pdir : Nat) (s₀ s : Vm) (h₀ : w.Ok s₀ pdir)
    (h : Reach (VmCall.exec w pdir) (fun _ c => c.MapsPresent) s₀ s) (c : VmCall) (s' : Vm) (hc : c.MapsPresent)
    (hexec : c.exec w pdir s = some s') (m : Mapping) (hm : m ∈ c.mappings) :
    rights s' pdir m.page = some (rightsOf m.flags) ↔ Admits (s.tabs pdir (m.page / 1024)) m.flags := by
  have hok := ok_of_mapped h₀ h
  obtain ⟨frame, fl, hmap, hfl⟩ := exec_flags hok hc hexec hm
  have hdir := exec_dir hok hc hexec hm
  simp only [rights, hmap, Option.map_some, Option.some.injEq, hfl, hdir, Admits]
  cases present (s.tabs pdir (m.page / 1024)) with
  | true => simp [Prod.ext_iff]
  | false => simp

/-- A page for the kernel behind one for user programs has the rights of its flags. -/
theorem kernelPage_rights :
    ∃ s s', Reach (VmCall.exec bootWindow 0x100000) (fun _ c => c.MapsPresent) bootVm s ∧
      VmCall.exec bootWindow 0x100000 s (.mapPage 0x6000 0x401000 vmCommonFlags) = some s' ∧
      rights s' 0x100000 0x401 = some (true, false) := by
  have hrun : (runIf (VmCall.exec bootWindow 0x100000) (fun _ c => c.MapsPresent) bootVm [.mapPage 0x5000 0x400000 vmUserFlags]).any
      (fun s => (VmCall.exec bootWindow 0x100000 s (.mapPage 0x6000 0x401000 vmCommonFlags)).isSome ∧
        Admits (s.tabs 0x100000 1) vmCommonFlags) = true := by decide +kernel
  obtain ⟨s, hs, hstate⟩ := (Option.any_eq_true _ _).mp hrun
  obtain ⟨hsome, hadmits⟩ := of_decide_eq_true hstate
  obtain ⟨s', hexec⟩ := Option.isSome_iff_exists.mp hsome
  have hreach := Reach.init.runIf _ hs
  exact ⟨s, s', hreach, hexec, (mapped_rights_iff bootWindow 0x100000 bootVm s bootVm_ok hreach _ s' (by decide) hexec
    ⟨0x401000, 0x6000, vmCommonFlags⟩ List.mem_cons_self).mpr hadmits⟩

/-- A page for user programs behind one for the kernel is not accessible to them. -/
theorem userPage_without_rights :
    bootWindow.Ok bootVm 0x100000 ∧
    ∃ s s', Reach (VmCall.exec bootWindow 0x100000) (fun _ c => c.MapsPresent) bootVm s ∧
      VmCall.exec bootWindow 0x100000 s (.mapPage 0x6000 0x401000 vmUserFlags) = some s' ∧
      rights s' 0x100000 0x401 = some (true, false) ∧ rightsOf vmUserFlags = (true, true) := by
  have hrun : (runIf (VmCall.exec bootWindow 0x100000) (fun _ c => c.MapsPresent) bootVm [.mapPage 0x5000 0x400000 vmCommonFlags]).any
      (fun s => (VmCall.exec bootWindow 0x100000 s (.mapPage 0x6000 0x401000 vmUserFlags)).any
        fun s' => rights s' 0x100000 0x401 = some (true, false)) = true := by decide +kernel
  obtain ⟨s, hs, hstate⟩ := (Option.any_eq_true _ _).mp hrun
  obtain ⟨s', hexec, hrights⟩ := (Option.any_eq_true _ _).mp hstate
  exact ⟨bootVm_ok, s, s', Reach.init.runIf _ hs, hexec, of_decide_eq_true hrights, by decide⟩

end Kos
