import Kos.Lemmas.Window
import Kos.Lib.Run

/-!
# The calls of `virt.c` on the map of a page directory

Seen as a map from pages to frames and flags, a page directory is changed by every call at the pages that the call names, and
`vm_resolve_virt` reads it. The page of the working window is the exception: its entry is rewritten whenever a page table is accessed.
-/

namespace Kos

/-- A page that a call names, and what it is to be mapped to. -/
structure Mapping where
  vaddr : Nat
  paddr : Nat
  flags : Entry

namespace Mapping

def page (m : Mapping) : Nat := m.vaddr / pageSize

def value (m : Mapping) : Option (Nat × Entry) := given m.paddr m.flags

end Mapping

namespace VmCall

/-- The pages that a call names. -/
def mappings : VmCall → List Mapping
  | mapPage paddr vaddr flags => [⟨vaddr, paddr, flags⟩]
  | forceMap paddr vaddr flags => [⟨vaddr, paddr, flags⟩]
  | unmapPage vaddr => [⟨vaddr, 0, 0#32⟩]
  | mapRange pstart vstart flags num => (List.range num).map fun i => ⟨pageOf vstart i, pageOf pstart i, flags⟩
  | unmapRange vstart num => (List.range num).map fun i => ⟨pageOf vstart i, pageOf 0 i, 0#32⟩
  | resolveVirt _ => []

/-- The addresses are addresses, and the flags are the low 12 bits of an entry. -/
def Valid : VmCall → Prop
  | mapPage paddr vaddr flags => paddr < 4294967296 ∧ vaddr < 4294967296 ∧ flags.toNat < 4096
  | forceMap paddr vaddr flags => paddr < 4294967296 ∧ vaddr < 4294967296 ∧ flags.toNat < 4096
  | unmapPage vaddr => vaddr < 4294967296
  | mapRange pstart vstart flags _ => pstart < 4294967296 ∧ vstart < 4294967296 ∧ flags.toNat < 4096
  | unmapRange vstart _ => vstart < 4294967296
  | resolveVirt vaddr => vaddr < 4294967296

instance (c : VmCall) : Decidable c.Valid := by
  cases c <;> unfold Valid <;> infer_instance

end VmCall

instance (w : Window) (f i : Nat) : Decidable (w.IsEntry f i) := inferInstanceAs (Decidable (_ ∧ _))

instance (w : Window) (s : Vm) (pdir page : Nat) : Decidable (w.OnWindow s pdir page) := inferInstanceAs (Decidable (_ ∧ _))

/-- What becomes of the map when some pages are mapped. -/
structure Maps (w : Window) (s s' : Vm) (pdir : Nat) (ms : List Mapping) : Prop where
  ok : w.Ok s' pdir
  window : ∀ page < 1048576, w.OnWindow s' pdir page ↔ w.OnWindow s pdir page
  named : ∀ m ∈ ms, ¬w.OnWindow s pdir m.page → clean (pageMap s' pdir m.page) = clean m.value
  others : ∀ page < 1048576, (∀ m ∈ ms, m.page ≠ page) → ¬w.OnWindow s pdir page → pageMap s' pdir page = pageMap s pdir page

namespace WindowAux

variable {w : Window} {s s' : Vm} {pdir : Nat} {force : Bool}

/-- The pages are mapped one after the other. One that is named twice is mapped to the same frame again. -/
theorem mapAll_maps (force : Bool) (hok : w.Ok s pdir) (ms : List Mapping)
    (hvalid : ∀ m ∈ ms, m.vaddr < 4294967296 ∧ m.paddr < 4294967296 ∧ m.flags.toNat < 4096)
    (hsame : ∀ m ∈ ms, ∀ m' ∈ ms, m.page = m'.page → m.value = m'.value)
    (h : ms.foldlM (fun s m => w.doMap s pdir m.paddr m.vaddr m.flags force) s = some s') : Maps w s s' pdir ms := by
  induction ms generalizing s with
  | nil =>
    cases h
    exact ⟨hok, fun _ _ => Iff.rfl, nofun, fun _ _ _ _ => rfl⟩
  | cons m ms ih =>
    obtain ⟨s₁, hmap, hrest⟩ := Option.bind_eq_some_iff.mp h
    obtain ⟨hv, hp, hf⟩ := hvalid m List.mem_cons_self
    obtain ⟨hok₁, hwindow₁, hself, hothers₁⟩ := doMap_spec hok hv hp hf hmap
    have hms := ih hok₁ (fun m' hm' => hvalid m' (List.mem_cons_of_mem _ hm'))
      (fun m' hm' m'' hm'' => hsame m' (List.mem_cons_of_mem _ hm') m'' (List.mem_cons_of_mem _ hm'')) hrest
    have hpage : ∀ m' ∈ m :: ms, m'.page < 1048576 := by
      intro m' hm'
      have := (hvalid m' hm').1
      simp only [Mapping.page, pageSize]
      omega
    refine ⟨hms.ok, fun page hlt => (hms.window page hlt).trans (hwindow₁ page hlt), ?_, ?_⟩
    · intro m' hm' hoff
      have hoff₁ : ¬w.OnWindow s₁ pdir m'.page := by rwa [hwindow₁ _ (hpage m' hm')]
      by_cases hlater : ∃ m'' ∈ ms, m''.page = m'.page
      · obtain ⟨m'', hm'', he⟩ := hlater
        rw [hsame m' hm' m'' (List.mem_cons_of_mem _ hm'') he.symm, ← he]
        exact hms.named m'' hm'' (by rwa [he])
      · have hnot : ∀ m'' ∈ ms, m''.page ≠ m'.page := fun m'' hm'' he => hlater ⟨m'', hm'', he⟩
        rw [hms.others _ (hpage m' hm') hnot hoff₁]
        rcases List.mem_cons.mp hm' with rfl | hm'
        · exact hself hoff
        · exact absurd rfl (hnot m' hm')
    · intro page hlt hnot hoff
      obtain ⟨hne, hrest⟩ := List.forall_mem_cons.mp hnot
      rw [hms.others page hlt hrest (by rwa [hwindow₁ page hlt])]
      exact hothers₁ page hlt hne.symm hoff

/-- A range that wraps at the end of the address space comes back to the same frames. -/
theorem range_same {pstart vstart i j : Nat} (ha : vstart % 4096 = 0) (h : pageOf vstart i / 4096 = pageOf vstart j / 4096) :
    pageOf pstart i = pageOf pstart j := by
  simp only [pageOf, w32, pageSize] at h ⊢
  omega

theorem mapRange_maps {pstart vstart num : Nat} {flags : Entry} (hok : w.Ok s pdir) (hf : flags.toNat < 4096)
    (h : w.vmMapRange s pdir pstart vstart flags num = some s') :
    Maps w s s' pdir ((List.range num).map fun i => ⟨pageOf vstart i, pageOf pstart i, flags⟩) := by
  unfold Window.vmMapRange at h
  split_ifs at h with hpa hva
  have ha : vstart % 4096 = 0 := (isPageAligned_iff vstart).mp (by simpa using hva)
  refine mapAll_maps false hok _ ?_ ?_ ?_
  · intro m hm
    obtain ⟨i, -, rfl⟩ := List.mem_map.mp hm
    exact ⟨w32_lt _, w32_lt _, hf⟩
  · intro m hm m' hm' he
    obtain ⟨i, -, rfl⟩ := List.mem_map.mp hm
    obtain ⟨j, -, rfl⟩ := List.mem_map.mp hm'
    exact congrArg (given · flags) (range_same ha he)
  · rw [List.foldlM_map]
    exact h

theorem mapOne_maps {paddr vaddr : Nat} {flags : Entry} (hok : w.Ok s pdir) (hv : vaddr < 4294967296) (hp : paddr < 4294967296)
    (hf : flags.toNat < 4096) (h : w.doMap s pdir paddr vaddr flags force = some s') :
    Maps w s s' pdir [⟨vaddr, paddr, flags⟩] := by
  obtain ⟨hok', hwindow, hself, hothers⟩ := doMap_spec hok hv hp hf h
  refine ⟨hok', hwindow, ?_, ?_⟩
  · intro m hm
    obtain rfl := List.mem_singleton.mp hm
    exact hself
  · intro page hlt hnot
    exact hothers page hlt (hnot _ List.mem_cons_self).symm

/-- What a call makes of the map. -/
theorem exec_maps (hok : w.Ok s pdir) {c : VmCall} (hc : c.Valid) (h : c.exec w pdir s = some s') : Maps w s s' pdir c.mappings := by
  cases c with
  | mapPage paddr vaddr flags => exact mapOne_maps hok hc.2.1 hc.1 hc.2.2 h
  | forceMap paddr vaddr flags => exact mapOne_maps hok hc.2.1 hc.1 hc.2.2 h
  | unmapPage vaddr =>
    simp only [VmCall.exec, Window.vmUnmapPage] at h
    split_ifs at h
    exact mapOne_maps hok hc (by decide) (by decide) h
  | mapRange pstart vstart flags num => exact mapRange_maps hok hc.2.2 h
  | unmapRange vstart num =>
    simp only [VmCall.exec, Window.vmUnmapRange] at h
    split_ifs at h
    exact mapRange_maps hok (by decide) h
  | resolveVirt vaddr =>
    obtain ⟨addr, s₁, hresolve, hsame, -⟩ := vmResolveVirt_spec hok vaddr
    rw [VmCall.exec, hresolve] at h
    cases h
    have hwidens := PageMapAux.Widens.refl s pdir
    refine ⟨ok_widens hok hok.toPdirOk hwidens hsame.toNear, fun _ hlt => onWindow_widens hok hwidens hsame.toNear hlt, nofun, ?_⟩
    intro page _ _ hoff
    exact near_pageMap hsame.toNear (map_ne_of_ok hok) hoff

theorem ok_of_reach {s₀ : Vm} (h₀ : w.Ok s₀ pdir) (h : Reach (VmCall.exec w pdir) (fun _ c => c.Valid) s₀ s) : w.Ok s pdir := by
  refine h.inv (fun s => w.Ok s pdir) h₀ ?_
  intro s c s' hok hc hstep
  exact (exec_maps hok hc hstep).ok

end WindowAux

open WindowAux

/-- In every state that calls reach: a call that returns maps the pages that it names as given, up to the accessed and the dirty bit,
and leaves the other pages as they were, and an address resolves to what its page is mapped to. The page of the window is left out. -/
theorem calls_map_named_pages (w : Window) (pdir : Nat) (s₀ s : Vm) (h₀ : w.Ok s₀ pdir)
    (h : Reach (VmCall.exec w pdir) (fun _ c => c.Valid) s₀ s) :
    (∀ (c : VmCall) (s' : Vm), c.Valid → c.exec w pdir s = some s' →
      (∀ m ∈ c.mappings, ¬w.OnWindow s pdir m.page → clean (pageMap s' pdir m.page) = clean m.value) ∧
      ∀ page < 1048576, (∀ m ∈ c.mappings, m.page ≠ page) → ¬w.OnWindow s pdir page →
        pageMap s' pdir page = pageMap s pdir page) ∧
    ∀ v < 4294967296, ¬w.OnWindow s pdir (v / pageSize) →
      ∃ s', w.vmResolveVirt s pdir v = some (resolved (pageMap s pdir (v / pageSize)) v, s') := by
  have hok := ok_of_reach h₀ h
  refine ⟨?_, ?_⟩
  · intro c s' hc hexec
    have hmaps := exec_maps hok hc hexec
    exact ⟨hmaps.named, hmaps.others⟩
  · intro v _ hoff
    obtain ⟨addr, s', hresolve, -, haddr⟩ := vmResolveVirt_spec hok v
    rw [haddr hoff, PageMapAux.vmResolveVirt_eq] at hresolve
    exact ⟨s', hresolve⟩

/-! ## A kernel with an empty address space -/

/-- The kernel's page directory is loaded, and paging is enabled. -/
def bootWindow : Window := ⟨0x101000, true, 0x100000⟩

/-- Nothing but the working table map is in the kernel's page directory. -/
def bootVm : Vm where
  mm := ⟨fun i => if i = 9 then 0xFFFFFFFF#32 else 0#32, 0x300000, .ok, by decide⟩
  tabs := fun f i => if f = 0x100000 ∧ i = 255 then mkEntry 0x101000 vmCommonFlags else 0#32
  kernelPdir := 0x100000
  kpdirRev := 0

namespace WindowAux

theorem bootVm_only {i : Nat} (h : present (bootVm.tabs 0x100000 i) = true) : i = 255 := by
  by_contra hne
  simp only [bootVm, hne, and_false, if_false] at h
  cases h

theorem bootVm_ok : bootWindow.Ok bootVm 0x100000 := by
  have haddr : getaddr (bootVm.tabs 0x100000 255) = 0x101000 := by decide +kernel
  have hused : isFree bootVm.mm.mmap 0x101000 = false := by decide +kernel
  refine ⟨⟨⟨by decide +kernel, ?_, ?_⟩, ?_⟩, fun _ => ⟨hused, by decide, by decide +kernel, by decide, ?_, by decide +kernel, haddr⟩⟩
  · intro i _ hp
    rw [bootVm_only hp, haddr]
    exact hused
  · intro i _ hp
    rw [bootVm_only hp, haddr]
    decide
  · intro i _ j _ hi hj _
    rw [bootVm_only hi, bootVm_only hj]
  · rintro ⟨i, _, hp, he⟩
    rw [bootVm_only hp, haddr] at he
    exact absurd he (by decide)

end WindowAux

/-- Three pages are mapped, and one of them is unmapped again. -/
def someMappings : List VmCall :=
  [.mapRange 0x5000 0x400000 vmCommonFlags 3, .resolveVirt 0x400000, .unmapPage 0x401000, .mapPage 0x7000 0x402000 vmCommonFlags]

theorem someMappings_resolved :
    ∃ s s', runIf (VmCall.exec bootWindow 0x100000) (fun _ c => c.Valid) bootVm someMappings = some s ∧
      bootWindow.vmResolveVirt s 0x100000 0x402123 = some (0x7123, s') := by
  have hrun : (runIf (VmCall.exec bootWindow 0x100000) (fun _ c => c.Valid) bootVm someMappings).any
      (fun s => ¬bootWindow.OnWindow s 0x100000 0x402 ∧ pageMap s 0x100000 0x402 = some (0x7000, vmCommonFlags)) = true := by
    decide +kernel
  obtain ⟨s, hs, hpage⟩ := (Option.any_eq_true _ _).mp hrun
  obtain ⟨hoff, hmap⟩ := of_decide_eq_true hpage
  obtain ⟨s', hresolve⟩ := (calls_map_named_pages bootWindow 0x100000 bootVm s bootVm_ok (Reach.init.runIf someMappings hs)).2
    0x402123 (by decide) hoff
  rw [show 0x402123 / pageSize = 0x402 from rfl, hmap] at hresolve
  exact ⟨s, s', hs, hresolve⟩

/-- To map one page, its new page table is put into the window, and so the page `0x3FFFF` of the same directory is mapped as well. -/
theorem window_page_mapped :
    bootWindow.Ok bootVm 0x100000 ∧
    ∃ s', VmCall.exec bootWindow 0x100000 bootVm (.mapPage 0x5000 0x400000 vmCommonFlags) = some s' ∧
      pageMap bootVm 0x100000 0x3FFFF = none ∧ clean (pageMap s' 0x100000 0x3FFFF) = some (0x120000, 0x13#32) := by
  have hrun : (VmCall.exec bootWindow 0x100000 bootVm (.mapPage 0x5000 0x400000 vmCommonFlags)).any
      (fun s' => pageMap bootVm 0x100000 0x3FFFF = none ∧ clean (pageMap s' 0x100000 0x3FFFF) = some (0x120000, 0x13#32)) = true := by
    decide +kernel
  obtain ⟨s', hexec, hpage⟩ := (Option.any_eq_true _ _).mp hrun
  exact ⟨bootVm_ok, s', hexec, of_decide_eq_true hpage⟩

end Kos
