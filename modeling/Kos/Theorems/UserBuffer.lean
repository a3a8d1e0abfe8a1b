import Kos.Mm.Util
import Kos.Lemmas.Virt

/-!
# Buffers of a user process seen from the kernel

`vm_user_to_kernel` resolves the first byte of a user's buffer and maps the physical memory that follows it. The kernel then sees
the user's bytes exactly when the frames behind the pages of the buffer follow one another (`vmUserToKernel_resolves_iff`).
-/

namespace Kos

/-- Every page that the buffer touches is present. -/
def BufferPresent (s : Vm) (pdir v size : Nat) : Prop := ∀ i < size, present (getPtabEntry s pdir (v + i)) = true

/-- The pages of the buffer lie in consecutive frames. -/
def FramesConsecutive (s : Vm) (pdir v size : Nat) : Prop :=
  ∀ i < size, getaddr (getPtabEntry s pdir (v + i)) =
    w32 (getaddr (getPtabEntry s pdir v) + (v % 4096 + i) / 4096 * 4096)

instance (s : Vm) (pdir v size : Nat) : Decidable (BufferPresent s pdir v size) :=
  inferInstanceAs (Decidable (∀ i < size, _))

instance (s : Vm) (pdir v size : Nat) : Decidable (FramesConsecutive s pdir v size) :=
  inferInstanceAs (Decidable (∀ i < size, _))

namespace UserBufferAux

/-- A present page of a well-formed directory is mapped to the frame of its entry. -/
theorem mapsTo_of_present {s : Vm} {pdir vaddr : Nat} (hwf : PdirWf s pdir) (hv : vaddr < 4294967296)
    (h : present (getPtabEntry s pdir vaddr) = true) : MapsTo s pdir vaddr (getaddr (getPtabEntry s pdir vaddr)) := by
  simp only [getPtabEntry, bnotset_eq] at h ⊢
  cases hpde : present (s.tabs pdir (pdirIndex vaddr)) with
  | false =>
    simp only [hpde, Bool.not_false, if_true] at h
    cases h
  | true =>
    simp only [hpde, Bool.not_true, Bool.false_eq_true, if_false] at h ⊢
    cases hpte : present (s.tabs (getaddr (s.tabs pdir (pdirIndex vaddr))) (ptabIndex vaddr)) with
    | false =>
      simp only [hpte, Bool.false_eq_true, if_false] at h
      cases h
    | true => exact ⟨hwf.dir_used, hpde, hwf.tab_used _ (pdirIndex_lt hv) hpde, hpte, by rw [if_pos hpte]⟩

/-- What `vm_alloc_addr` does when it does not panic. -/
theorem vmAllocAddr_some {s s' : Vm} {pdir pstart size k : Nat} {flags : Entry}
    (h : vmAllocAddr s pdir pstart flags size = some (k, s')) :
    ∃ vstart, vstart = vmFindRange s pdir (numPages (alignSize pstart size)) ∧ vstart ≠ 0 ∧ vstart % 4096 = 0 ∧
      k = w32 (vstart + pstart % 4096) ∧
      mapPages s pdir (pstart - pstart % 4096) vstart flags (numPages (alignSize pstart size)) = some s' := by
  simp only [vmAllocAddr] at h
  split at h
  · cases h
  · rename_i hne
    obtain ⟨-, -, h⟩ := Option.bind_eq_some_iff.mp h
    obtain ⟨s₁, hmap, h⟩ := Option.bind_eq_some_iff.mp h
    cases h
    simp only [vmMapRange] at hmap
    split at hmap
    · cases hmap
    · split at hmap
      · cases hmap
      · rename_i ha
        exact ⟨_, rfl, hne, (isPageAligned_iff _).mp (by simpa using ha), rfl, hmap⟩

/-- Byte `i` behind an aligned address, across the end of the address space: its page and its offset. -/
theorem w32_page_offset (a off i : Nat) (ha : a % 4096 = 0) :
    w32 (w32 (a + off) + i) / 4096 = pageOf a ((off + i) / 4096) / 4096 ∧ w32 (w32 (a + off) + i) % 4096 = (off + i) % 4096 := by
  simp only [w32, pageOf, pageSize]
  omega

end UserBufferAux

open UserBufferAux

/-- For every directory, every user address and every size of a buffer whose pages are present: the address that
`vm_user_to_kernel` returns resolves, byte by byte, to the user's bytes exactly when the frames behind the buffer's pages are
consecutive. -/
theorem vmUserToKernel_resolves_iff (s s' : Vm) (pdir v size k : Nat) (hk : PdirWf s s.kernelPdir) (hu : PdirWf s pdir)
    (hv : userSpaceStart ≤ v) (hend : v + size ≤ 4294967296) (hpres : BufferPresent s pdir v size)
    (hcall : vmUserToKernel s pdir v size = some (k, s')) :
    (∀ i < size, vmResolveVirt s' s'.kernelPdir (w32 (k + i)) = vmResolveVirt s' pdir (v + i)) ↔
      FramesConsecutive s pdir v size := by
  rw [vmUserToKernel] at hcall
  obtain ⟨vstart, -, -, ha, rfl, hmap⟩ := vmAllocAddr_some hcall
  obtain ⟨-, hgrow, hkern⟩ := mapPages_maps hk (by decide) (by decide) hmap
  rw [hgrow.kernelPdir]
  have huser : ∀ i < size, MapsTo s pdir (v + i) (getaddr (getPtabEntry s pdir (v + i))) := fun i hi =>
    mapsTo_of_present hu (by omega) (hpres i hi)
  refine forall₂_congr fun i hi => ?_
  -- the byte looked at is on page `(v % 4096 + i) / 4096` of the buffer
  have hfirst : vmResolveVirt s pdir v = getaddr (getPtabEntry s pdir v) + v % 4096 := (huser 0 (by omega)).resolve rfl
  have hmod := getaddr_mod (getPtabEntry s pdir v)
  have hoff : vmResolveVirt s pdir v % 4096 = v % 4096 := by omega
  have hbase : vmResolveVirt s pdir v - v % 4096 = getaddr (getPtabEntry s pdir v) := by omega
  have hnum : (v % 4096 + i) / 4096 < numPages (alignSize (vmResolveVirt s pdir v) size) := by
    simp only [userSpaceStart] at hv
    simp only [numPages, alignSize, pageOffset, pageSize, hoff, w32]
    omega
  obtain ⟨hpage, hpos⟩ := w32_page_offset vstart (v % 4096) i ha
  have hleft := (hkern _ hnum).resolve (a := w32 (w32 (vstart + v % 4096) + i)) hpage
  have hright := ((huser i hi).grows hgrow).resolve (a := v + i) rfl
  have hsame : (v % 4096 + i) % 4096 = (v + i) % 4096 := by omega
  rw [hoff, hbase] at hleft
  rw [hoff, hleft, hright, hpos, hsame, Nat.add_right_cancel_iff, pageOf, pageSize, eq_comm]

/-- A process whose two pages lie in the frame `0x5000` and in another one. -/
def twoPages (second : Nat) : Vm where
  mm := { mmap := fun _ => 0#32, memEnd := 0, lastError := .ok, memEnd_lt := by decide }
  tabs frame i :=
    if frame = 0x1000 ∧ i = 0 then mkEntry 0x2000 vmCommonFlags
    else if frame = 0x3000 ∧ i = 256 then mkEntry 0x4000 vmUserFlags
    else if frame = 0x4000 ∧ i = 0 then mkEntry 0x5000 vmUserFlags
    else if frame = 0x4000 ∧ i = 1 then mkEntry second vmUserFlags
    else 0#32
  kernelPdir := 0x1000
  kpdirRev := 0

namespace UserBufferAux

/-- Each of the two directories has one table. -/
theorem twoPages_kernel {second i : Nat} (h : present ((twoPages second).tabs 0x1000 i) = true) : i = 0 := by
  by_contra hne
  simp [twoPages, hne] at h
  exact absurd h (by decide)

theorem twoPages_user {second i : Nat} (h : present ((twoPages second).tabs 0x3000 i) = true) : i = 256 := by
  by_contra hne
  simp [twoPages, hne] at h
  exact absurd h (by decide)

theorem pdirWf_twoPages : PdirWf (twoPages 0x6000) 0x1000 ∧ PdirWf (twoPages 0x6000) 0x3000 := by
  refine ⟨⟨by decide, fun i _ hi => ?_, fun i _ hi => ?_⟩, ⟨by decide, fun i _ hi => ?_, fun i _ hi => ?_⟩⟩
  · rw [twoPages_kernel hi]
    decide
  · rw [twoPages_kernel hi]
    decide
  · rw [twoPages_user hi]
    decide
  · rw [twoPages_user hi]
    decide

end UserBufferAux

/-- With its pages in neighbouring frames, the buffer of eight bytes across them is seen from the kernel. -/
theorem vmUserToKernel_neighbours :
    ∃ k s', vmUserToKernel (twoPages 0x6000) 0x3000 0x40000FFC 8 = some (k, s') ∧
      ∀ i < 8, vmResolveVirt s' s'.kernelPdir (w32 (k + i)) = vmResolveVirt s' 0x3000 (0x40000FFC + i) := by
  obtain ⟨hkernel, huser⟩ := pdirWf_twoPages
  have hcall : (vmUserToKernel (twoPages 0x6000) 0x3000 0x40000FFC 8).isSome = true := by decide +kernel
  obtain ⟨⟨k, s'⟩, hcall⟩ := Option.isSome_iff_exists.mp hcall
  exact ⟨k, s', hcall, (vmUserToKernel_resolves_iff _ _ _ _ _ _ hkernel huser (by decide) (by decide) (by decide +kernel) hcall).mpr (by decide +kernel)⟩

/-- With its second page in the frame `0x8000`, the kernel sees the frame `0x6000` in its place. -/
theorem vmUserToKernel_apart :
    ∃ k s', vmUserToKernel (twoPages 0x8000) 0x3000 0x40000FFC 8 = some (k, s') ∧ BufferPresent (twoPages 0x8000) 0x3000 0x40000FFC 8 ∧
      vmResolveVirt s' s'.kernelPdir (w32 (k + 4)) = 0x6000 ∧ vmResolveVirt s' 0x3000 (0x40000FFC + 4) = 0x8000 := by
  have h : (vmUserToKernel (twoPages 0x8000) 0x3000 0x40000FFC 8).any (fun r =>
      vmResolveVirt r.2 r.2.kernelPdir (w32 (r.1 + 4)) = 0x6000 ∧ vmResolveVirt r.2 0x3000 (0x40000FFC + 4) = 0x8000) = true := by
    decide +kernel
  cases hcall : vmUserToKernel (twoPages 0x8000) 0x3000 0x40000FFC 8 with
  | none => simp [hcall] at h
  | some r =>
    rw [hcall] at h
    simp only [Option.any_some, Bool.decide_and, Bool.and_eq_true, decide_eq_true_eq] at h
    exact ⟨r.1, r.2, rfl, by decide +kernel, h.1, h.2⟩

end Kos
