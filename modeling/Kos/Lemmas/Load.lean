import Kos.Lemmas.ProcSpace
import Kos.Pm.Load

/-!
# Writing through the page tables

The loader writes to a process's pages by their frames. As long as it stays within pages that are mapped, and does not cross from one
page to the next in one write, the bytes that the process sees change as if it had written them itself (`Shows`), since no frame is
mapped at two pages.
-/

namespace Kos

namespace LoadAux

/-! ## One write -/

/-- The pages `b`, …, `b + n - 1` are mapped in user space. -/
structure Pages (vm : Vm) (pdir b n : Nat) : Prop where
  user : 262144 ≤ b
  fits : b + n ≤ 1048576
  mapped : ∀ w, b ≤ w → w < b + n → ∃ f, Mapped vm pdir w f

/-- The loader has come from the state with the page tables `vm` and the bytes `memory`, and has written to the pages of `Pages` only.
The process sees the bytes `g` there. -/
structure Shows (p pdir b n : Nat) (vm : Vm) (memory : Memory) (s : Loader) (g : Memory) : Prop where
  space : ∃ own, KernelOk own s.m ∧ Space own s.m.vm p pdir
  same : ∀ w f, UserPage w → (Mapped s.m.vm pdir w f ↔ Mapped vm pdir w f)
  view : ∀ a f, b ≤ a / 4096 → a / 4096 < b + n → Mapped vm pdir (a / 4096) f → s.memory (f + a % 4096) = g a
  untouched : ∀ c, (∀ w f, b ≤ w → w < b + n → Mapped vm pdir w f → ¬(f ≤ c ∧ c < f + 4096)) → s.memory c = memory c
  inside : ∀ w ∈ s.written, ∀ j < w.2, b ≤ (w.1 + j) / 4096 ∧ (w.1 + j) / 4096 < b + n

variable {p pdir b n : Nat} {vm : Vm} {memory : Memory} {s s' : Loader} {g : Memory}

theorem Pages.userPage (h : Pages vm pdir b n) {w : Nat} (hb : b ≤ w) (hn : w < b + n) : UserPage w :=
  ⟨h.user.trans hb, hn.trans_le h.fits⟩

theorem Mapped.frame_mod {w f : Nat} (h : Mapped vm pdir w f) : f % 4096 = 0 := h.addr ▸ getaddr_mod _

theorem Mapped.frame_unique {w f f' : Nat} (h : Mapped vm pdir w f) (h' : Mapped vm pdir w f') : f = f' :=
  h.addr.symm.trans h'.addr

/-- A page has one frame, and no other page has it. -/
theorem Shows.frame_iff (h : Shows p pdir b n vm memory s g) {w w' f f' : Nat} (hw : UserPage w) (hw' : UserPage w')
    (hm : Mapped vm pdir w f) (hm' : Mapped vm pdir w' f') : f = f' ↔ w = w' := by
  obtain ⟨own, -, hs⟩ := h.space
  have hown := hs.own_of_mapped hw ((h.same w f hw).mpr hm)
  have hown' := hs.own_of_mapped hw' ((h.same w' f' hw').mpr hm')
  constructor
  · rintro rfl
    simpa using hown.symm.trans hown'
  · rintro rfl
    exact Mapped.frame_unique hm hm'

/-- A write within one of the pages. -/
theorem Shows.write (h : Shows p pdir b n vm memory s g) (hp : Pages vm pdir b n) {v len : Nat} {src : Nat → UInt8}
    (hb : b ≤ v / 4096) (hn : v / 4096 < b + n) (hlen : v % 4096 + len ≤ 4096) (hw : s.write pdir v len src = some s') :
    Shows p pdir b n vm memory s' (g.put v len src) := by
  obtain ⟨m', hwork, rfl⟩ := Option.map_eq_some_iff.mp hw
  obtain ⟨own, hk, hs⟩ := h.space
  obtain ⟨own', hmoves⟩ := kernelWork_moves hk hwork
  obtain ⟨f, hf⟩ := hp.mapped (v / 4096) hb hn
  have hv := hp.userPage hb hn
  have hmod := Mapped.frame_mod hf
  rw [((h.same _ f hv).mpr hf).resolve_add]
  refine ⟨⟨own', hmoves.kernelOk, hmoves.change.space nofun hs⟩, fun w f' hw => ?_, fun a f' ha ha' hf' => ?_, fun c hc => ?_,
    fun w hw j hj => ?_⟩
  · exact ⟨fun hm => (h.same w f' hw).mp (hmoves.change.mapped_only nofun hs hw hm),
      fun hm => hmoves.change.mapped nofun hs hw ((h.same w f' hw).mpr hm)⟩
  · have hiff := h.frame_iff hv (hp.userPage ha ha') hf hf'
    have hmod' := Mapped.frame_mod hf'
    have hold := h.view a f' ha ha' hf'
    simp only [Memory.put]
    by_cases he : v / 4096 = a / 4096
    · have hff := hiff.mpr he
      by_cases hin : v ≤ a ∧ a < v + len
      · rw [if_pos (by omega), if_pos hin]
        congr 1
        omega
      · rw [if_neg (by omega), if_neg hin]
        exact hold
    · have hff := mt hiff.mp he
      rw [if_neg (by omega), if_neg (by omega)]
      exact hold
  · have hnot := hc (v / 4096) f hb hn hf
    simp only [Memory.put]
    rw [if_neg (by omega)]
    exact h.untouched c hc
  · rcases List.mem_cons.mp hw with rfl | hw
    · simp only at hj ⊢
      omega
    · exact h.inside w hw j hj

/-! ## The loops -/

/-- Clearing pages is copying zeros. -/
theorem clearPages_eq (base : Nat) (pages : List Nat) (src : Nat) (s : Loader) :
    clearPages pdir base pages s = copyPages pdir base (fun _ => 0) pages src s := by
  induction pages generalizing src s with
  | nil => rfl
  | cons i pages ih =>
    rw [clearPages, copyPages, Loader.setP, Loader.cpyPv]
    exact congrArg _ (funext fun s => ih (src + pageSize) s)

/-- The pages that are copied, one behind the other, are one run of bytes. -/
theorem Shows.copyPages (h : Shows p pdir b n vm memory s g) (hp : Pages vm pdir b n) {image : Nat → UInt8} {k len src : Nat}
    (hk : k + len ≤ n) (hc : copyPages pdir (b * 4096) image (List.range' k len) src s = some s') :
    Shows p pdir b n vm memory s' (g.put ((b + k) * 4096) (len * 4096) fun j => image (src + j)) := by
  have hfits := hp.fits
  induction len generalizing k src s g with
  | zero =>
    cases hc
    have hput : g.put ((b + k) * 4096) (0 * 4096) (fun j => image (src + j)) = g := funext fun a => if_neg (by omega)
    rwa [hput]
  | succ len ih =>
    rw [List.range'_succ, Kos.copyPages] at hc
    obtain ⟨s₁, hw, hc⟩ := Option.bind_eq_some_iff.mp hc
    have hv : pageOf (b * 4096) k = (b + k) * 4096 := by
      rw [pageOf, pageSize, ← Nat.add_mul]
      exact w32_of_lt (by omega)
    rw [hv] at hw
    have h₁ := h.write hp (by omega) (by omega) (by simp [pageSize]) hw
    have h₂ := ih h₁ (by omega) hc
    have hput := g.put_put ((b + k) * 4096) 4096 (len * 4096) fun j => image (src + j)
    rw [show (b + k) * 4096 + 4096 = (b + (k + 1)) * 4096 by omega, show 4096 + len * 4096 = (len + 1) * 4096 by omega] at hput
    rw [← hput]
    simpa only [Nat.add_assoc] using h₂

theorem Shows.clearPages (h : Shows p pdir b n vm memory s g) (hp : Pages vm pdir b n) {k len : Nat} (hk : k + len ≤ n)
    (hc : clearPages pdir (b * 4096) (List.range' k len) s = some s') :
    Shows p pdir b n vm memory s' (g.put ((b + k) * 4096) (len * 4096) fun _ => 0) := by
  rw [clearPages_eq _ _ 0] at hc
  exact h.copyPages hp hk hc

/-! ## The whole segment -/

theorem numPages_eq {k : Nat} (h : k + 4095 < 4294967296) : numPages k = (k + 4095) / 4096 := by
  rw [numPages, w32_of_lt h]

theorem alignAddr_eq (v : Nat) : alignAddr v = v / 4096 * 4096 := by
  simp only [alignAddr, pageOffset, pageSize]
  omega

/-- Where the padding begins, and how long it is, for a segment with bytes in the file: it goes up to the end of the last page that
is copied. -/
theorem padding_eq {phdr : LoadPhdr} (hcongr : phdr.offset % 4096 = phdr.vaddr % 4096) (hpos : 0 < phdr.filesz)
    (hfits : phdr.vaddr + phdr.filesz ≤ 4294967296) (hsmall : phdr.filesz + 4095 < 4294967296) :
    w32 (phdr.offset + phdr.filesz) % pageSize = (phdr.vaddr + phdr.filesz) % 4096 ∧
      w32 (alignAddr phdr.vaddr + sub32 (numPages phdr.filesz * pageSize) pageSize +
          (pageSize - (pageSize - w32 (phdr.offset + phdr.filesz) % pageSize))) =
        (phdr.vaddr / 4096 + (numPages phdr.filesz - 1)) * 4096 + (phdr.vaddr + phdr.filesz) % 4096 := by
  have hmod : w32 (phdr.offset + phdr.filesz) % pageSize = (phdr.vaddr + phdr.filesz) % 4096 := by
    simp only [w32, pageSize]
    omega
  refine ⟨hmod, ?_⟩
  rw [hmod, numPages_eq hsmall, alignAddr_eq]
  simp only [pageSize]
  rw [sub32_of_le (by omega) (by omega), w32_of_lt (by omega)]
  omega

/-- The four runs that are written, one over the other. -/
theorem segment_view {phdr : LoadPhdr} {image : Nat → UInt8} {F M k : Nat} (hcongr : phdr.offset % 4096 = phdr.vaddr % 4096)
    (hpos : 0 < phdr.filesz) (hF : F = (phdr.filesz + 4095) / 4096) (hkM : phdr.vaddr % 4096 + k < M * 4096) :
    ((((g.put phdr.vaddr (min phdr.filesz (4096 - phdr.vaddr % 4096)) fun j => image (phdr.offset + j)).put
      ((phdr.vaddr / 4096 + 1) * 4096) ((F - 1) * 4096) fun j =>
        image (phdr.offset + min phdr.filesz (4096 - phdr.vaddr % 4096) + j)).put
      ((phdr.vaddr / 4096 + (F - 1)) * 4096 + (phdr.vaddr + phdr.filesz) % 4096)
        (pageSize - (phdr.vaddr + phdr.filesz) % 4096) fun _ => 0).put
      ((phdr.vaddr / 4096 + F) * 4096) ((M - F) * 4096) fun _ => 0) (phdr.vaddr + k) =
    if k < phdr.filesz ∧ (phdr.vaddr % 4096 + phdr.filesz < F * 4096 ∨ k + 4096 < phdr.filesz) then image (phdr.offset + k) else 0 := by
  simp only [Memory.put, pageSize]
  by_cases hfile : k < phdr.filesz ∧ (phdr.vaddr % 4096 + phdr.filesz < F * 4096 ∨ k + 4096 < phdr.filesz)
  · rw [if_pos hfile, if_neg (by omega), if_neg (by omega)]
    by_cases hk₁ : phdr.vaddr % 4096 + k < 4096
    · rw [if_neg (by omega), if_pos (by omega), Nat.add_sub_cancel_left]
    · rw [if_pos (by omega)]
      congr 1
      omega
  · rw [if_neg hfile]
    by_cases hk₁ : phdr.vaddr % 4096 + k < F * 4096
    · rw [if_neg (by omega), if_pos (by omega)]
    · rw [if_pos (by omega)]

/-- The bytes of a segment as the process sees them. What lies on the page of the end of the file's bytes, or behind it, is clear; but
the page that the padding is on is counted from the size alone. -/
theorem Shows.copySegment {phdr : LoadPhdr} {image : Nat → UInt8}
    (h : Shows p pdir (phdr.vaddr / 4096) (numPages phdr.memsz) vm memory s g)
    (hp : Pages vm pdir (phdr.vaddr / 4096) (numPages phdr.memsz)) (hcongr : phdr.offset % 4096 = phdr.vaddr % 4096)
    (hpos : 0 < phdr.filesz) (hle : phdr.filesz ≤ phdr.memsz) (hfits : phdr.vaddr + phdr.memsz ≤ 4294967296)
    (hsmall : phdr.memsz + 4095 < 4294967296) (hc : copySegment pdir phdr image s = some s') :
    ∃ g', Shows p pdir (phdr.vaddr / 4096) (numPages phdr.memsz) vm memory s' g' ∧
      ∀ k, phdr.vaddr % 4096 + k < numPages phdr.memsz * 4096 → g' (phdr.vaddr + k) =
        if k < phdr.filesz ∧ (phdr.vaddr % 4096 + phdr.filesz < numPages phdr.filesz * 4096 ∨ k + 4096 < phdr.filesz)
        then image (phdr.offset + k) else 0 := by
  obtain ⟨hmod, hend⟩ := padding_eq hcongr hpos (by omega) (by omega)
  unfold Kos.copySegment at hc
  simp only at hc
  rw [hend, hmod, alignAddr_eq] at hc
  obtain ⟨s₁, hfirst, hc⟩ := Option.bind_eq_some_iff.mp hc
  obtain ⟨s₂, hcopy, hc⟩ := Option.bind_eq_some_iff.mp hc
  obtain ⟨s₃, hpad, hclear⟩ := Option.bind_eq_some_iff.mp hc
  rw [if_pos (by simp only [pageSize]; omega)] at hpad
  have hbytes : elf32FirstPageBytes phdr = min phdr.filesz (4096 - phdr.vaddr % 4096) := by
    simp only [elf32FirstPageBytes, pageSize]
    split <;> omega
  rw [hbytes] at hfirst hcopy
  have hF : numPages phdr.filesz = (phdr.filesz + 4095) / 4096 := numPages_eq (by omega)
  have hM : numPages phdr.memsz = (phdr.memsz + 4095) / 4096 := numPages_eq hsmall
  generalize numPages phdr.filesz = F at *
  generalize numPages phdr.memsz = M at *
  have h₁ := h.write hp (by omega) (by omega) (by omega) hfirst
  have h₂ := h₁.copyPages hp (by omega) hcopy
  have h₃ := h₂.write hp (by omega) (by omega) (by simp only [pageSize]; omega) hpad
  have h₄ := h₃.clearPages hp (by omega) hclear
  exact ⟨_, h₄, fun k hk => segment_view hcongr hpos hF hk⟩

end LoadAux

end Kos
