import Kos.Lemmas.Load
import Kos.Theorems.UserFrames

/-!
# What a loaded segment holds

`elf32_map_segment` counts the pages of a segment, and those with bytes of the file, from the sizes alone and not from where the segment
begins on its first page. So the segment holds what the program header says if the bytes do not reach into one page more, and if
they do not end at the end of a page either: there the whole last page counts as padding.
-/

namespace Kos

/-- The address of the byte `k` of a segment. -/
def LoadPhdr.addr (phdr : LoadPhdr) (k : Nat) : Nat := w32 (phdr.vaddr + k)

/-- The segment lies in memory as its header says, and only its pages were written. -/
structure Loaded (pdir : Nat) (phdr : LoadPhdr) (image : Nat → UInt8) (memory : Memory) (s : Loader) : Prop where
  mapped : ∀ k < phdr.memsz, ∃ f, Mapped s.m.vm pdir (phdr.addr k / pageSize) f ∧
    s.memory (f + phdr.addr k % pageSize) = if k < phdr.filesz then image (phdr.offset + k) else 0
  inside : ∀ w ∈ s.written, ∀ j < w.2, alignAddr phdr.vaddr ≤ w.1 + j ∧ w.1 + j < alignAddr phdr.vaddr + numPages phdr.memsz * pageSize
  untouched : ∀ c, (∀ i < numPages phdr.memsz, ∀ f, Mapped s.m.vm pdir (alignAddr phdr.vaddr / pageSize + i) f →
    ¬(f ≤ c ∧ c < f + pageSize)) → s.memory c = memory c

/-- The segment does not reach into more pages than its size says. It has bytes in the file; they end on the page that their size
says, before its end, or the last 4096 of them are zeros anyway. -/
def SegmentOk (phdr : LoadPhdr) (image : Nat → UInt8) : Prop :=
  phdr.memsz = 0 ∨
    (phdr.vaddr % pageSize + phdr.memsz ≤ numPages phdr.memsz * pageSize ∧ 0 < phdr.filesz ∧
      (phdr.vaddr % pageSize + phdr.filesz < numPages phdr.filesz * pageSize ∨
        ∀ k < phdr.filesz, phdr.filesz ≤ k + pageSize → image (phdr.offset + k) = 0))

namespace LoadAux

/-- Page 0 is mapped in every address space. -/
theorem mapped_zero {own : Owners} {m : Machine} {p : Nat} (h : SpaceInv own m) (hp : (m.procs p).live = true) :
    Mapped m.vm (m.procs p).pdir 0 0 := by
  have hlow := (h.holds p hp).space.low
  obtain ⟨hpte, haddr⟩ := h.kernelOk.owned.lowPage
  refine ⟨?_, ?_, ?_⟩
  · rw [Nat.zero_div, hlow]
    exact h.kernelOk.owned.low
  · rw [Nat.zero_div, hlow]
    exact hpte
  · rw [Nat.zero_div, hlow]
    exact haddr

/-- So a segment at whose addresses nothing is mapped ends before the end of the address space. -/
theorem segment_fits {own : Owners} {m : Machine} {p : Nat} {phdr : LoadPhdr} (h : SpaceInv own m) (hp : (m.procs p).live = true)
    (hfree : ∀ k < phdr.memsz, ∀ f, ¬Mapped m.vm (m.procs p).pdir (phdr.addr k / pageSize) f) :
    phdr.vaddr + phdr.memsz ≤ 4294967296 := by
  by_contra hlt
  have hv := phdr.vaddr_lt
  refine hfree (4294967296 - phdr.vaddr) (by omega) 0 ?_
  rw [LoadPhdr.addr, Nat.add_sub_cancel' hv.le]
  exact mapped_zero h hp

/-- The writes that are in the log stay in it. -/
theorem clearPages_written {pdir base : Nat} {pages : List Nat} {s s' : Loader} (h : clearPages pdir base pages s = some s')
    {w : Nat × Nat} (hw : w ∈ s.written) : w ∈ s'.written := by
  induction pages generalizing s with
  | nil =>
    cases h
    exact hw
  | cons i pages ih =>
    obtain ⟨s₁, hset, h⟩ := Option.bind_eq_some_iff.mp h
    obtain ⟨m₁, -, rfl⟩ := Option.map_eq_some_iff.mp hset
    exact ih h (List.mem_cons_of_mem _ hw)

/-- Without bytes in the file, the padding goes before the first page. -/
theorem copySegment_no_bytes {pdir : Nat} {phdr : LoadPhdr} {image : Nat → UInt8} {s s' : Loader} (hzero : phdr.filesz = 0)
    (hbase : confProgBaseMin ≤ alignAddr phdr.vaddr) (hc : copySegment pdir phdr image s = some s') :
    ∃ w ∈ s'.written, 0 < w.2 ∧ w.1 < alignAddr phdr.vaddr := by
  unfold copySegment at hc
  obtain ⟨s₁, -, hc⟩ := Option.bind_eq_some_iff.mp hc
  obtain ⟨s₂, -, hc⟩ := Option.bind_eq_some_iff.mp hc
  obtain ⟨s₃, hpad, hclear⟩ := Option.bind_eq_some_iff.mp hc
  rw [if_pos (by simp only [pageSize]; omega)] at hpad
  obtain ⟨m₃, -, rfl⟩ := Option.map_eq_some_iff.mp hpad
  have hv := phdr.vaddr_lt
  refine ⟨_, clearPages_written hclear List.mem_cons_self, by simp only [pageSize]; omega, ?_⟩
  have hF : numPages phdr.filesz = 0 := by rw [hzero]; decide
  simp only [alignAddr_eq, confProgBaseMin] at hbase
  simp only [hF, alignAddr_eq, pageSize, sub32, w32]
  omega

/-- The state when the pages of the segment have been mapped. -/
theorem shows_start {own : Owners} {m : Machine} {p pdir b n : Nat} {memory : Memory} (h : KernelOk own m)
    (hs : Space own m.vm p pdir) :
    Shows p pdir b n m.vm memory ⟨m, memory, []⟩ fun a => memory (vmResolveVirt m.vm pdir a) := by
  refine ⟨⟨own, h, hs⟩, fun _ _ _ => Iff.rfl, fun a f _ _ hf => ?_, fun _ _ => rfl, fun _ hw => (by cases hw)⟩
  rw [hf.resolve_add]

variable {p pdir : Nat} {vm : Vm} {memory : Memory} {s : Loader} {g : Memory} {phdr : LoadPhdr} {image : Nat → UInt8}

theorem addr_of_fits (hfits : phdr.vaddr + phdr.memsz ≤ 4294967296) {k : Nat} (hk : k < phdr.memsz) : phdr.addr k = phdr.vaddr + k :=
  w32_of_lt (by omega)

theorem pages_of_mapped {n : Nat} (hbase : confProgBaseMin ≤ alignAddr phdr.vaddr)
    (hend : alignAddr phdr.vaddr + n * 4096 ≤ 4294967296)
    (hm : ∀ i < n, ∃ f, Mapped vm pdir ((alignAddr phdr.vaddr + i * 4096) / 4096) f) : Pages vm pdir (phdr.vaddr / 4096) n := by
  simp only [alignAddr_eq, confProgBaseMin] at hbase hend hm
  refine ⟨by omega, by omega, fun w hge hlt => ?_⟩
  obtain ⟨f, hf⟩ := hm (w - phdr.vaddr / 4096) (by omega)
  rw [show (phdr.vaddr / 4096 * 4096 + (w - phdr.vaddr / 4096) * 4096) / 4096 = w by omega] at hf
  exact ⟨f, hf⟩

/-- A segment that reaches into one page more than its size says has no such page. -/
theorem Shows.last_unmapped {n k : Nat} (h : Shows p pdir (phdr.vaddr / 4096) n vm memory s g)
    (hp : Pages vm pdir (phdr.vaddr / 4096) n) (hk : (phdr.vaddr + k) / 4096 = phdr.vaddr / 4096 + n)
    (hlt : phdr.vaddr + k < 4294967296) {vm₀ : Vm}
    (honly : ∀ w f, UserPage w → (∀ i < n, w ≠ pageOf (alignAddr phdr.vaddr) i / 4096) → Mapped vm pdir w f → Mapped vm₀ pdir w f)
    (hfree : ∀ f, ¬Mapped vm₀ pdir ((phdr.vaddr + k) / 4096) f) (f : Nat) : ¬Mapped s.m.vm pdir ((phdr.vaddr + k) / 4096) f := by
  intro hf
  have huser : UserPage ((phdr.vaddr + k) / 4096) := ⟨by have := hp.user; omega, by omega⟩
  refine hfree f (honly _ f huser (fun i hi => ?_) ((h.same _ f huser).mp hf))
  rw [alignAddr_eq, pageOf, pageSize, w32_of_lt (by omega)]
  omega

/-- Whatever the process sees in the segment, only the segment's pages were written. -/
theorem Shows.loaded (h : Shows p pdir (phdr.vaddr / 4096) (numPages phdr.memsz) vm memory s g)
    (hp : Pages vm pdir (phdr.vaddr / 4096) (numPages phdr.memsz)) (hfits : phdr.vaddr + phdr.memsz ≤ 4294967296)
    (hcount : phdr.vaddr % 4096 + phdr.memsz ≤ numPages phdr.memsz * 4096) :
    Loaded pdir phdr image memory s ↔
      ∀ k < phdr.memsz, g (phdr.vaddr + k) = if k < phdr.filesz then image (phdr.offset + k) else 0 := by
  have hpage : ∀ k < phdr.memsz, phdr.vaddr / 4096 ≤ (phdr.vaddr + k) / 4096 ∧
      (phdr.vaddr + k) / 4096 < phdr.vaddr / 4096 + numPages phdr.memsz := fun k hk => by omega
  constructor
  · intro hl k hk
    obtain ⟨hge, hlt⟩ := hpage k hk
    obtain ⟨f, hf, hbyte⟩ := hl.mapped k hk
    rw [addr_of_fits hfits hk] at hf hbyte
    rw [← hbyte]
    exact (h.view _ f hge hlt ((h.same _ f (hp.userPage hge hlt)).mp hf)).symm
  · intro hg
    refine ⟨fun k hk => ?_, fun w hw j hj => ?_, fun c hc => h.untouched c fun w f hge hlt hf => ?_⟩
    · obtain ⟨hge, hlt⟩ := hpage k hk
      obtain ⟨f, hf⟩ := hp.mapped _ hge hlt
      rw [addr_of_fits hfits hk]
      refine ⟨f, (h.same _ f (hp.userPage hge hlt)).mpr hf, ?_⟩
      rw [← hg k hk]
      exact h.view _ f hge hlt hf
    · obtain ⟨hge, hlt⟩ := h.inside w hw j hj
      rw [alignAddr_eq]
      simp only [pageSize]
      omega
    · refine hc (w - phdr.vaddr / 4096) (by omega) f ?_
      rw [alignAddr_eq, pageSize, Nat.mul_div_cancel _ (by decide), Nat.add_sub_cancel' hge]
      exact (h.same w f (hp.userPage hge hlt)).mpr hf

/-- The bytes are those of the header, or the ones that are lost are zeros. -/
theorem bytes_iff {F : Nat} (hle : phdr.filesz ≤ phdr.memsz)
    (hg : ∀ k < phdr.memsz, g (phdr.vaddr + k) =
      if k < phdr.filesz ∧ (phdr.vaddr % 4096 + phdr.filesz < F * 4096 ∨ k + 4096 < phdr.filesz) then image (phdr.offset + k) else 0) :
    (∀ k < phdr.memsz, g (phdr.vaddr + k) = if k < phdr.filesz then image (phdr.offset + k) else 0) ↔
      phdr.vaddr % 4096 + phdr.filesz < F * 4096 ∨ ∀ k < phdr.filesz, phdr.filesz ≤ k + 4096 → image (phdr.offset + k) = 0 := by
  constructor
  · intro hall
    refine or_iff_not_imp_left.mpr fun hend k hk hlast => ?_
    have hbyte := hall k (by omega)
    rw [hg k (by omega), if_neg (by omega), if_pos hk] at hbyte
    exact hbyte.symm
  · intro hor k hk
    rw [hg k hk]
    by_cases hfile : k < phdr.filesz
    · rw [if_pos hfile]
      split
      · rfl
      · rename_i hlost
        have hend := fun hend => hlost ⟨hfile, .inl hend⟩
        exact (hor.resolve_left hend k hfile (by omega)).symm
    · rw [if_neg hfile, if_neg fun h => hfile h.1]

end LoadAux

open LoadAux

/-- A segment at whose addresses nothing is mapped, in the address space of a process that lives. -/
theorem elf32LoadSegment_iff {own : Owners} {m : Machine} {memory : Memory} {p : Nat} {phdr : LoadPhdr} {image : Nat → UInt8}
    {s : Loader} (h : SpaceInv own m) (hp : (m.procs p).live = true) (hle : phdr.filesz ≤ phdr.memsz)
    (hcongr : phdr.offset % pageSize = phdr.vaddr % pageSize) (hbase : confProgBaseMin ≤ alignAddr phdr.vaddr)
    (hfree : ∀ k < phdr.memsz, ∀ f, ¬Mapped m.vm (m.procs p).pdir (phdr.addr k / pageSize) f)
    (hload : elf32LoadSegment m memory p phdr image = some (true, s)) :
    Loaded (m.procs p).pdir phdr image memory s ↔ SegmentOk phdr image := by
  obtain ⟨⟨ok, m'⟩, hmap, hload⟩ := Option.bind_eq_some_iff.mp hload
  simp only at hload
  by_cases hzero : phdr.memsz = 0
  · rw [if_neg fun hc => hc.2 hzero] at hload
    cases hload
    refine iff_of_true ⟨fun k hk => ?_, fun w hw => (by cases hw), fun _ _ => rfl⟩ (.inl hzero)
    omega
  · by_cases hok : ok = true
    · rw [if_pos ⟨hok, hzero⟩] at hload
      obtain ⟨s', hcopy, heq⟩ := Option.map_eq_some_iff.mp hload
      cases heq
      obtain ⟨own', hinv, hp', hpdir, honly, hpages⟩ := elf32MapSegment_inv h hp hmap
      obtain ⟨hend, hpages⟩ := hpages hok hzero
      have hfits := segment_fits h hp hfree
      have hspace := (hinv.holds p hp').space
      rw [hpdir] at hspace
      have hsmall : phdr.memsz + 4095 < 4294967296 := by
        simp only [alignAddr_eq, confProgBaseMin] at hbase
        omega
      have hpg := pages_of_mapped hbase hend hpages
      rcases Nat.eq_zero_or_pos phdr.filesz with hfz | hpos
      · -- the padding lies before the first page
        obtain ⟨w, hw, hlen, hlt⟩ := copySegment_no_bytes hfz hbase hcopy
        refine iff_of_false (fun hl => ?_) fun hseg => ?_
        · exact absurd (hl.inside w hw 0 hlen).1 (by omega)
        · exact absurd (hseg.resolve_left hzero).2.1 (by omega)
      · obtain ⟨g, hshow, hg⟩ := (shows_start hinv.kernelOk hspace).copySegment hpg hcongr hpos hle hfits hsmall hcopy
        by_cases hcount : phdr.vaddr % 4096 + phdr.memsz ≤ numPages phdr.memsz * 4096
        · rw [hshow.loaded hpg hfits hcount, bytes_iff hle fun k hk => hg k (by omega)]
          exact ⟨fun hb => .inr ⟨hcount, hpos, hb⟩, fun hseg => (hseg.resolve_left hzero).2.2⟩
        · -- the segment's last page has not been mapped
          refine iff_of_false (fun hl => ?_) fun hseg => hcount (hseg.resolve_left hzero).1
          have hk : numPages phdr.memsz * 4096 - phdr.vaddr % 4096 < phdr.memsz := by omega
          have hM := numPages_eq hsmall
          obtain ⟨f, hf, -⟩ := hl.mapped _ hk
          have hnot := hfree _ hk
          rw [addr_of_fits hfits hk] at hf hnot
          exact hshow.last_unmapped hpg (by omega) (by omega) honly hnot f hf
    · rw [if_neg fun hc => hok hc.1] at hload
      cases hload
      exact absurd rfl hok

namespace LoadAux

/-- The first process of the small machine has nothing mapped from the start of user space on. -/
theorem created_process : ∃ own m, pmCreate smallMachine = some (0, m) ∧ SpaceInv own m ∧ (m.procs 0).live = true ∧
    ∀ v f, userSpaceStart ≤ v → v < 0x40400000 → ¬Mapped m.vm (m.procs 0).pdir (v / pageSize) f := by
  have hrun : (pmCreate smallMachine).any
      (fun r => decide (r.1 = 0 ∧ present (r.2.vm.tabs (r.2.procs 0).pdir 256) = false)) = true := by decide +kernel
  obtain ⟨⟨q, m⟩, hcreate, hm⟩ := (Option.any_eq_true _ _).mp hrun
  obtain ⟨rfl, hno⟩ := of_decide_eq_true hm
  obtain ⟨own, hinv, hlive⟩ := pmCreate_inv (UserFramesAux.spaceInv_start booted_smallMachine) hcreate
  refine ⟨own, m, hcreate, hinv, hlive, fun v f hge hlt hmap => ?_⟩
  have hpde := hmap.pde
  simp only [userSpaceStart, pageSize] at hge hpde
  rw [show v / 4096 / 1024 = 256 by omega] at hpde
  exact absurd (hpde.symm.trans hno) (by decide)

end LoadAux

/-- A segment of 240 bytes, 120 of them from the file. -/
def smallSegment : LoadPhdr := ⟨⟨ptLoad, 0x40000020, 240, by decide, by decide⟩, 0x20, 120, by decide, by decide⟩

/-- It is loaded as its header says. -/
theorem smallSegment_loaded : ∃ m s, elf32LoadSegment m (fun _ => 0xFF) 0 smallSegment (fun _ => 7) = some (true, s) ∧
    Loaded (m.procs 0).pdir smallSegment (fun _ => 7) (fun _ => 0xFF) s := by
  obtain ⟨own, m, hcreate, hinv, hlive, hfree⟩ := created_process
  have hrun : (pmCreate smallMachine).any (fun r =>
      (elf32LoadSegment r.2 (fun _ => 0xFF) 0 smallSegment fun _ => 7).any (·.1)) = true := by decide +kernel
  rw [hcreate, Option.any_some] at hrun
  obtain ⟨⟨ok, s⟩, hload, rfl⟩ := (Option.any_eq_true _ _).mp hrun
  have hok : SegmentOk smallSegment fun _ => 7 := .inr ⟨by decide, by decide, .inl (by decide)⟩
  refine ⟨m, s, hload, (elf32LoadSegment_iff hinv hlive (by decide) (by decide) (by decide) (fun k hk f => ?_) hload).mpr hok⟩
  have hk' : k < 240 := hk
  have haddr : smallSegment.addr k = 0x40000020 + k := w32_of_lt (show 0x40000020 + k < 4294967296 by omega)
  rw [haddr]
  exact hfree _ f (by simp only [userSpaceStart]; omega) (by omega)

/-- A segment that is one page, all of it from the file. -/
def pageSegment : LoadPhdr := ⟨⟨ptLoad, 0x40001000, 4096, by decide, by decide⟩, 0x1000, 4096, by decide, by decide⟩

/-- Its bytes end at the end of a page, and all of them are lost. -/
theorem pageSegment_lost : ∃ own m s, SpaceInv own m ∧ (m.procs 0).live = true ∧ pageSegment.filesz ≤ pageSegment.memsz ∧
    pageSegment.offset % pageSize = pageSegment.vaddr % pageSize ∧ confProgBaseMin ≤ alignAddr pageSegment.vaddr ∧
    (∀ k < pageSegment.memsz, ∀ f, ¬Mapped m.vm (m.procs 0).pdir (pageSegment.addr k / pageSize) f) ∧
    elf32LoadSegment m (fun _ => 0xFF) 0 pageSegment (fun _ => 7) = some (true, s) ∧
    ¬Loaded (m.procs 0).pdir pageSegment (fun _ => 7) (fun _ => 0xFF) s := by
  obtain ⟨own, m, hcreate, hinv, hlive, hfree⟩ := created_process
  have hrun : (pmCreate smallMachine).any (fun r => (elf32LoadSegment r.2 (fun _ => 0xFF) 0 pageSegment fun _ => 7).any fun r' =>
      r'.1 && decide (r'.2.memory (vmResolveVirt r'.2.m.vm (r.2.procs 0).pdir 0x40001000) = 0)) = true := by decide +kernel
  rw [hcreate, Option.any_some] at hrun
  obtain ⟨⟨ok, s⟩, hload, hbyte⟩ := (Option.any_eq_true _ _).mp hrun
  obtain ⟨rfl, hbyte⟩ := Bool.and_eq_true_iff.mp hbyte
  refine ⟨own, m, s, hinv, hlive, by decide, by decide, by decide, fun k hk f => ?_, hload, fun hl => ?_⟩
  · have hk' : k < 4096 := hk
    have haddr : pageSegment.addr k = 0x40001000 + k := w32_of_lt (show 0x40001000 + k < 4294967296 by omega)
    rw [haddr]
    exact hfree _ f (by simp only [userSpaceStart]; omega) (by omega)
  · obtain ⟨f, hf, hseven⟩ := hl.mapped 0 (by decide)
    have hzero := of_decide_eq_true hbyte
    rw [Mapped.resolve_add (v := 0x40001000) hf] at hzero
    exact absurd (hzero.symm.trans hseven) (by decide)

end Kos
