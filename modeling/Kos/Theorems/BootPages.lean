import Kos.Lemmas.Bitmap
import Kos.Theorems.MemoryMap

/-!
# The pages in use after starting

`init_mm` reserves the pages of the kernel, of the modules and of the sections by their first address and a number of pages. The loop
over the modules reserves the first one again and again, the number of pages is that of a range which begins at a page boundary, the
NUL of a command line is not counted, and of the table of the section headers one entry is. `initMm_free_iff` says which pages are
free in the end, and `initMm_keeps_iff` when none of them is needed.
-/

namespace Kos

/-! ## What is needed -/

/-- The address of the descriptor of module `i`. -/
def MultibootInfo.modAddr (info : MultibootInfo) (i : Nat) : Nat := w32 (info.modsAddr.toNat + i * multibootModSize)

/-- The header of section `i`, in a table whose entries are `size` bytes long. -/
def MultibootInfo.sectionHeader (info : MultibootInfo) (mem : Memory) (size i : Nat) : Elf32Shdr :=
  Elf32Shdr.read mem (w32 (info.elfSec.addr.toNat + i * size))

/-- The byte belongs to the module whose descriptor is at `mod`: to the descriptor, to the module's bytes, or to its command line with
the NUL. -/
inductive ModuleByte (mem : Memory) (mod x : Nat) : Prop where
  | descriptor (hlo : mod ≤ x) (hhi : x < mod + multibootModSize)
  | bytes (hlo : (MultibootMod.read mem mod).modStart ≤ x) (hhi : x < (MultibootMod.read mem mod).modEnd)
  | cmdline (hcmd : (MultibootMod.read mem mod).cmdline ≠ 0) (hlo : (MultibootMod.read mem mod).cmdline ≤ x)
      (hstr : ∀ k < x - (MultibootMod.read mem mod).cmdline, mem (w32 ((MultibootMod.read mem mod).cmdline + k)) ≠ 0)

/-- The byte belongs to a section. -/
def SectionByte (shdr : Elf32Shdr) (x : Nat) : Prop := shdr.addr ≤ x ∧ x < shdr.addr + shdr.size

/-- The byte is needed: it belongs to the kernel, to a module, to the table of the section headers or to a section. -/
inductive Needed (image : KernelImage) (info : MultibootInfo) (mem : Memory) (x : Nat) : Prop where
  | kernel (hlo : image.physStart ≤ x) (hhi : x < image.physEnd)
  | module {i : Nat} (hi : i < info.modsCount.toNat) (hbyte : ModuleByte mem (info.modAddr i) x)
  | headers (hlo : info.elfSec.addr.toNat ≤ x) (hhi : x < info.elfSec.addr.toNat + info.elfSec.num.toNat * info.elfSec.size.toNat)
  | elfSection {i : Nat} (hi : i < info.elfSec.num.toNat) (hbyte : SectionByte (info.sectionHeader mem info.elfSec.size.toNat i) x)

/-! ## What is available, and what is reserved -/

/-- A block that the loop comes to has the page. -/
def Available (info : MultibootInfo) (mem : Memory) (page : Nat) : Prop :=
  ∃ i start len, (∀ j < i, getAvailBlock info mem j ≠ .endOfBlocks) ∧ getAvailBlock info mem i = .usable start len ∧
    InRange (alignBlock start len).1 (numPages (alignBlock start len).2) (4096 * page)

/-- Pages that are reserved: from the page of `start` on, `NUM_PAGES(len)` pages; the bytes that are needed there are `need`. -/
structure Reservation where
  start : Nat
  len : Nat
  need : Nat

/-- The string at the address has this length. -/
def IsStrlen (mem : Memory) (a n : Nat) : Prop := mem (w32 (a + n)) = 0 ∧ ∀ k < n, mem (w32 (a + k)) ≠ 0

/-- What is reserved for the module whose descriptor is at this address. -/
inductive ModuleReserves (mem : Memory) (mod : Nat) : Reservation → Prop where
  | descriptor : ModuleReserves mem mod ⟨mod, multibootModSize, multibootModSize⟩
  | bytes : ModuleReserves mem mod ⟨(MultibootMod.read mem mod).modStart,
      sub32 (MultibootMod.read mem mod).modEnd (MultibootMod.read mem mod).modStart,
      (MultibootMod.read mem mod).modEnd - (MultibootMod.read mem mod).modStart⟩
  | cmdline {n : Nat} (hcmd : (MultibootMod.read mem mod).cmdline ≠ 0) (hlen : IsStrlen mem (MultibootMod.read mem mod).cmdline n) :
      ModuleReserves mem mod ⟨(MultibootMod.read mem mod).cmdline, n, n + 1⟩

/-- What is reserved. Of the modules, this is only the first one. The entries of the table of the section headers are taken to be
`Elf32_Shdr`s; what is found there is a section only if they are. -/
inductive Reserves (image : KernelImage) (info : MultibootInfo) (mem : Memory) : Reservation → Prop where
  | kernel : Reserves image info mem ⟨image.physStart, image.physEnd - image.physStart, image.physEnd - image.physStart⟩
  | module {r : Reservation} (hcount : 0 < info.modsCount.toNat) (hr : ModuleReserves mem info.modsAddr.toNat r) :
      Reserves image info mem r
  | headers : Reserves image info mem
      ⟨info.elfSec.addr.toNat, info.elfSec.size.toNat, info.elfSec.num.toNat * info.elfSec.size.toNat⟩
  | elfSection {i : Nat} (hi : i < info.elfSec.num.toNat) :
      Reserves image info mem ⟨(info.sectionHeader mem elf32ShdrSize i).addr, (info.sectionHeader mem elf32ShdrSize i).size,
        if info.elfSec.size.toNat = elf32ShdrSize then (info.sectionHeader mem elf32ShdrSize i).size else 0⟩

/-- The page is one of those that are reserved. -/
def Reservation.Has (r : Reservation) (page : Nat) : Prop := InRange r.start (numPages r.len) (4096 * page)

/-- A needed byte of the page is left out: it belongs to a module behind the first one, it lies behind the pages that are reserved for
it, or its section's header is not where an `Elf32_Shdr` would be. -/
inductive LeftOut (image : KernelImage) (info : MultibootInfo) (mem : Memory) (page : Nat) : Prop where
  | laterModule {i x : Nat} (hpos : 1 ≤ i) (hi : i < info.modsCount.toNat) (hbyte : ModuleByte mem (info.modAddr i) x)
      (hx : x / 4096 = page)
  | behind {r : Reservation} {x : Nat} (hr : Reserves image info mem r) (hlo : r.start ≤ x) (hhi : x < r.start + r.need)
      (hx : x / 4096 = page) (hbehind : r.start / 4096 + numPages r.len ≤ page)
  | otherHeader {i x : Nat} (hsize : info.elfSec.size.toNat ≠ elf32ShdrSize) (hi : i < info.elfSec.num.toNat)
      (hbyte : SectionByte (info.sectionHeader mem info.elfSec.size.toNat i) x) (hx : x / 4096 = page)

/-- The page is available, and what lies on it is left out and not reserved for something else. -/
structure Endangered (image : KernelImage) (info : MultibootInfo) (mem : Memory) (page : Nat) : Prop where
  inside : page < 1048576
  nonzero : page ≠ 0
  available : Available info mem page
  unreserved : ∀ r, Reserves image info mem r → ¬r.Has page
  leftOut : LeftOut image info mem page

namespace BootPagesAux

variable {image : KernelImage} {info : MultibootInfo} {mem : Memory} {rounds : Nat}

/-! ## The blocks -/

theorem addBlock_free (s : InitMm) (block : Nat × Nat) (a : Nat) :
    isFree (s.addBlock block).mm.mmap a = true ↔ isFree s.mm.mmap a = true ∨ InRange block.1 (numPages block.2) a := by
  have hmark := isFree_markRangeFree s.mm.mmap block.1 (numPages block.2) a
  simp only [InitMm.addBlock, Mm.markRangeFree, hmark, Bool.or_eq_true, decide_eq_true_eq]

/-- A block from entry `i` on has the address. -/
def BlockHas (info : MultibootInfo) (mem : Memory) (i a : Nat) : Prop :=
  ∃ k start len, (∀ j < k, getAvailBlock info mem (i + j) ≠ .endOfBlocks) ∧ getAvailBlock info mem (i + k) = .usable start len ∧
    InRange (alignBlock start len).1 (numPages (alignBlock start len).2) a

/-- The blocks from an entry on are that of the entry and those from the next one on. -/
theorem blockHas_step {i a : Nat} : BlockHas info mem i a ↔
    (∃ start len, getAvailBlock info mem i = .usable start len ∧
      InRange (alignBlock start len).1 (numPages (alignBlock start len).2) a) ∨
    getAvailBlock info mem i ≠ .endOfBlocks ∧ BlockHas info mem (i + 1) a := by
  constructor
  · rintro ⟨k, start, len, hread, hblock, hin⟩
    cases k with
    | zero => exact .inl ⟨start, len, hblock, hin⟩
    | succ k =>
      refine .inr ⟨hread 0 (Nat.succ_pos k), k, start, len, fun j hj => ?_, ?_, hin⟩
      · rw [show i + 1 + j = i + (j + 1) by omega]
        exact hread (j + 1) (by omega)
      · rwa [show i + 1 + k = i + (k + 1) by omega]
  · rintro (⟨start, len, hblock, hin⟩ | ⟨hread, k, start, len, hreads, hblock, hin⟩)
    · exact ⟨0, start, len, fun j hj => absurd hj (Nat.not_lt_zero j), hblock, hin⟩
    · refine ⟨k + 1, start, len, fun j hj => ?_, ?_, hin⟩
      · cases j with
        | zero => exact hread
        | succ j =>
          rw [show i + (j + 1) = i + 1 + j by omega]
          exact hreads j (by omega)
      · rwa [show i + (k + 1) = i + 1 + k by omega]

theorem blockLoop_free {i : Nat} {s s' : InitMm} (h : blockLoop info mem rounds i s = some s') (a : Nat) :
    isFree s'.mm.mmap a = true ↔ isFree s.mm.mmap a = true ∨ BlockHas info mem i a := by
  induction rounds generalizing i s with
  | zero => cases h
  | succ rounds ih =>
    rw [blockLoop] at h
    rw [blockHas_step]
    cases hblock : getAvailBlock info mem i with
    | endOfBlocks =>
      rw [hblock] at h
      cases h
      simp
    | unusable =>
      rw [hblock] at h
      rw [ih h]
      simp
    | usable start len =>
      rw [hblock] at h
      rw [ih h, addBlock_free]
      simp [or_assoc]

theorem start_not_free (a : Nat) : isFree InitMm.start.mm.mmap a = false := by
  simp [InitMm.start, isFree, bissetn]

/-! ## The modules and the sections -/

theorem strlen_spec {a n : Nat} (h : strlen mem rounds a = some n) : IsStrlen mem a n := by
  induction rounds generalizing a n with
  | zero => cases h
  | succ rounds ih =>
    rw [strlen] at h
    split at h
    · rename_i hnul
      cases h
      exact ⟨hnul, fun k hk => absurd hk (Nat.not_lt_zero k)⟩
    · rename_i hchar
      obtain ⟨m, hm, rfl⟩ := Option.map_eq_some_iff.mp h
      obtain ⟨hend, hchars⟩ := ih hm
      refine ⟨by rwa [show a + (m + 1) = a + 1 + m by omega], fun k hk => ?_⟩
      cases k with
      | zero => exact hchar
      | succ k =>
        rw [show a + (k + 1) = a + 1 + k by omega]
        exact hchars k (by omega)

theorem IsStrlen.unique {a n n' : Nat} (h : IsStrlen mem a n) (h' : IsStrlen mem a n') : n = n' := by
  refine Nat.le_antisymm ?_ ?_
  · by_contra hlt
    exact h.2 n' (Nat.not_le.mp hlt) h'.1
  · by_contra hlt
    exact h'.2 n (Nat.not_le.mp hlt) h.1

/-- What marking a range leaves free. -/
theorem markRangeUsed_free (m : Mmap) (start num a : Nat) :
    isFree (markRangeUsed m start num) a = true ↔ isFree m a = true ∧ ¬InRange start num a := by
  simp [isFree_markRangeUsed]

/-- Marking a module reserves its pages; the command line has an end. -/
theorem markModule_free {mod : Nat} {m m' : Mmap} (h : markModule mem rounds mod m = some m') :
    (∀ a, isFree m' a = true ↔ isFree m a = true ∧ ∀ r, ModuleReserves mem mod r → ¬InRange r.start (numPages r.len) a) ∧
      ((MultibootMod.read mem mod).cmdline ≠ 0 → ∃ n, IsStrlen mem (MultibootMod.read mem mod).cmdline n) := by
  unfold markModule at h
  dsimp only at h
  split_ifs at h with hcmd
  · obtain ⟨n, hn, rfl⟩ := Option.map_eq_some_iff.mp h
    have hlen := strlen_spec hn
    refine ⟨fun a => ?_, fun _ => ⟨n, hlen⟩⟩
    rw [markRangeUsed_free, markRangeUsed_free, markRangeUsed_free]
    constructor
    · rintro ⟨⟨⟨hfree, hdesc⟩, hbytes⟩, hline⟩
      refine ⟨hfree, fun r hr => ?_⟩
      cases hr with
      | descriptor => exact hdesc
      | bytes => exact hbytes
      | cmdline hcmd hlen' =>
        rw [IsStrlen.unique hlen' hlen]
        exact hline
    · rintro ⟨hfree, hres⟩
      have hdesc := hres _ .descriptor
      have hbytes := hres _ .bytes
      have hline := hres _ (.cmdline hcmd hlen)
      exact ⟨⟨⟨hfree, hdesc⟩, hbytes⟩, hline⟩
  · cases h
    refine ⟨fun a => ?_, fun hne => absurd hne hcmd⟩
    rw [markRangeUsed_free, markRangeUsed_free]
    constructor
    · rintro ⟨⟨hfree, hdesc⟩, hbytes⟩
      refine ⟨hfree, fun r hr => ?_⟩
      cases hr with
      | descriptor => exact hdesc
      | bytes => exact hbytes
      | cmdline hne hlen => exact absurd hne hcmd
    · rintro ⟨hfree, hres⟩
      have hdesc := hres _ .descriptor
      have hbytes := hres _ .bytes
      exact ⟨⟨hfree, hdesc⟩, hbytes⟩

/-- Marking the same module again changes nothing. -/
theorem markModules_free {mod : Nat} {m m' : Mmap} (l : List Nat) (h : l.foldlM (fun m _ => markModule mem rounds mod m) m = some m') :
    (∀ a, isFree m' a = true ↔
      isFree m a = true ∧ (l ≠ [] → ∀ r, ModuleReserves mem mod r → ¬InRange r.start (numPages r.len) a)) ∧
      (l ≠ [] → (MultibootMod.read mem mod).cmdline ≠ 0 → ∃ n, IsStrlen mem (MultibootMod.read mem mod).cmdline n) := by
  induction l generalizing m with
  | nil =>
    cases h
    exact ⟨fun a => ⟨fun hfree => ⟨hfree, fun hne => absurd rfl hne⟩, fun hfree => hfree.1⟩, fun hne => absurd rfl hne⟩
  | cons c l ih =>
    obtain ⟨m₁, hmark, hrest⟩ := Option.bind_eq_some_iff.mp h
    obtain ⟨hfree₁, hline⟩ := markModule_free hmark
    obtain ⟨hfree, -⟩ := ih hrest
    refine ⟨fun a => ?_, fun _ => hline⟩
    rw [hfree, hfree₁]
    constructor
    · rintro ⟨⟨hm, hres⟩, -⟩
      exact ⟨hm, fun _ => hres⟩
    · rintro ⟨hm, hres⟩
      have hres := hres (List.cons_ne_nil c l)
      exact ⟨⟨hm, hres⟩, fun _ => hres⟩

theorem markSections_free (m : Mmap) (secAddr : Nat) (l : List Nat) (a : Nat) :
    isFree (l.foldl (markSection mem secAddr) m) a = true ↔ isFree m a = true ∧ ∀ i ∈ l,
      ¬InRange (Elf32Shdr.read mem (w32 (secAddr + i * elf32ShdrSize))).addr
        (numPages (Elf32Shdr.read mem (w32 (secAddr + i * elf32ShdrSize))).size) a := by
  induction l generalizing m with
  | nil => simp
  | cons i l ih =>
    rw [List.foldl_cons, ih, markSection, markRangeUsed_free, List.forall_mem_cons, and_assoc]

/-! ## What is free in the end -/

/-- The parts of `init_mm`. -/
theorem initMm_cases {s : InitMm} (h : initMm image info mem rounds = some s) :
    ∃ s₁ m, blockLoop info mem rounds 0 InitMm.start = some s₁ ∧
      (List.range info.modsCount.toNat).foldlM (fun m _ => markModule mem rounds info.modsAddr.toNat m)
        (markRangeUsed s₁.mm.mmap image.physStart (numPages (image.physEnd - image.physStart))) = some m ∧
      s.mm.mmap = markUsed ((List.range info.elfSec.num.toNat).foldl (markSection mem info.elfSec.addr.toNat)
        (markRangeUsed m info.elfSec.addr.toNat (numPages info.elfSec.size.toNat))) 0 := by
  unfold initMm at h
  split at h
  · cases h
  · obtain ⟨s₁, hs₁, h⟩ := Option.bind_eq_some_iff.mp h
    obtain ⟨m, hm, h⟩ := Option.bind_eq_some_iff.mp h
    cases h
    exact ⟨s₁, m, hs₁, hm, rfl⟩

theorem range_ne_nil {n : Nat} : List.range n ≠ [] ↔ 0 < n := by
  rw [Ne, List.range_eq_nil, Nat.pos_iff_ne_zero]

/-- A page is free if it is available and not reserved. -/
theorem initMm_free_iff {s : InitMm} (h : initMm image info mem rounds = some s) (page : Nat) :
    isFree s.mm.mmap (4096 * page) = true ↔
      page ≠ 0 ∧ Available info mem page ∧ ∀ r, Reserves image info mem r → ¬r.Has page := by
  obtain ⟨s₁, m, hblocks, hmods, hmap⟩ := initMm_cases h
  obtain ⟨hm, -⟩ := markModules_free _ hmods
  have hblocks := blockLoop_free hblocks (4096 * page)
  simp only [start_not_free, Bool.false_eq_true, false_or, BlockHas, Nat.zero_add] at hblocks
  have hzero : (0 / 4096 = 4096 * page / 4096) = (page = 0) := by
    rw [Nat.mul_div_cancel_left page (by decide), Nat.zero_div, eq_iff_iff, eq_comm]
  rw [hmap, isFree_markUsed, Bool.and_eq_true, markSections_free, markRangeUsed_free, hm, markRangeUsed_free, hblocks]
  simp only [hzero, range_ne_nil, Bool.not_eq_true', decide_eq_false_iff_not, List.mem_range]
  constructor
  · rintro ⟨⟨⟨⟨⟨havail, hkernel⟩, hmodule⟩, hheaders⟩, hsections⟩, hne⟩
    refine ⟨hne, havail, fun r hr => ?_⟩
    cases hr with
    | kernel => exact hkernel
    | module hcount hr => exact hmodule hcount r hr
    | headers => exact hheaders
    | elfSection hi => exact hsections _ hi
  · rintro ⟨hne, havail, hres⟩
    have hkernel := hres _ .kernel
    have hheaders := hres _ .headers
    have hsections : ∀ i < info.elfSec.num.toNat, ¬InRange (info.sectionHeader mem elf32ShdrSize i).addr
        (numPages (info.sectionHeader mem elf32ShdrSize i).size) (4096 * page) := fun i hi =>
      have hsection := hres _ (.elfSection hi)
      hsection
    exact ⟨⟨⟨⟨⟨havail, hkernel⟩, fun hcount r hr => hres r (.module hcount hr)⟩, hheaders⟩, hsections⟩, hne⟩

/-- The command line of the first module has an end. -/
theorem initMm_strlen {s : InitMm} (h : initMm image info mem rounds = some s) (hcount : 0 < info.modsCount.toNat)
    (hcmd : (MultibootMod.read mem info.modsAddr.toNat).cmdline ≠ 0) :
    ∃ n, IsStrlen mem (MultibootMod.read mem info.modsAddr.toNat).cmdline n := by
  obtain ⟨s₁, m, -, hmods, -⟩ := initMm_cases h
  exact (markModules_free _ hmods).2 (range_ne_nil.mpr hcount) hcmd

/-! ## What is needed of it -/

/-- A page from the one of the first address on is reserved, or it lies behind. -/
theorem has_or_behind (r : Reservation) {x : Nat} (hlo : r.start ≤ x) (hx : x < 4294967296) :
    r.Has (x / 4096) ∨ r.start / 4096 + numPages r.len ≤ x / 4096 := by
  refine or_iff_not_imp_right.mpr fun hin => ⟨x / 4096 - r.start / 4096, by omega, ?_⟩
  have hle : r.start / 4096 ≤ x / 4096 := Nat.div_le_div_right hlo
  simp only [pageOf, pageSize]
  rw [w32_of_lt (by omega)]
  omega

theorem modAddr_zero (info : MultibootInfo) : info.modAddr 0 = info.modsAddr.toNat := by
  have hlt := info.modsAddr.toNat_lt
  rw [MultibootInfo.modAddr, w32_of_lt (by omega)]
  omega

/-- The needed bytes of what is reserved are needed. -/
theorem needed_of_reserves {r : Reservation} {x : Nat} (hr : Reserves image info mem r) (hlo : r.start ≤ x)
    (hhi : x < r.start + r.need) : Needed image info mem x := by
  cases hr with
  | kernel =>
    have hle := image.start_le
    exact .kernel hlo (by dsimp only at hhi; omega)
  | headers => exact .headers hlo hhi
  | @elfSection i hi =>
    dsimp only at hlo hhi
    split_ifs at hhi with hsize
    · exact .elfSection hi (by rw [hsize]; exact ⟨hlo, hhi⟩)
    · omega
  | module hcount hr =>
    refine .module hcount ?_
    rw [modAddr_zero]
    cases hr with
    | descriptor => exact .descriptor hlo hhi
    | bytes => exact .bytes hlo (by dsimp only at hlo hhi; omega)
    | cmdline hcmd hlen =>
      refine .cmdline hcmd hlo fun k hk => hlen.2 k ?_
      dsimp only at hlo hhi
      omega

theorem needed_of_leftOut {page : Nat} (h : LeftOut image info mem page) : ∃ x, x / 4096 = page ∧ Needed image info mem x := by
  cases h with
  | @laterModule i x hpos hi hbyte hx => exact ⟨x, hx, .module hi hbyte⟩
  | @behind r x hr hlo hhi hx hbehind => exact ⟨x, hx, needed_of_reserves hr hlo hhi⟩
  | @otherHeader i x hsize hi hbyte hx => exact ⟨x, hx, .elfSection hi hbyte⟩

/-- A byte of the first module lies in a reservation. -/
theorem reserves_of_moduleByte {x : Nat} (hcount : 0 < info.modsCount.toNat)
    (hstr : (MultibootMod.read mem info.modsAddr.toNat).cmdline ≠ 0 →
      ∃ n, IsStrlen mem (MultibootMod.read mem info.modsAddr.toNat).cmdline n)
    (hbyte : ModuleByte mem info.modsAddr.toNat x) :
    ∃ r, Reserves image info mem r ∧ r.start ≤ x ∧ x < r.start + r.need := by
  cases hbyte with
  | descriptor hlo hhi => exact ⟨_, .module hcount .descriptor, hlo, hhi⟩
  | bytes hlo hhi => exact ⟨_, .module hcount .bytes, hlo, by dsimp only; omega⟩
  | cmdline hcmd hlo hchars =>
    obtain ⟨n, hlen⟩ := hstr hcmd
    refine ⟨_, .module hcount (.cmdline hcmd hlen), hlo, ?_⟩
    -- the string would go on behind its NUL
    by_contra hbehind
    dsimp only at hbehind
    exact hchars n (by omega) hlen.1

/-- A needed byte is left out, or it lies in a reservation. -/
theorem needed_cases {s : InitMm} (h : initMm image info mem rounds = some s) {x : Nat} (hx : Needed image info mem x) :
    LeftOut image info mem (x / 4096) ∨ ∃ r, Reserves image info mem r ∧ r.start ≤ x ∧ x < r.start + r.need := by
  cases hx with
  | kernel hlo hhi => exact .inr ⟨_, .kernel, hlo, by dsimp only; omega⟩
  | headers hlo hhi => exact .inr ⟨_, .headers, hlo, hhi⟩
  | @module i hi hbyte =>
    cases i with
    | zero =>
      rw [modAddr_zero] at hbyte
      exact .inr (reserves_of_moduleByte hi (initMm_strlen h hi) hbyte)
    | succ i => exact .inl (.laterModule (Nat.succ_pos i) hi hbyte rfl)
  | @elfSection i hi hbyte =>
    by_cases hsize : info.elfSec.size.toNat = elf32ShdrSize
    · rw [hsize] at hbyte
      exact .inr ⟨_, .elfSection hi, hbyte.1, by simp only [hsize, if_true]; exact hbyte.2⟩
    · exact .inl (.otherHeader hsize hi hbyte rfl)

end BootPagesAux

open BootPagesAux in
/-- No page with a needed byte is free if none with one that was left out is available and not reserved for something else. -/
theorem initMm_keeps_iff {image : KernelImage} {info : MultibootInfo} {mem : Memory} {rounds : Nat} {s : InitMm}
    (h : initMm image info mem rounds = some s) :
    ((∀ x < 4294967296, Needed image info mem x → isFree s.mm.mmap x = false) ∧ isFree s.mm.mmap 0 = false) ↔
      ¬∃ page, Endangered image info mem page := by
  have hfree := initMm_free_iff h
  have hpage (x : Nat) : isFree s.mm.mmap x = isFree s.mm.mmap (4096 * (x / 4096)) :=
    isFree_congr _ (by rw [Nat.mul_div_cancel_left _ (by decide)])
  constructor
  · rintro ⟨hkept, -⟩ ⟨page, hin, hne, havail, hres, hleft⟩
    obtain ⟨x, rfl, hx⟩ := needed_of_leftOut hleft
    have hused := hkept x (by omega) hx
    rw [hpage, (hfree _).mpr ⟨hne, havail, hres⟩] at hused
    cases hused
  · intro hsafe
    refine ⟨fun x hlt hx => ?_, ?_⟩
    · -- a free page is available and not reserved, so that the byte is left out
      by_contra hfr
      rw [Bool.not_eq_false, hpage, hfree] at hfr
      obtain ⟨hne, havail, hres⟩ := hfr
      refine hsafe ⟨x / 4096, by omega, hne, havail, hres, ?_⟩
      rcases needed_cases h hx with hleft | ⟨r, hr, hlo, hhi⟩
      · exact hleft
      · exact .behind hr hlo hhi rfl ((has_or_behind r hlo hlt).resolve_left (hres r hr))
    · by_contra hfr
      exact ((hfree 0).mp (Bool.not_eq_false _ ▸ hfr)).1 rfl

/-- The memory map of one block, and from `0x9800` on the descriptors of two modules of a page each. -/
def twoModules : Memory := fun a =>
  if a < 0x9800 then oneBlock a
  else ([0, 0, 32, 0, 0, 16, 32, 0, 0, 0, 0, 0, 0, 0, 0, 0, 0, 16, 32, 0, 0, 32, 32, 0, 0, 0, 0, 0, 0, 0, 0, 0] : List UInt8).getD
    (a - 0x9800) 0

def modulesInfo (count : UInt32) : MultibootInfo := { oneBlockInfo with modsCount := count, modsAddr := 0x9800 }

def smallKernel : KernelImage := ⟨0x100000, 0x110000, by decide, by decide, by decide, by decide⟩

namespace BootPagesAux

theorem firstModule_read : MultibootMod.read twoModules 0x9800 = ⟨0x200000, 0x201000, 0⟩ := by decide +kernel

/-- The pages that are reserved: those of the kernel, of the descriptors and of the first module. -/
theorem modules_reserves {count : UInt32} {r : Reservation} (hr : Reserves smallKernel (modulesInfo count) twoModules r) :
    r = ⟨0x100000, 0x10000, 0x10000⟩ ∨ r = ⟨0x9800, 16, 16⟩ ∨ r = ⟨0x200000, 0x1000, 0x1000⟩ ∨ r = ⟨0, 0, 0⟩ := by
  cases hr with
  | kernel => exact .inl rfl
  | headers => exact .inr (.inr (.inr rfl))
  | elfSection hi => exact absurd hi (Nat.not_lt_zero _)
  | module hcount hr =>
    have hread : MultibootMod.read twoModules (modulesInfo count).modsAddr.toNat = ⟨0x200000, 0x201000, 0⟩ := firstModule_read
    cases hr with
    | descriptor => exact .inr (.inl rfl)
    | bytes =>
      rw [hread]
      exact .inr (.inr (.inl rfl))
    | cmdline hcmd hlen =>
      rw [hread] at hcmd
      exact absurd rfl hcmd

end BootPagesAux

open BootPagesAux in
theorem oneModule_kept : ∃ s, initMm smallKernel (modulesInfo 1) twoModules 30 = some s ∧
    (∀ x < 4294967296, Needed smallKernel (modulesInfo 1) twoModules x → isFree s.mm.mmap x = false) ∧
    isFree s.mm.mmap 0 = false := by
  obtain ⟨s, hs⟩ : ∃ s, initMm smallKernel (modulesInfo 1) twoModules 30 = some s :=
    Option.isSome_iff_exists.mp (by decide +kernel)
  refine ⟨s, hs, (initMm_keeps_iff hs).mpr ?_⟩
  rintro ⟨page, -, -, -, -, hleft⟩
  cases hleft with
  | laterModule hpos hi => exact absurd hi (by rw [Nat.not_lt]; exact hpos)
  | otherHeader hsize hi => exact absurd hi (Nat.not_lt_zero _)
  | @behind r x hr hlo hhi hx hbehind =>
    rcases modules_reserves hr with rfl | rfl | rfl | rfl <;> simp only [numPages, pageSize, w32] at hlo hhi hbehind <;> omega

open BootPagesAux in
/-- The second module begins on a page that is free. -/
theorem secondModule_free : ∃ s, initMm smallKernel (modulesInfo 2) twoModules 30 = some s ∧
    Needed smallKernel (modulesInfo 2) twoModules 0x201000 ∧ isFree s.mm.mmap 0x201000 = true := by
  obtain ⟨s, hs⟩ : ∃ s, initMm smallKernel (modulesInfo 2) twoModules 30 = some s :=
    Option.isSome_iff_exists.mp (by decide +kernel)
  have hsecond : MultibootMod.read twoModules ((modulesInfo 2).modAddr 1) = ⟨0x201000, 0x202000, 0⟩ := by decide +kernel
  have havail : Available (modulesInfo 2) twoModules 0x201 := by
    refine ⟨0, 0x100000, 0x300000, fun j hj => absurd hj (Nat.not_lt_zero j), by decide +kernel, 0x101, by decide, by decide⟩
  refine ⟨s, hs, .module (by decide : 1 < 2) (.bytes ?_ ?_), (initMm_free_iff hs 0x201).mpr ⟨by decide, havail, fun r hr hhas => ?_⟩⟩
  · rw [hsecond]
  · rw [hsecond]
    decide
  · obtain ⟨i, hi, heq⟩ := hhas
    rcases modules_reserves hr with rfl | rfl | rfl | rfl <;> simp only [numPages, pageOf, pageSize, w32] at hi heq <;> omega

end Kos
