import Mathlib.Algebra.BigOperators.Group.List.Basic
import Mathlib.Tactic.IntervalCases
import Kos.Mm.Boot
import Kos.Lemmas.Bitmap

/-!
# The blocks of the memory map

`get_avail_block` takes the length of the map, which is in bytes, for the number of its entries. The loop over the blocks therefore
reads entries behind the end of the map, for every map that fits into the address space (`blockLoop_never_exact`).
-/

namespace Kos

/-- The length of a block from the first page boundary in it on. -/
def MultibootMmap.alignedLength (entry : MultibootMmap) : Nat := entry.baseAddr + entry.length - (entry.baseAddr + 4095) / 4096 * 4096

/-- Entry `i` of the map. -/
def MultibootInfo.entry (info : MultibootInfo) (mem : Memory) (i : Nat) : MultibootMmap :=
  MultibootMmap.read mem (info.mmapAddr.toNat + i * multibootMmapSize)

/-- The loop over the blocks has read just the `n` entries of the map. Only pages that lie in a block of type 1 are free, and `total_mem`
is the sum of the lengths of these blocks. -/
structure BlocksExact (info : MultibootInfo) (mem : Memory) (n : Nat) (s : InitMm) : Prop where
  read : s.entries = (List.range n).map fun i => info.mmapAddr.toNat + i * multibootMmapSize
  free : ∀ page < 1048576, isFree s.mm.mmap (4096 * page) = true → ∃ i < n, (info.entry mem i).type = 1 ∧
    (info.entry mem i).baseAddr ≤ 4096 * page ∧ 4096 * page + 4096 ≤ (info.entry mem i).baseAddr + (info.entry mem i).length
  total : s.totalMem =
    (((List.range n).map (info.entry mem)).filter (fun entry => entry.type == 1) |>.map MultibootMmap.alignedLength).sum

namespace BlocksAux

variable {info : MultibootInfo} {mem : Memory}

/-- The entry behind this one is the first that the loop does not read. -/
structure StopsAt (info : MultibootInfo) (mem : Memory) (i n : Nat) : Prop where
  read : ∀ j, i ≤ j → j < i + n → getAvailBlock info mem j ≠ .endOfBlocks
  stop : getAvailBlock info mem (i + n) = .endOfBlocks

theorem addBlock_entries (s : InitMm) (block : Nat × Nat) : (s.addBlock block).entries = s.entries := rfl

/-- The entries that the loop reads. -/
theorem blockLoop_entries {rounds i : Nat} {s s' : InitMm} (h : blockLoop info mem rounds i s = some s') :
    ∃ n, StopsAt info mem i n ∧ s'.entries = s.entries ++ (List.range' i n).map info.entryAddr := by
  induction rounds generalizing i s with
  | zero => cases h
  | succ rounds ih =>
    -- the entries from the next one on, and this one before them
    have hnext : ∀ {s₁ : InitMm}, s₁.entries = s.entries ++ [info.entryAddr i] → getAvailBlock info mem i ≠ .endOfBlocks →
        blockLoop info mem rounds (i + 1) s₁ = some s' →
        ∃ n, StopsAt info mem i n ∧ s'.entries = s.entries ++ (List.range' i n).map info.entryAddr := by
      intro s₁ hs₁ hread hrest
      obtain ⟨n, hstops, hentries⟩ := ih hrest
      refine ⟨n + 1, ⟨fun j hj hj' => ?_, ?_⟩, ?_⟩
      · rcases Nat.eq_or_lt_of_le hj with rfl | hlt
        · exact hread
        · exact hstops.read j hlt (by omega)
      · rw [show i + (n + 1) = i + 1 + n by omega]
        exact hstops.stop
      · rw [hentries, hs₁, List.range'_succ, List.map_cons, List.append_assoc]
        rfl
    rw [blockLoop] at h
    cases hblock : getAvailBlock info mem i with
    | endOfBlocks =>
      rw [hblock] at h
      cases h
      refine ⟨0, ⟨fun j hj hj' => by omega, hblock⟩, ?_⟩
      rw [List.range'_zero, List.map_nil, List.append_nil]
    | unusable =>
      rw [hblock] at h
      exact hnext rfl (by rw [hblock]; exact fun he => by cases he) h
    | usable start len =>
      rw [hblock] at h
      exact hnext (addBlock_entries _ _) (by rw [hblock]; exact fun he => by cases he) h

theorem endOfBlocks_iff {i : Nat} : getAvailBlock info mem i = .endOfBlocks ↔
    w32 (info.mmapAddr.toNat + info.mmapLength.toNat * multibootMmapSize) < info.entryAddr i := by
  unfold getAvailBlock
  dsimp only
  split_ifs with hend htype
  · exact iff_of_true rfl hend
  · exact iff_of_false (fun he => by cases he) hend
  · exact iff_of_false (fun he => by cases he) hend

/-- With the number of bytes in place of the number of entries, the loop does not stop at the end of a map. -/
theorem end_mismatch {a n : Nat} (hfit : a + 24 * n ≤ 4294967296) (hlast : n ≠ 0 → a + (n - 1) * 24 ≤ w32 (a + 24 * n * 24))
    (hstop : w32 (a + 24 * n * 24) < w32 (a + n * 24)) : False := by
  simp only [w32] at hlast hstop
  by_cases hn : n = 0
  · subst hn
    omega
  -- the computed end lies one entry before the end of the map, `w` times the address space away
  · have hlast := hlast hn
    obtain ⟨w, e, he, hlt⟩ : ∃ w e, a + 576 * n = 4294967296 * w + e ∧ e < 4294967296 :=
      ⟨(a + 576 * n) / 4294967296, (a + 576 * n) % 4294967296, (Nat.div_add_mod _ _).symm, Nat.mod_lt _ (by decide)⟩
    have hmod : (a + 24 * n * 24) % 4294967296 = e := by omega
    rw [hmod] at hlast hstop
    have hin : a + n * 24 < 4294967296 := by
      by_contra htop
      rw [show a + n * 24 = 4294967296 by omega] at hstop
      exact Nat.not_lt_zero _ hstop
    rw [Nat.mod_eq_of_lt hin] at hstop
    have hw : w ≤ 23 := by omega
    interval_cases w <;> omega

end BlocksAux

open BlocksAux

/-- For every map of `n` entries that fits into the address space: the loop over the blocks does not end, or it has not read just the
entries of the map. -/
theorem blockLoop_never_exact (info : MultibootInfo) (mem : Memory) (n : Nat) (hlen : info.mmapLength.toNat = 24 * n)
    (hfit : info.mmapAddr.toNat + 24 * n ≤ 4294967296) :
    ¬∃ rounds s, blockLoop info mem rounds 0 InitMm.start = some s ∧ BlocksExact info mem n s := by
  rintro ⟨rounds, s, hloop, hexact⟩
  obtain ⟨n', hstops, hentries⟩ := blockLoop_entries hloop
  obtain rfl : n' = n := by
    have hlength := congrArg List.length (hentries.symm.trans hexact.read)
    simpa [InitMm.start] using hlength
  have hend : w32 (info.mmapAddr.toNat + info.mmapLength.toNat * multibootMmapSize) = w32 (info.mmapAddr.toNat + 24 * n' * 24) := by
    rw [hlen]
  refine end_mismatch hfit (fun hn => ?_) ?_
  · have hread := hstops.read (n' - 1) (Nat.zero_le _) (by omega)
    rw [ne_eq, endOfBlocks_iff, hend, Nat.not_lt, MultibootInfo.entryAddr, w32_of_lt (by simp only [multibootMmapSize]; omega)] at hread
    exact hread
  · have hstop := hstops.stop
    rw [Nat.zero_add, endOfBlocks_iff, hend] at hstop
    exact hstop

/-- A memory map with one block of 3 MiB, at the address `0x9000`. -/
def oneBlock : Memory := fun a =>
  if a < 0x9000 then 0 else ([20, 0, 0, 0, 0, 0, 16, 0, 0, 0, 0, 0, 0, 0, 48, 0, 0, 0, 0, 0, 1, 0, 0, 0] : List UInt8).getD (a - 0x9000) 0

def oneBlockInfo : MultibootInfo := ⟨mbMmap, 0, 0, ⟨0, 0, 0⟩, 24, 0x9000⟩

theorem oneBlock_not_exact : ¬∃ rounds s, blockLoop oneBlockInfo oneBlock rounds 0 InitMm.start = some s ∧
    BlocksExact oneBlockInfo oneBlock 1 s :=
  blockLoop_never_exact oneBlockInfo oneBlock 1 (by decide) (by decide)

/-- The loop reads 25 entries, of which only the first belongs to the map. -/
theorem oneBlock_reads_more : oneBlockInfo.entry oneBlock 0 = ⟨0x100000, 0x300000, 1⟩ ∧
    ∃ s, blockLoop oneBlockInfo oneBlock 30 0 InitMm.start = some s ∧ s.entries = (List.range 25).map (fun i => 0x9000 + i * 24) ∧
      ¬BlocksExact oneBlockInfo oneBlock 1 s := by
  have hrun : (blockLoop oneBlockInfo oneBlock 30 0 InitMm.start).map InitMm.entries =
      some ((List.range 25).map (fun i => 0x9000 + i * 24)) := by decide +kernel
  obtain ⟨s, hs, hentries⟩ := Option.map_eq_some_iff.mp hrun
  refine ⟨by decide +kernel, s, hs, hentries, fun hexact => ?_⟩
  have hlength := congrArg List.length (hentries.symm.trans hexact.read)
  simp at hlength

end Kos
