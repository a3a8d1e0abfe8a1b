import Kos.Theorems.StorageWrite

/-!
# Reading from a storage device

For a request that is not aligned, `dev_read` reads the blocks from the one it begins in to the one of the first byte behind it. If that byte
is the first one behind the device, there is no such block, and the driver fails: the request is served unless it begins within a block and
ends with the last one (`devRead_iff`). Where the end of the request, or the size of the temporary buffer, does not fit into 32 bits, it is not
served either.
-/

namespace Kos

open StorageDevice StorageAux

/-- The driver fails for a request that reaches behind the device. -/
def StorageDevice.Refuses (dev : StorageDevice) : Prop :=
  ∀ disk start n, dev.blockCount < start + n → dev.readBlocks disk start n = none

/-- The end of the request is a 32-bit number, and it begins and ends at a block, or there is a block behind it, and the blocks up to this one
fit into a buffer. -/
def ReadOk (dev : StorageDevice) (size offset : Nat) : Prop :=
  offset + size < 4294967296 ∧
    ((offset % dev.blockSize = 0 ∧ (offset + size) % dev.blockSize = 0) ∨
      ((offset + size) / dev.blockSize < dev.blockCount ∧
        ((offset + size) / dev.blockSize - offset / dev.blockSize + 1) * dev.blockSize < 4294967296))

instance (dev : StorageDevice) (size offset : Nat) : Decidable (ReadOk dev size offset) := inferInstanceAs (Decidable (_ ∧ _))

/-- `dev_read` returns the size of the request, and its bytes are in the caller's buffer. -/
def Served (dev : StorageDevice) (disk mem : Memory) (tmp : StaticBuffer) (newbuf buffer size offset : Nat) : Prop :=
  ∃ r, dev.devRead disk mem tmp newbuf buffer size offset = some r ∧ r.status = asInt size ∧
    ∀ j < size, r.mem (buffer + j) = disk (offset + j)

namespace StorageAux

variable {dev : StorageDevice} {disk mem : Memory} {tmp : StaticBuffer} {newbuf buffer size offset : Nat}

/-- The number of blocks, if the end of the request is a 32-bit number. -/
theorem numblocks_eq (dev : StorageDevice) (hend : offset + size < 4294967296) :
    dev.numblocks size offset = (offset + size) / dev.blockSize - offset / dev.blockSize := by
  have hle : offset / dev.blockSize ≤ (offset + size) / dev.blockSize := Nat.div_le_div_right (Nat.le_add_right _ _)
  have hlt : (offset + size) / dev.blockSize ≤ offset + size := Nat.div_le_self _ _
  rw [numblocks, w32_of_lt hend, w64]
  generalize offset / dev.blockSize = start at hle ⊢
  generalize (offset + size) / dev.blockSize = stop at hle hlt ⊢
  omega

/-- One more, which is read into the temporary buffer. -/
theorem numblocks_succ_eq (dev : StorageDevice) (hend : offset + size < 4294967296) :
    w64 (dev.numblocks size offset + 1) = (offset + size) / dev.blockSize - offset / dev.blockSize + 1 := by
  have hlt : (offset + size) / dev.blockSize ≤ offset + size := Nat.div_le_self _ _
  rw [numblocks_eq dev hend]
  generalize offset / dev.blockSize = start
  generalize (offset + size) / dev.blockSize = stop at hlt
  exact Nat.mod_eq_of_lt (by omega)

theorem ensure_size_le (tmp : StaticBuffer) (n newbuf : Nat) : n ≤ (tmp.ensure n newbuf).1.size := by
  unfold StaticBuffer.ensure
  split
  · exact Nat.le_refl _
  · rename_i hle
    exact Nat.not_lt.mp hle

/-- An aligned request. -/
theorem served_aligned (hb : 1 ≤ dev.blockSize) (hr : dev.Reads) (hend : offset + size < 4294967296)
    (hin : offset + size ≤ dev.blockSize * dev.blockCount) (hoff : offset % dev.blockSize = 0)
    (hoff' : (offset + size) % dev.blockSize = 0) : Served dev disk mem tmp newbuf buffer size offset := by
  have haligned : dev.aligned size offset = true := by simp [aligned, w32_of_lt hend, hoff, hoff']
  have hstart : offset / dev.blockSize * dev.blockSize = offset := Nat.div_mul_cancel (Nat.dvd_of_mod_eq_zero hoff)
  have hstop : (offset + size) / dev.blockSize * dev.blockSize = offset + size := Nat.div_mul_cancel (Nat.dvd_of_mod_eq_zero hoff')
  have hle : offset / dev.blockSize ≤ (offset + size) / dev.blockSize := Nat.div_le_div_right (Nat.le_add_right _ _)
  have hnum := numblocks_eq dev hend
  have hbytes : dev.numblocks size offset * dev.blockSize = size := by
    rw [hnum, Nat.sub_mul, hstart, hstop, Nat.add_sub_cancel_left]
  have hblocks : offset / dev.blockSize + dev.numblocks size offset ≤ dev.blockCount := by
    rw [hnum, Nat.add_sub_cancel' hle]
    exact Nat.div_le_of_le_mul hin
  obtain ⟨data, hread, hdata⟩ := hr disk _ _ hblocks
  rw [hbytes, hstart] at hdata
  have hresult : dev.devRead disk mem tmp newbuf buffer size offset = some ⟨asInt size, mem.put buffer size data, tmp, []⟩ := by
    simp only [devRead, if_neg (Nat.ne_of_gt hb), haligned, ↓reduceIte, hread, hbytes, Memory.fill, Nat.le_refl, Option.map_some]
  refine ⟨_, hresult, ?_, ?_⟩
  · simp only
  · intro j hj
    simp only
    rw [put_at data hj, hdata j hj]

/-- `copyOut` puts the bytes from the temporary buffer into that of the caller. -/
theorem copyOut_spec (mem : Memory) (calls : List BufferCall) (buffer : Nat) (h : offset % dev.blockSize + size ≤ tmp.size) :
    ∃ r, dev.copyOut mem tmp calls buffer size offset = some r ∧ r.status = asInt size ∧
      ∀ j < size, r.mem (buffer + j) = mem (tmp.ptr + offset % dev.blockSize + j) := by
  rw [copyOut, if_pos h]
  split
  all_goals
    refine ⟨_, rfl, ?_, ?_⟩
    · simp only
    · intro j hj
      exact copy_at hj

/-- Any other request, if there is a block behind it. -/
theorem served_unaligned (hb : 1 ≤ dev.blockSize) (hr : dev.Reads) (hend : offset + size < 4294967296)
    (haligned : dev.aligned size offset = false) (hlast : (offset + size) / dev.blockSize < dev.blockCount)
    (hfits : ((offset + size) / dev.blockSize - offset / dev.blockSize + 1) * dev.blockSize < 4294967296) :
    Served dev disk mem tmp newbuf buffer size offset := by
  have hle : offset / dev.blockSize ≤ (offset + size) / dev.blockSize := Nat.div_le_div_right (Nat.le_add_right _ _)
  have hcount := numblocks_succ_eq dev hend
  generalize hn : (offset + size) / dev.blockSize - offset / dev.blockSize + 1 = n at hfits hcount
  have hneeded : dev.needed size offset = n * dev.blockSize := by rw [needed, hcount, w32_of_lt hfits]
  have hblocks : offset / dev.blockSize + n ≤ dev.blockCount := by omega
  obtain ⟨data, hread, hdata⟩ := hr disk _ _ hblocks
  have hroom := ensure_size_le tmp (n * dev.blockSize) newbuf
  obtain ⟨tmp', calls, hensure⟩ : ∃ tmp' calls, tmp.ensure (n * dev.blockSize) newbuf = (tmp', calls) := ⟨_, _, rfl⟩
  rw [hensure] at hroom
  have hdiv := Nat.div_add_mod' offset dev.blockSize
  have hinside : offset % dev.blockSize + size ≤ n * dev.blockSize := by
    have hstop := Nat.div_add_mod' (offset + size) dev.blockSize
    have hmod := Nat.mod_lt (offset + size) hb
    have hsum : offset / dev.blockSize * dev.blockSize + n * dev.blockSize =
        (offset + size) / dev.blockSize * dev.blockSize + dev.blockSize := by
      rw [← Nat.add_mul, ← Nat.succ_mul]
      congr 1
      omega
    omega
  obtain ⟨r, hcopy, hstatus, hmem⟩ := copyOut_spec (mem.put tmp'.ptr (n * dev.blockSize) data) calls buffer (Nat.le_trans hinside hroom)
  have hresult : dev.devRead disk mem tmp newbuf buffer size offset = some r := by
    simp only [devRead, if_neg (Nat.ne_of_gt hb), haligned, Bool.false_eq_true, ↓reduceIte, hneeded, hensure, hcount, hread, Memory.fill,
      if_pos hroom, Option.bind_some]
    exact hcopy
  refine ⟨r, hresult, hstatus, ?_⟩
  intro j hj
  rw [hmem j hj, Nat.add_assoc, put_at data (by omega), hdata _ (by omega)]
  congr 1
  omega

/-! ## Requests that are not served -/

/-- The first block, and the one of the byte behind the request, if the end of the request wraps. -/
theorem numblocks_wrap (dev : StorageDevice) (hend : 4294967296 ≤ offset + size) (hoffset : offset < 4294967296) (hsize : size < 4294967296) :
    (offset + size - 4294967296) / dev.blockSize ≤ offset / dev.blockSize ∧
      dev.numblocks size offset =
        w64 ((offset + size - 4294967296) / dev.blockSize + (18446744073709551616 - offset / dev.blockSize)) := by
  refine ⟨Nat.div_le_div_right (by omega), ?_⟩
  rw [numblocks, w32_of_ge hend (by omega)]

/-- The device holds other bytes than the memory, and there is no temporary buffer yet: if a request is served, the driver has not failed. -/
theorem reaches_of_served (hf : dev.Refuses) (hsize : 0 < size)
    (h : Served dev (fun _ => 1) (fun _ => 0) ⟨0, 0⟩ newbuf buffer size offset) :
    offset / dev.blockSize + (if dev.aligned size offset then dev.numblocks size offset else w64 (dev.numblocks size offset + 1)) ≤
      dev.blockCount := by
  by_contra hbehind
  obtain ⟨r, hresult, -, hmem⟩ := h
  have hrefused := hf (fun _ => 1) _ _ (Nat.not_le.mp hbehind)
  have hzero : r.mem = fun _ => 0 := by
    cases haligned : dev.aligned size offset
    all_goals
      simp only [haligned, Bool.false_eq_true, ↓reduceIte] at hrefused
      simp only [devRead, haligned, Bool.false_eq_true, ↓reduceIte, hrefused] at hresult
      split at hresult <;> cases hresult
      rfl
  have hone := hmem 0 hsize
  rw [hzero] at hone
  cases hone

/-- And if it has not failed, then the blocks, and the bytes behind `offs`, fit into the temporary buffer. -/
theorem fits_of_served_unaligned (hr : dev.Reads) (haligned : dev.aligned size offset = false)
    (hblocks : offset / dev.blockSize + w64 (dev.numblocks size offset + 1) ≤ dev.blockCount)
    (h : Served dev disk mem ⟨0, 0⟩ newbuf buffer size offset) :
    w64 (dev.numblocks size offset + 1) * dev.blockSize ≤ dev.needed size offset ∧
      offset % dev.blockSize + size ≤ dev.needed size offset := by
  obtain ⟨r, hresult, -, -⟩ := h
  obtain ⟨data, hread, -⟩ := hr disk _ _ hblocks
  have hroom : (StaticBuffer.ensure ⟨0, 0⟩ (dev.needed size offset) newbuf).1.size = dev.needed size offset := by
    unfold StaticBuffer.ensure
    split
    · rfl
    · rename_i hle
      exact (Nat.le_zero.mp (Nat.not_lt.mp hle)).symm
  obtain ⟨tmp', calls, hensure⟩ : ∃ tmp' calls, StaticBuffer.ensure ⟨0, 0⟩ (dev.needed size offset) newbuf = (tmp', calls) := ⟨_, _, rfl⟩
  rw [hensure] at hroom
  simp only at hroom
  simp only [devRead, haligned, Bool.false_eq_true, ↓reduceIte, hensure, hread, Memory.fill, hroom] at hresult
  split at hresult
  · cases hresult
  · obtain ⟨mem', hfill, hcopy⟩ := Option.bind_eq_some_iff.mp hresult
    constructor
    · by_contra hle
      rw [if_neg hle] at hfill
      cases hfill
    · by_contra hle
      rw [copyOut, if_neg (by rw [hroom]; exact hle)] at hcopy
      cases hcopy

/-- A request whose end does not fit into 32 bits is not served. -/
theorem not_served_wrap (hb : 1 ≤ dev.blockSize) (hb' : dev.blockSize < 4294967296) (hcount : dev.blockCount < 18446744073709551616)
    (hr : dev.Reads) (hf : dev.Refuses) (hoffset : offset < 4294967296) (hsize : size < 4294967296)
    (hend : 4294967296 ≤ offset + size) : ¬ Served dev (fun _ => 1) (fun _ => 0) ⟨0, 0⟩ newbuf buffer size offset := by
  intro h
  obtain ⟨hle, hnum⟩ := numblocks_wrap dev hend hoffset hsize
  have hstart := Nat.div_add_mod' offset dev.blockSize
  have hstop := Nat.div_add_mod' (offset + size - 4294967296) dev.blockSize
  have hlt := Nat.div_le_self offset dev.blockSize
  cases haligned : dev.aligned size offset with
  | true =>
    have hreach := reaches_of_served hf (by omega) h
    rw [haligned, if_pos rfl] at hreach
    simp only [aligned, w32_of_ge hend (by omega), Bool.and_eq_true, decide_eq_true_eq] at haligned
    rw [haligned.1] at hstart
    rw [haligned.2] at hstop
    -- the end is at a block before the first one
    have hne : (offset + size - 4294967296) / dev.blockSize ≠ offset / dev.blockSize := by
      intro heq
      rw [heq] at hstop
      omega
    rw [hnum] at hreach
    generalize (offset + size - 4294967296) / dev.blockSize = stop at hle hne hreach
    generalize offset / dev.blockSize = start at hle hne hlt hreach
    simp only [w64] at hreach
    omega
  | false =>
    have hreach := reaches_of_served hf (by omega) h
    rw [haligned, if_neg Bool.false_ne_true] at hreach
    obtain ⟨-, hfits⟩ := fits_of_served_unaligned hr haligned hreach h
    rw [needed] at hfits
    rw [hnum] at hreach hfits
    by_cases heq : (offset + size - 4294967296) / dev.blockSize = offset / dev.blockSize
    · -- the same block: one block is read, but the request is longer than that
      have hone : w64 (w64 (offset / dev.blockSize + (18446744073709551616 - offset / dev.blockSize)) + 1) = 1 := by
        generalize offset / dev.blockSize = start at hlt
        simp only [w64]
        omega
      rw [heq] at hstop
      rw [heq, hone, Nat.one_mul, w32_of_lt hb'] at hfits
      omega
    · by_cases hprev : (offset + size - 4294967296) / dev.blockSize + 1 = offset / dev.blockSize
      · -- the block before: no block is read
        have hnone : w64 (w64 ((offset + size - 4294967296) / dev.blockSize + (18446744073709551616 - offset / dev.blockSize)) + 1) = 0 := by
          rw [← hprev]
          generalize (offset + size - 4294967296) / dev.blockSize = stop at hprev
          simp only [w64]
          omega
        rw [hnone, Nat.zero_mul] at hfits
        simp only [w32, Nat.zero_mod] at hfits
        omega
      · generalize (offset + size - 4294967296) / dev.blockSize = stop at hle heq hprev hreach
        generalize offset / dev.blockSize = start at hle heq hprev hlt hreach
        simp only [w64] at hreach
        omega

end StorageAux

/-- Every request that lies on the device is served, with any contents of the device and of the memory, and in any state of the temporary
buffer, exactly if it is as `ReadOk` says. -/
theorem devRead_iff {dev : StorageDevice} (hb : 1 ≤ dev.blockSize) (hb' : dev.blockSize < 4294967296)
    (hcount : dev.blockCount < 18446744073709551616) (hr : dev.Reads) (hf : dev.Refuses) {size offset : Nat}
    (hsize : size < 4294967296) (hoffset : offset < 4294967296) (hin : offset + size ≤ dev.blockSize * dev.blockCount) :
    (∀ disk mem tmp newbuf buffer, Served dev disk mem tmp newbuf buffer size offset) ↔ ReadOk dev size offset := by
  constructor
  · intro h
    have hserved := h (fun _ => 1) (fun _ => 0) ⟨0, 0⟩ 0 0
    by_cases hend : offset + size < 4294967296
    swap
    · exact absurd hserved (not_served_wrap hb hb' hcount hr hf hoffset hsize (Nat.not_lt.mp hend))
    refine ⟨hend, ?_⟩
    cases haligned : dev.aligned size offset with
    | true =>
      simp only [aligned, w32_of_lt hend, Bool.and_eq_true, decide_eq_true_eq] at haligned
      exact .inl haligned
    | false =>
      have hle : offset / dev.blockSize ≤ (offset + size) / dev.blockSize := Nat.div_le_div_right (Nat.le_add_right _ _)
      have hn := numblocks_succ_eq dev hend
      have hreach : offset / dev.blockSize + w64 (dev.numblocks size offset + 1) ≤ dev.blockCount := by
        rcases Nat.eq_zero_or_pos size with rfl | hpos
        · -- an empty request within a block of the device
          have hun : offset % dev.blockSize ≠ 0 := by
            intro hmod
            simp [aligned, w32_of_lt hoffset, hmod] at haligned
          have hne : offset ≠ dev.blockSize * dev.blockCount := by
            rintro rfl
            exact hun (Nat.mul_mod_right ..)
          have hlt : offset / dev.blockSize < dev.blockCount := by
            rw [Nat.div_lt_iff_lt_mul hb, Nat.mul_comm]
            exact Nat.lt_of_le_of_ne hin hne
          simp only [Nat.add_zero] at hn
          rw [hn, Nat.sub_self]
          exact hlt
        · have hreach := reaches_of_served hf hpos hserved
          rwa [haligned, if_neg Bool.false_ne_true] at hreach
      obtain ⟨hblocks, -⟩ := fits_of_served_unaligned hr haligned hreach hserved
      have hneeded : dev.needed size offset < 4294967296 := w32_lt _
      rw [hn] at hblocks hreach
      exact .inr ⟨by omega, by omega⟩
  · rintro ⟨hend, hok⟩ disk mem tmp newbuf buffer
    cases haligned : dev.aligned size offset with
    | true =>
      simp only [aligned, w32_of_lt hend, Bool.and_eq_true, decide_eq_true_eq] at haligned
      exact served_aligned hb hr hend hin haligned.1 haligned.2
    | false =>
      rcases hok with ⟨hoff, hoff'⟩ | ⟨hlast, hfits⟩
      · simp [aligned, w32_of_lt hend, hoff, hoff'] at haligned
      · exact served_unaligned hb hr hend haligned hlast hfits

theorem ramDisk_refuses (b n : Nat) : (ramDisk b n).Refuses := fun _ _ _ h => if_neg (Nat.not_le.mpr h)

/-- Five bytes from the middle of a block to the middle of the next one. -/
theorem ramDisk_read : ∃ r, (ramDisk 4 4).devRead (fun a => UInt8.ofNat a) (fun _ => 0) ⟨0, 0⟩ 200 100 5 2 = some r ∧
    r.status = 5 ∧ ∀ j < 5, r.mem (100 + j) = UInt8.ofNat (2 + j) := by
  have hserved := (devRead_iff (by decide) (by decide) (by decide) (ramDisk_reads 4 4) (ramDisk_refuses 4 4)
    (show 5 < 4294967296 by decide) (show 2 < 4294967296 by decide) (by decide)).mpr (by decide)
  obtain ⟨r, hread, hstatus, hmem⟩ := hserved (fun a => UInt8.ofNat a) (fun _ => 0) ⟨0, 0⟩ 200 100
  exact ⟨r, hread, hstatus.trans (by decide), hmem⟩

/-- The last two bytes of the device: they end with its last block, so that the driver is asked for one more, and fails. -/
theorem ramDisk_last_bytes : (ramDisk 4 4).Reads ∧ (ramDisk 4 4).Refuses ∧ 14 + 2 ≤ (ramDisk 4 4).blockSize * (ramDisk 4 4).blockCount ∧
    ∃ r, (ramDisk 4 4).devRead (fun a => UInt8.ofNat a) (fun _ => 0) ⟨0, 0⟩ 200 100 2 14 = some r ∧ r.status = -1 ∧ r.mem 100 = 0 :=
  ⟨ramDisk_reads 4 4, ramDisk_refuses 4 4, by decide, _, rfl, rfl, rfl⟩

end Kos
