import Kos.Cdi.Storage

/-!
# Writing to a storage device

`dev_write` splits a request into the rest of its first block, whole blocks, and the beginning of its last block. Each part is one range of
bytes on the device, right behind the part before (`Writing`), so in the end the bytes of the request are replaced, and no others.
-/

namespace Kos

open StorageDevice

/-- The driver reads the blocks that the device has. -/
def StorageDevice.Reads (dev : StorageDevice) : Prop :=
  ∀ disk start n, start + n ≤ dev.blockCount → ∃ data, dev.readBlocks disk start n = some data ∧
    ∀ j < n * dev.blockSize, data j = disk (start * dev.blockSize + j)

/-- It writes them, and nothing else. -/
def StorageDevice.Writes (dev : StorageDevice) : Prop :=
  ∀ disk start n src, start + n ≤ dev.blockCount →
    dev.writeBlocks disk start n src = some (disk.put (start * dev.blockSize) (n * dev.blockSize) src)

/-- Two ranges of bytes have no address in common. -/
def RangesApart (p n q m : Nat) : Prop := ∀ i < n, ∀ j < m, p + i ≠ q + j

namespace StorageAux

variable {dev : StorageDevice} {disk mem : Memory} {buf : StaticBuffer} {buffer size offset : Nat}

/-! ## Memory -/

theorem put_congr {dst n : Nat} {src src' : Nat → UInt8} (h : ∀ j < n, src j = src' j) : mem.put dst n src = mem.put dst n src' := by
  funext a
  simp only [Memory.put]
  split
  · exact h _ (by omega)
  · rfl

@[simp] theorem put_zero (dst : Nat) (src : Nat → UInt8) : mem.put dst 0 src = mem := by
  funext a
  rw [Memory.put, if_neg (by omega)]

theorem put_at {dst n j : Nat} (src : Nat → UInt8) (h : j < n) : mem.put dst n src (dst + j) = src j := by
  rw [Memory.put, if_pos (by omega), Nat.add_sub_cancel_left]

theorem copy_at {dst src n j : Nat} (h : j < n) : mem.copy dst src n (dst + j) = mem (src + j) := by
  rw [Memory.copy, if_pos (by omega), Nat.add_sub_cancel_left]

/-- A block that is read, changed in a part and written back: only this part changes. -/
theorem put_block {start b off n : Nat} {data src : Nat → UInt8} (hdata : ∀ j < b, data j = disk (start + j)) (hfits : off + n ≤ b) :
    disk.put start b (fun j => if off ≤ j ∧ j < off + n then src (j - off) else data j) = disk.put (start + off) n src := by
  funext a
  simp only [Memory.put]
  by_cases hpart : start + off ≤ a ∧ a < start + off + n
  · rw [if_pos (by omega), if_pos (by omega), if_pos hpart]
    congr 1
    omega
  · rw [if_neg hpart]
    split
    · rw [if_neg (by omega), hdata _ (by omega)]
      congr 1
      omega
    · rfl

/-! ## The parts of a request -/

/-- What holds after `k` bytes of the request: they are on the device, and those that are left are still in the caller's buffer. -/
structure Writing (disk mem : Memory) (buffer size offset k : Nat) (w : Writer) : Prop where
  written : w.disk = disk.put offset k (mem.from buffer)
  le : k ≤ size
  left : w.size = size - k
  next : w.src = buffer + k
  kept : ∀ j < size, w.mem (buffer + j) = mem (buffer + j)

/-- The bytes at `src` are the next ones of the request. -/
theorem Writing.from {k : Nat} {w : Writer} (h : Writing disk mem buffer size offset k w) {j : Nat} (hj : k + j < size) :
    w.mem.from w.src j = mem.from buffer (k + j) := by
  rw [Memory.from, h.next, Nat.add_assoc, h.kept (k + j) hj, Memory.from]

/-- `n` more bytes are written behind the first `k`. -/
theorem Writing.put {k n : Nat} {w : Writer} (h : Writing disk mem buffer size offset k w) (hn : k + n ≤ size) :
    w.disk.put (offset + k) n (w.mem.from w.src) = disk.put offset (k + n) (mem.from buffer) := by
  rw [h.written, ← Memory.put_put]
  apply put_congr
  intro j hj
  exact h.from (by omega)

/-- Some bytes of one block are written. -/
theorem modifyBlock_spec (hr : dev.Reads) (hw : dev.Writes) {k off n : Nat} {w : Writer}
    (h : Writing disk mem buffer size offset k w) (hbuf : dev.blockSize ≤ buf.size) (hapart : RangesApart buf.ptr buf.size buffer size)
    (hblock : w.startblock < dev.blockCount) (hfits : off + n ≤ dev.blockSize) (hn : k + n ≤ size)
    (hpos : w.startblock * dev.blockSize + off = offset + k) :
    ∃ mem', dev.modifyBlock buf off n w = some (0, { w with disk := disk.put offset (k + n) (mem.from buffer), mem := mem' }) ∧
      ∀ j < size, mem' (buffer + j) = mem (buffer + j) := by
  obtain ⟨data, hread, hdata⟩ := hr w.disk w.startblock 1 hblock
  rw [Nat.one_mul] at hdata
  have hfill : w.mem.fill buf.ptr buf.size dev.blockSize data = some (w.mem.put buf.ptr dev.blockSize data) := if_pos hbuf
  generalize hmem' : (w.mem.put buf.ptr dev.blockSize data).copy (buf.ptr + off) w.src n = mem'
  -- neither the block nor what is copied into it is written to the caller's buffer
  have hkeep₁ : ∀ j < size, w.mem.put buf.ptr dev.blockSize data (buffer + j) = w.mem (buffer + j) := by
    intro j hj
    rw [Memory.put, if_neg]
    rintro ⟨hle, hlt⟩
    exact hapart (buffer + j - buf.ptr) (by omega) j hj (by omega)
  have hkeep : ∀ j < size, mem' (buffer + j) = mem (buffer + j) := by
    intro j hj
    rw [← hmem', Memory.copy, if_neg, hkeep₁ j hj, h.kept j hj]
    rintro ⟨hle, hlt⟩
    exact hapart (buffer + j - buf.ptr) (by omega) j hj (by omega)
  have hmerged : ∀ j < dev.blockSize,
      mem'.from buf.ptr j = if off ≤ j ∧ j < off + n then w.mem.from w.src (j - off) else data j := by
    intro j hj
    rw [← hmem', Memory.from, Memory.copy]
    by_cases hpart : off ≤ j ∧ j < off + n
    · rw [if_pos (by omega), if_pos hpart, h.next, show buffer + k + (buf.ptr + j - (buf.ptr + off)) = buffer + (k + (j - off)) by omega,
        hkeep₁ _ (by omega), Memory.from, Nat.add_assoc]
    · rw [if_neg (by omega), if_neg hpart, put_at data hj]
  have hdisk : w.disk.put (w.startblock * dev.blockSize) (1 * dev.blockSize) (mem'.from buf.ptr) =
      disk.put offset (k + n) (mem.from buffer) := by
    rw [Nat.one_mul, put_congr hmerged, put_block hdata hfits, hpos, h.put hn]
  refine ⟨mem', ?_, hkeep⟩
  simp only [modifyBlock, hread, hfill, Option.bind_some, if_pos (Nat.le_trans hfits hbuf), hmem', hw w.disk w.startblock 1 _ hblock, hdisk]

/-- All is written, or the next byte is the first one of the block at `startblock`. -/
def AtBlock (dev : StorageDevice) (offset k : Nat) (w : Writer) : Prop := w.size = 0 ∨ w.startblock * dev.blockSize = offset + k

variable (hr : dev.Reads) (hw : dev.Writes) (hb : 1 ≤ dev.blockSize) (hend : offset + size < 4294967296)
  (hin : offset + size ≤ dev.blockSize * dev.blockCount)

include hr hw hb hend hin in
theorem writeHead_spec {w : Writer} (h : Writing disk mem buffer size offset 0 w) (hstart : w.startblock = offset / dev.blockSize)
    (hbuf : dev.blockSize ≤ buf.size) (hapart : RangesApart buf.ptr buf.size buffer size) :
    ∃ k w', dev.writeHead buf offset w = some (0, w') ∧ Writing disk mem buffer size offset k w' ∧ AtBlock dev offset k w' := by
  have hdiv := Nat.div_add_mod offset dev.blockSize
  have hleft : w.size = size := h.left
  by_cases hun : offset % dev.blockSize = 0
  · refine ⟨0, w, if_neg (not_not.mpr hun), h, .inr ?_⟩
    rw [hstart, Nat.mul_comm]
    omega
  · have hmod := Nat.mod_lt offset hb
    generalize hn : (if dev.blockSize - offset % dev.blockSize > size then size else dev.blockSize - offset % dev.blockSize) = n
    have hnsize : n ≤ size := by
      rw [← hn]
      split <;> omega
    have hfits : offset % dev.blockSize + n ≤ dev.blockSize := by
      rw [← hn]
      split <;> omega
    have hblock : w.startblock < dev.blockCount := by
      rw [hstart, Nat.div_lt_iff_lt_mul hb, Nat.mul_comm]
      refine Nat.lt_of_le_of_ne (by omega) ?_
      intro heq
      exact hun (heq ▸ Nat.mul_mod_right ..)
    have hpos : w.startblock * dev.blockSize + offset % dev.blockSize = offset + 0 := by
      rw [hstart, Nat.mul_comm]
      omega
    obtain ⟨mem', hmodify, hkept⟩ := modifyBlock_spec hr hw h hbuf hapart hblock hfits (by omega) hpos
    rw [Nat.zero_add] at hmodify
    have hwrap : w64 (w.startblock + 1) = w.startblock + 1 := by
      have := Nat.div_le_self offset dev.blockSize
      exact Nat.mod_eq_of_lt (by omega)
    refine ⟨n, ⟨disk.put offset n (mem.from buffer), mem', size - n, buffer + n, w.startblock + 1⟩, ?_,
      ⟨rfl, hnsize, rfl, rfl, hkept⟩, ?_⟩
    · have hsrc : w.src = buffer := h.next
      simp only [writeHead, ne_eq, hun, not_false_eq_true, ↓reduceIte, hleft, hn, hmodify, Option.map_some, not_true_eq_false, hsrc, hwrap]
    · by_cases hall : n = size
      · exact .inl (by rw [hall, Nat.sub_self])
      · refine .inr ?_
        have hrest : n = dev.blockSize - offset % dev.blockSize := by
          rw [← hn] at hall ⊢
          split at hall
          · exact absurd rfl hall
          · rename_i hle
            rw [if_neg hle]
        simp only [hstart, Nat.add_mul, Nat.one_mul]
        rw [Nat.mul_comm]
        omega

include hw hb hend hin in
theorem writeWhole_spec {k : Nat} {w : Writer} (h : Writing disk mem buffer size offset k w) (hat : AtBlock dev offset k w) :
    ∃ k' w', dev.writeWhole w = (0, w') ∧ Writing disk mem buffer size offset k' w' ∧ AtBlock dev offset k' w' ∧
      w'.size < dev.blockSize := by
  have hdiv := Nat.div_add_mod w.size dev.blockSize
  have hmod := Nat.mod_lt w.size hb
  have hle := h.le
  have hleft := h.left
  by_cases hnum : w.size / dev.blockSize = 0
  · refine ⟨k, w, if_neg (not_not.mpr hnum), h, hat, ?_⟩
    rw [hnum] at hdiv
    omega
  · have hsize : w.size ≠ 0 := by
      intro hzero
      rw [hzero, Nat.zero_div] at hnum
      exact hnum rfl
    have hpos : w.startblock * dev.blockSize = offset + k := hat.resolve_left hsize
    generalize hn : w.size / dev.blockSize = n at hdiv hnum
    rw [Nat.mul_comm] at hdiv
    have hmul : (w.startblock + n) * dev.blockSize = offset + k + n * dev.blockSize := by rw [Nat.add_mul, hpos]
    have hblocks : w.startblock + n ≤ dev.blockCount := by
      apply Nat.le_of_mul_le_mul_right _ hb
      rw [hmul, Nat.mul_comm dev.blockCount]
      omega
    have hwrap : w64 (w.startblock + n) = w.startblock + n := by
      have := Nat.le_mul_of_pos_right (w.startblock + n) hb
      exact Nat.mod_eq_of_lt (by omega)
    have hput := h.put (n := n * dev.blockSize) (by omega)
    refine ⟨k + n * dev.blockSize, ⟨disk.put offset (k + n * dev.blockSize) (mem.from buffer), w.mem, w.size - n * dev.blockSize,
      w.src + n * dev.blockSize, w.startblock + n⟩, ?_, ⟨rfl, by omega, ?_, ?_, h.kept⟩, .inr ?_, ?_⟩
    · simp only [writeWhole, hn, ne_eq, hnum, not_false_eq_true, ↓reduceIte, hw _ _ _ _ hblocks, hpos, hput, hwrap]
    · simp only
      omega
    · simp only [h.next]
      omega
    · rw [hmul, Nat.add_assoc]
    · simp only
      omega

include hr hw hin in
theorem writeTail_spec {k : Nat} {w : Writer} (h : Writing disk mem buffer size offset k w) (hat : AtBlock dev offset k w)
    (hsize : w.size < dev.blockSize) (hbuf : dev.blockSize ≤ buf.size) (hapart : RangesApart buf.ptr buf.size buffer size) :
    ∃ w', dev.writeTail buf w = some (0, w') ∧ w'.disk = disk.put offset size (mem.from buffer) := by
  have hle := h.le
  have hleft := h.left
  by_cases hzero : w.size = 0
  · refine ⟨w, if_neg (not_not.mpr hzero), ?_⟩
    rw [h.written, show k = size by omega]
  · have hpos : w.startblock * dev.blockSize = offset + k := hat.resolve_left hzero
    have hblock : w.startblock < dev.blockCount := by
      apply Nat.lt_of_mul_lt_mul_right (a := dev.blockSize)
      rw [hpos, Nat.mul_comm dev.blockCount]
      omega
    obtain ⟨mem', hmodify, -⟩ := modifyBlock_spec hr hw h hbuf hapart hblock
      (show 0 + w.size ≤ dev.blockSize by omega) (by omega) hpos
    refine ⟨⟨disk.put offset (k + w.size) (mem.from buffer), mem', w.size, w.src, w.startblock⟩, ?_, ?_⟩
    · rw [writeTail, if_pos hzero, if_pos hsize, hmodify]
    · simp only
      rw [show k + w.size = size by omega]

end StorageAux

open StorageAux

/-- A request that lies on the device is written: `dev_write` returns its size, and the bytes of the request on the device, and no others, are
those of the caller's buffer. -/
theorem devWrite_spec {dev : StorageDevice} (hb : 1 ≤ dev.blockSize) (hr : dev.Reads) (hw : dev.Writes) {size offset : Nat}
    (hend : offset + size < 4294967296) (hin : offset + size ≤ dev.blockSize * dev.blockCount) (disk mem : Memory) (buf : StaticBuffer)
    {newbuf buffer : Nat} (hold : RangesApart buf.ptr buf.size buffer size)
    (hnew : buf.size < dev.blockSize → RangesApart newbuf dev.blockSize buffer size) :
    ∃ r, dev.devWrite disk mem buf newbuf buffer size offset = some r ∧ r.status = asInt size ∧
      r.disk = disk.put offset size (mem.from buffer) := by
  obtain ⟨buf', calls, hensure, hbuf, hapart⟩ : ∃ buf' calls, buf.ensure dev.blockSize newbuf = (buf', calls) ∧
      dev.blockSize ≤ buf'.size ∧ RangesApart buf'.ptr buf'.size buffer size := by
    unfold StaticBuffer.ensure
    split
    · rename_i hlt
      exact ⟨_, _, rfl, Nat.le_refl _, hnew hlt⟩
    · rename_i hle
      exact ⟨_, _, rfl, Nat.not_lt.mp hle, hold⟩
  have hstart : Writing disk mem buffer size offset 0 ⟨disk, mem, size, buffer, offset / dev.blockSize⟩ :=
    ⟨(put_zero _ _).symm, Nat.zero_le _, rfl, rfl, fun _ _ => rfl⟩
  obtain ⟨k₁, w₁, hhead, h₁, hat₁⟩ := writeHead_spec hr hw hb hend hin hstart rfl hbuf hapart
  obtain ⟨k₂, w₂, hwhole, h₂, hat₂, hsize₂⟩ := writeWhole_spec hw hb hend hin h₁ hat₁
  obtain ⟨w₃, htail, hdisk⟩ := writeTail_spec hr hw hin h₂ hat₂ hsize₂ hbuf hapart
  have hresult : dev.devWrite disk mem buf newbuf buffer size offset = some ⟨asInt size, w₃.disk, w₃.mem, buf', calls⟩ := by
    simp only [devWrite, if_neg (Nat.ne_of_gt hb), hensure, hhead, Option.bind_some, ne_eq, not_true_eq_false, ↓reduceIte, hwhole, htail,
      Option.map_some]
  refine ⟨_, hresult, ?_, hdisk⟩
  simp only

/-- A device whose driver does what it should. -/
def ramDisk (blockSize blockCount : Nat) : StorageDevice where
  blockSize := blockSize
  blockCount := blockCount
  readBlocks disk start n := if start + n ≤ blockCount then some (disk.from (start * blockSize)) else none
  writeBlocks disk start n src := if start + n ≤ blockCount then some (disk.put (start * blockSize) (n * blockSize) src) else none

theorem ramDisk_reads (b n : Nat) : (ramDisk b n).Reads := fun _ _ _ h => ⟨_, if_pos h, fun _ _ => rfl⟩

theorem ramDisk_writes (b n : Nat) : (ramDisk b n).Writes := fun _ _ _ _ h => if_pos h

/-- Six bytes that end one block, fill another, and begin a third. -/
theorem ramDisk_written : ∃ r, (ramDisk 4 4).devWrite (fun _ => 0) (fun a => UInt8.ofNat a) ⟨0, 0⟩ 200 100 6 3 = some r ∧
    r.status = 6 ∧ (List.range 16).map r.disk = [0, 0, 0, 100, 101, 102, 103, 104, 105, 0, 0, 0, 0, 0, 0, 0] := by
  have hold : RangesApart 0 0 100 6 := fun i hi => absurd hi (Nat.not_lt_zero i)
  have hnew : RangesApart 200 4 100 6 := by
    intro i hi j hj
    omega
  obtain ⟨r, hr, hstatus, hdisk⟩ := devWrite_spec (by decide) (ramDisk_reads 4 4) (ramDisk_writes 4 4)
    (show 3 + 6 < 4294967296 by decide) (by decide) (fun _ => 0) (fun a => UInt8.ofNat a) ⟨0, 0⟩ hold fun _ => hnew
  refine ⟨r, hr, hstatus.trans (by decide), ?_⟩
  rw [hdisk]
  decide

end Kos
