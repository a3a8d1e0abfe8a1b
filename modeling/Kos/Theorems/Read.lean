import Kos.Lib.Run
import Kos.Fs.File

/-!
# Reading a file of the initial ramdisk

Both `do_read` and `vfs_read` advance the position of the file by what was read, so that after `p` bytes the next read starts at
`2 * p`. `read_inStep_iff` says when a request on a descriptor nevertheless delivers the bytes that come next.
-/

namespace Kos

/-- The content of a file of the initial ramdisk. -/
def Inode.content (ino : Inode) (mem : Memory) : List UInt8 := mem.bytes ino.impl ino.length

/-- The open files, and the bytes that the requests on one descriptor have delivered so far. -/
structure ReadRun where
  data : FsProcData
  delivered : List UInt8

/-- One `sys_read` request. -/
def readStep (mem : Memory) (fd : Nat) (s : ReadRun) (count : UInt32) : Option ReadRun :=
  let r := sysReadwrite mem s.data .read fd count.toNat
  some ⟨r.2.2, s.delivered ++ r.2.1⟩

/-- The request delivers what comes next in the file, as much as there is up to `count` bytes. -/
def DeliversNext (mem : Memory) (ino : Inode) (fd : Nat) (s : ReadRun) (count : UInt32) : Prop :=
  let r := sysReadwrite mem s.data .read fd count.toNat
  let n := min count.toNat (ino.length - s.delivered.length)
  r.1 = n ∧ r.2.1 = ((ino.content mem).drop s.delivered.length).take n

/-- Nothing has been delivered yet, or the request is for bytes of the file that are repeated at twice their offset, where the read
starts; the last alternative of the third condition is a sum that wraps and passes the bounds check. -/
def InStep (mem : Memory) (ino : Inode) (p count : Nat) : Prop :=
  p = 0 ∨
    w32 (2 * p) ≤ ino.length ∧ count ≤ ino.length - p ∧
      (w32 (2 * p) + count ≤ ino.length ∨ 4294967296 ≤ w32 (2 * p) + count) ∧
      ∀ j < count, mem (w32 (ino.impl + w32 (2 * p) + j)) = mem (w32 (ino.impl + p + j))

/-- What holds while every request delivers what comes next: the position is twice the number of bytes delivered. -/
structure ReadInv (mem : Memory) (ino : Inode) (fd : Nat) (s : ReadRun) : Prop where
  opened : s.data.files[fd]? = some (some ⟨⟨ino, w32 (2 * s.delivered.length)⟩, idFops⟩)
  delivered : s.delivered = (ino.content mem).take s.delivered.length
  le : s.delivered.length ≤ ino.length

namespace ReadAux

variable {mem : Memory} {ino : Inode} {fd : Nat} {s : ReadRun}

/-- What a request does on the descriptor. -/
theorem sysReadwrite_eq (h : ReadInv mem ino fd s) (count : Nat) :
    sysReadwrite mem s.data .read fd count =
      let r := doRead mem ⟨ino, w32 (2 * s.delivered.length)⟩ (w32 (2 * s.delivered.length)) count
      (r.result, r.data, ⟨s.data.files.set fd (some ⟨⟨r.file.inode, w32 (r.file.pos + r.result)⟩, idFops⟩)⟩) := by
  obtain ⟨hfd, -⟩ := List.getElem?_eq_some_iff.mp h.opened
  simp only [sysReadwrite, fd2file, Nat.not_le.mpr hfd, if_false, h.opened, Option.join_some, vfsRead, idFops, idRead]

/-- The number of bytes `do_read` copies from the offset `q` on, when it is inside the file. -/
def clipped (ino : Inode) (q count : Nat) : Nat := if w32 (q + count) > ino.length then ino.length - q else count

/-- Away from the start of the file the bounds check leaves the right count exactly when the request ends before both the place
where the next bytes are and the place where they are read, or wraps. -/
theorem clipped_eq_iff {p count : Nat} (hpos : 0 < p) (hp : p ≤ ino.length) (hq : w32 (2 * p) ≤ ino.length)
    (hc : count < 4294967296) :
    clipped ino (w32 (2 * p)) count = min count (ino.length - p) ↔
      count ≤ ino.length - p ∧ (w32 (2 * p) + count ≤ ino.length ∨ 4294967296 ≤ w32 (2 * p) + count) := by
  have hlen := ino.length_lt
  have hne : w32 (2 * p) ≠ p := by
    simp only [w32]
    omega
  rw [clipped]
  rcases Nat.lt_or_ge (w32 (2 * p) + count) 4294967296 with hsum | hsum
  · rw [w32_of_lt hsum]
    split <;> omega
  · have hw : w32 (w32 (2 * p) + count) = w32 (2 * p) + count - 4294967296 := w32_of_ge hsum (by omega)
    rw [if_neg (by omega)]
    omega

/-- A read from inside the file. -/
theorem doRead_inside {q : Nat} (hq : q ≤ ino.length) (count : Nat) :
    doRead mem ⟨ino, q⟩ q count =
      ⟨clipped ino q count, mem.bytes (ino.impl + q) (clipped ino q count), ⟨ino, w32 (q + clipped ino q count)⟩⟩ :=
  if_neg (Nat.not_lt.mpr hq)

/-- A read at the doubled offset delivers the next bytes exactly when the request is in step. -/
theorem doRead_iff {p count : Nat} (hp : p ≤ ino.length) (hc : count < 4294967296) :
    ((doRead mem ⟨ino, w32 (2 * p)⟩ (w32 (2 * p)) count).result = min count (ino.length - p) ∧
        (doRead mem ⟨ino, w32 (2 * p)⟩ (w32 (2 * p)) count).data =
          ((ino.content mem).drop p).take (min count (ino.length - p))) ↔
      InStep mem ino p count := by
  have hlen := ino.length_lt
  have hslice : ((ino.content mem).drop p).take (min count (ino.length - p)) =
      mem.bytes (ino.impl + p) (min count (ino.length - p)) := mem.take_drop_bytes (by omega)
  rw [hslice]
  by_cases hq : w32 (2 * p) ≤ ino.length
  · simp only [doRead_inside hq]
    rcases Nat.eq_zero_or_pos p with rfl | hpos
    · have hn : clipped ino (w32 (2 * 0)) count = min count (ino.length - 0) := by
        rw [clipped, show w32 (2 * 0) = 0 from rfl, Nat.zero_add, w32_of_lt hc]
        split <;> omega
      exact ⟨fun _ => .inl rfl, fun _ => ⟨hn, by rw [hn]; rfl⟩⟩
    · constructor
      · rintro ⟨hn, hdata⟩
        obtain ⟨hle, hwrap⟩ := (clipped_eq_iff hpos hp hq hc).mp hn
        rw [hn, Nat.min_eq_left hle, mem.bytes_eq_iff] at hdata
        exact .inr ⟨hq, hle, hwrap, hdata⟩
      · rintro (rfl | ⟨-, hle, hwrap, hdata⟩)
        · exact absurd hpos (Nat.lt_irrefl 0)
        · have hn := (clipped_eq_iff hpos hp hq hc).mpr ⟨hle, hwrap⟩
          refine ⟨hn, ?_⟩
          rw [hn, Nat.min_eq_left hle, mem.bytes_eq_iff]
          exact hdata
  · -- beyond the end of the file the result is -1, which is no number of bytes left to read
    have hread : doRead mem ⟨ino, w32 (2 * p)⟩ (w32 (2 * p)) count = ⟨negInt 1, [], ⟨ino, w32 (2 * p)⟩⟩ :=
      if_pos (Nat.not_le.mp hq)
    have hpos : 0 < p := Nat.pos_of_ne_zero fun h0 => hq (by rw [h0]; exact Nat.zero_le _)
    rw [hread]
    constructor
    · rintro ⟨hn, -⟩
      have hle : min count (ino.length - p) ≤ ino.length - p := Nat.min_le_right _ _
      rw [← hn] at hle
      have hone : negInt 1 = 4294967295 := rfl
      simp only [hone] at hle
      omega
    · rintro (rfl | ⟨hle, -⟩)
      · exact absurd hpos (Nat.lt_irrefl 0)
      · exact absurd hle hq

end ReadAux

open ReadAux

/-- A request on the descriptor delivers the next bytes exactly when it is in step. -/
theorem deliversNext_iff {mem : Memory} {ino : Inode} {fd : Nat} {s : ReadRun} (h : ReadInv mem ino fd s) (count : UInt32) :
    DeliversNext mem ino fd s count ↔ InStep mem ino s.delivered.length count.toNat := by
  simp only [DeliversNext, sysReadwrite_eq h]
  exact doRead_iff h.le count.toNat_lt

/-- A request that delivers the next bytes keeps the invariant. -/
theorem ReadInv.step {mem : Memory} {ino : Inode} {fd : Nat} {s s' : ReadRun} {count : UInt32} (h : ReadInv mem ino fd s)
    (hd : DeliversNext mem ino fd s count) (hs : readStep mem fd s count = some s') : ReadInv mem ino fd s' := by
  have hin : w32 (2 * s.delivered.length) ≤ ino.length := by
    rcases (deliversNext_iff h count).mp hd with h0 | ⟨hq, -⟩
    · rw [h0]
      exact Nat.zero_le _
    · exact hq
  obtain ⟨hfd, -⟩ := List.getElem?_eq_some_iff.mp h.opened
  have hcontent : (ino.content mem).length = ino.length := mem.length_bytes _ _
  simp only [DeliversNext, readStep, sysReadwrite_eq h, doRead_inside hin, Option.some.injEq] at hd hs
  obtain ⟨hn, hdata⟩ := hd
  rw [hn] at hdata hs
  generalize hk : min count.toNat (ino.length - s.delivered.length) = n at hdata hs
  have hle : s.delivered.length + n ≤ ino.length := by
    have := h.le
    omega
  subst hs
  have hnew : s.delivered ++ mem.bytes (ino.impl + w32 (2 * s.delivered.length)) n =
      (ino.content mem).take (s.delivered.length + n) := by
    rw [hdata, List.take_add, ← h.delivered]
  have hlen : (s.delivered ++ mem.bytes (ino.impl + w32 (2 * s.delivered.length)) n).length = s.delivered.length + n := by
    rw [hnew, List.length_take, hcontent, Nat.min_eq_left hle]
  refine ⟨?_, ?_, ?_⟩
  · have hpos : w32 (2 * s.delivered.length + n + n) = w32 (2 * (s.delivered.length + n)) := by
      rw [Nat.mul_add, Nat.two_mul n, Nat.add_assoc]
    simp only [List.getElem?_set_self hfd, hlen, w32_add_left, Nat.add_assoc] at hpos ⊢
    rw [hpos]
  · simp only [hlen]
    exact hnew
  · simp only [hlen]
    exact hle

/-- In every run of requests on a freshly opened descriptor that are all in step, what has been delivered is the beginning of the
file; and there the next request delivers exactly the next bytes, as many as there are up to its count, if and only if it is in
step. -/
theorem read_inStep_iff (mem : Memory) (ino : Inode) (fd : Nat) (data : FsProcData)
    (hopen : data.files[fd]? = some (some (idOpen ino))) (s : ReadRun)
    (h : Reach (readStep mem fd) (fun s count => InStep mem ino s.delivered.length count.toNat) ⟨data, []⟩ s) :
    s.delivered <+: ino.content mem ∧
      ∀ count, DeliversNext mem ino fd s count ↔ InStep mem ino s.delivered.length count.toNat := by
  have hinv : ReadInv mem ino fd s := by
    refine h.inv (ReadInv mem ino fd) ⟨hopen, rfl, Nat.zero_le _⟩ ?_
    intro s count s' hi hp hs
    exact hi.step ((deliversNext_iff hi count).mpr hp) hs
  refine ⟨?_, deliversNext_iff hinv⟩
  rw [hinv.delivered]
  exact List.take_prefix _ _

/-- A file of four bytes at address 4096. -/
def fourBytes : Inode where
  length := 4
  impl := 4096
  length_lt := by decide

/-- Two requests for one byte each of a file in which one byte is repeated. -/
theorem read_repeated_byte :
    ∃ s, [(1 : UInt32), 1].foldlM (readStep (fun _ => 7) 0) ⟨⟨[some (idOpen fourBytes)]⟩, []⟩ = some s ∧
      s.delivered <+: fourBytes.content (fun _ => 7) := by
  refine ⟨_, rfl, ?_⟩
  refine (read_inStep_iff (fun _ => 7) fourBytes 0 ⟨[some (idOpen fourBytes)]⟩ rfl _ ?_).1
  exact .step 1 (.step 1 .init (.inl rfl) rfl) (.inr (by decide)) rfl

/-- Two requests for one byte each of the file 0, 1, 2, 3 deliver 0 and 2: the second one skips a byte. -/
theorem read_skips_byte :
    ∃ s, [(1 : UInt32), 1].foldlM (readStep (fun a => UInt8.ofNat (a - 4096)) 0) ⟨⟨[some (idOpen fourBytes)]⟩, []⟩ = some s ∧
      s.delivered = [0, 2] ∧ fourBytes.content (fun a => UInt8.ofNat (a - 4096)) = [0, 1, 2, 3] := by
  refine ⟨_, rfl, ?_, ?_⟩ <;> decide

end Kos
