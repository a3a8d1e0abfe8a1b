import Kos.Lib.Calls
import Kos.Lib.Run
import Kos.Lemmas.Ringbuffer

/-!
# Ring buffers over whole runs

A ring buffer that is not overridden gives the same answers as a queue of bounded length, whatever the calls are (`rbuf_fifo`). A
buffer that may be overridden should keep the newest elements; `rbuf_write` moves the write index over the oldest elements and counts
them on, without moving the read index. It keeps the newest elements as long as no write is larger than the free space
(`newest_of_fits`).
-/

namespace Kos

/-- A call on a ring buffer whose elements have `e` bytes. -/
inductive RbufCall (e : Nat) where
  | write (src : List (Vector UInt8 e))
  | read (count : Nat)
  deriving DecidableEq, Repr

/-- What a call returns: the number of elements written, or the elements read. -/
inductive RbufResult where
  | written (num : Nat)
  | elems (elems : List (List UInt8))
  deriving DecidableEq, Repr

/-- The bytes of each element. -/
def elemBytes {e : Nat} (src : List (Vector UInt8 e)) : List (List UInt8) := src.map (·.toList)

def rbufCall {e : Nat} (rb : Ringbuffer) : RbufCall e → RbufResult × Ringbuffer
  | .write src =>
    let (num, rb) := rbufWrite rb (elemBytes src)
    (.written num, rb)
  | .read count =>
    let (elems, rb) := rbufRead rb count
    (.elems elems, rb)

/-- A queue of at most `n` elements: what does not fit is refused. -/
def fifoCall {e : Nat} (n : Nat) (q : List (List UInt8)) : RbufCall e → RbufResult × List (List UInt8)
  | .write src =>
    let num := min src.length (n - q.length)
    (.written num, q ++ (elemBytes src).take num)
  | .read count => (.elems (q.take count), q.drop count)

/-- A queue of at most `n` elements: a write drops the oldest ones. -/
def newestCall {e : Nat} (n : Nat) (q : List (List UInt8)) : RbufCall e → List (List UInt8)
  | .write src => (q ++ elemBytes src).drop (q.length + src.length - n)
  | .read count => q.drop count

@[simp] theorem length_elemBytes {e : Nat} (src : List (Vector UInt8 e)) : (elemBytes src).length = src.length := List.length_map ..

theorem length_of_mem_elemBytes {e : Nat} {src : List (Vector UInt8 e)} {elem : List UInt8} (h : elem ∈ elemBytes src) :
    elem.length = e := by
  obtain ⟨v, -, rfl⟩ := List.mem_map.mp h
  exact v.length_toList

open RingbufferAux

namespace RbufRunAux

/-- The buffer has the elements of the queue, and room for `n`. -/
structure Holds (e n : Nat) (override : Bool) (rb : Ringbuffer) (q : List (List UInt8)) : Prop where
  wf : RbufWf rb
  esize : rb.esize = e
  maxcnt : rb.maxcnt = n
  mode : rb.override = override
  contents : rb.contents = q

variable {e n : Nat} {override : Bool} {rb : Ringbuffer} {q : List (List UInt8)}

theorem Holds.count (h : Holds e n override rb q) : rb.count = q.length := by
  rw [← h.contents, length_contents]

theorem Holds.length_le (h : Holds e n override rb q) : q.length ≤ n := by
  rw [← h.count, ← h.maxcnt]
  exact h.wf.count_le

theorem Holds.freesize (h : Holds e n override rb q) : rbufFreesize rb = n - q.length := by
  rw [rbufFreesize, sub32_of_le h.wf.count_le (maxcnt_lt h.wf), h.maxcnt, h.count]

/-- The elements and the place of the buffer after a call, in the same mode. -/
theorem Holds.next {rb' : Ringbuffer} {q' : List (List UInt8)} (h : Holds e n override rb q) (hshape : SameShape rb rb')
    (hwf : RbufWf rb') (hcont : rb'.contents = q') : Holds e n override rb' q' :=
  ⟨hwf, hshape.1.trans h.esize, hshape.2.1.trans h.maxcnt, hshape.2.2.trans h.mode, hcont⟩

theorem holds_create (data : Nat → UInt8) (override : Bool) (he : 0 < e) (hn : 0 < n) (hfit : n * e < 4294967296) :
    Holds e n override (rbufCreate data e n override) [] :=
  ⟨rbufCreate_wf data override he hn hfit, rfl, rfl, rfl, rfl⟩

theorem Holds.read (h : Holds e n override rb q) (count : Nat) :
    (rbufRead rb count).1 = q.take count ∧ Holds e n override (rbufRead rb count).2 (q.drop count) := by
  obtain ⟨helems, hwf, hcont⟩ := rbufRead_spec h.wf count
  rw [h.contents] at helems hcont
  exact ⟨helems, h.next (rbufRead_shape rb count) hwf hcont⟩

theorem Holds.length_elem (h : Holds e n override rb q) (src : List (Vector UInt8 e)) :
    ∀ elem ∈ elemBytes src, elem.length = rb.esize := by
  intro elem helem
  rw [h.esize]
  exact length_of_mem_elemBytes helem

theorem Holds.writeFits (h : Holds e n override rb q) {src : List (Vector UInt8 e)} (hfit : src.length ≤ n - q.length) :
    Holds e n override (rbufWrite rb (elemBytes src)).2 (q ++ elemBytes src) := by
  obtain ⟨-, hwf, hcont⟩ := rbufWrite_fits h.wf (h.length_elem src) (by rwa [length_elemBytes, h.maxcnt, h.count])
  rw [h.contents] at hcont
  exact h.next (rbufWrite_shape rb _) hwf hcont

/-- A call on a buffer that is not overridden is the call on the queue. -/
theorem Holds.fifo (h : Holds e n false rb q) (c : RbufCall e) :
    (rbufCall rb c).1 = (fifoCall n q c).1 ∧ Holds e n false (rbufCall rb c).2 (fifoCall n q c).2 := by
  cases c with
  | write src =>
    obtain ⟨hnum, hwf, hcont⟩ := rbufWrite_spec h.wf h.mode (elemBytes src) (h.length_elem src)
    rw [h.maxcnt, h.count] at hnum hcont
    rw [length_elemBytes] at hnum
    have htake : (elemBytes src).take (min src.length (n - q.length)) = (elemBytes src).take (n - q.length) := by
      rw [List.take_eq_take_iff, length_elemBytes]
      omega
    rw [h.contents, ← htake] at hcont
    exact ⟨congrArg RbufResult.written hnum, h.next (rbufWrite_shape rb _) hwf hcont⟩
  | read count =>
    obtain ⟨helems, hnext⟩ := h.read count
    exact ⟨congrArg RbufResult.elems helems, hnext⟩

end RbufRunAux

open RbufRunAux

/-- A ring buffer that is not overridden answers every sequence of calls as the queue of at most `n` elements does, and reports the
queue's length, the room left and whether it is empty. -/
theorem rbuf_fifo (data : Nat → UInt8) (e n : Nat) (he : 1 ≤ e) (hn : 1 ≤ n) (hfit : n * e < 4294967296)
    (calls : List (RbufCall e)) :
    let rb := runCalls rbufCall (rbufCreate data e n false) calls
    let q := runCalls (fifoCall n) [] calls
    rb.1 = q.1 ∧ rbufAvail rb.2 = q.2.length ∧ rbufFreesize rb.2 = n - q.2.length ∧
      (rbufEmpty rb.2 = true ↔ q.2.length = 0) := by
  intro rb q
  obtain ⟨hresults, hholds⟩ := runCalls_sim (RbufRunAux.Holds e n false) (fun _ _ c h => h.fifo c) calls (holds_create data false he hn hfit)
  refine ⟨hresults, hholds.count, hholds.freesize, ?_⟩
  rw [rbufEmpty, beq_iff_eq, hholds.count]

/-- Three elements are offered to a buffer for two, and the read wraps around. -/
theorem rbuf_fifo_small :
    let calls : List (RbufCall 1) := [.write [#v[1], #v[2], #v[3]], .read 1, .write [#v[4]], .read 5]
    (runCalls rbufCall (rbufCreate (fun _ => 0) 1 2 false) calls).1 =
      [.written 2, .elems [[1]], .written 1, .elems [[2], [4]]] := by
  intro calls
  exact ((rbuf_fifo (fun _ => 0) 1 2 (by decide) (by decide) (by decide) calls).1).trans (by decide)

/-! ## Overriding -/

/-- A buffer that may be overridden, and the elements that it should have. -/
structure NewestRun where
  rb : Ringbuffer
  kept : List (List UInt8)

def NewestRun.next {e : Nat} (n : Nat) (r : NewestRun) (c : RbufCall e) : NewestRun := ⟨(rbufCall r.rb c).2, newestCall n r.kept c⟩

/-- At most `n` elements are reported, the room left is right, and reading all of them gives the elements that should be there. -/
def Newest (n : Nat) (r : NewestRun) : Prop :=
  rbufAvail r.rb ≤ n ∧ rbufFreesize r.rb = n - rbufAvail r.rb ∧ (rbufRead r.rb (rbufAvail r.rb)).1 = r.kept

/-- A write is not larger than the free space. -/
def Fits {e : Nat} (r : NewestRun) : RbufCall e → Prop
  | .write src => src.length ≤ rbufFreesize r.rb
  | .read _ => True

namespace RbufRunAux

/-- What holds as long as the writes fit. A buffer for no elements never gets one. -/
structure NewestInv (e n : Nat) (r : NewestRun) : Prop where
  mode : r.rb.override = true
  maxcnt : r.rb.maxcnt = n
  count : r.rb.count = r.kept.length
  length_le : r.kept.length ≤ n
  holds : 0 < n → RbufRunAux.Holds e n true r.rb r.kept

variable {e n : Nat} {r : NewestRun}

theorem NewestInv.freesize (h : NewestInv e n r) (hn : n < 4294967296) : rbufFreesize r.rb = n - r.kept.length := by
  rw [rbufFreesize, h.maxcnt, h.count, sub32_of_le h.length_le hn]

theorem NewestInv.newest (h : NewestInv e n r) (hn : n < 4294967296) : Newest n r := by
  refine ⟨?_, ?_, ?_⟩
  · rw [rbufAvail, h.count]
    exact h.length_le
  · rw [h.freesize hn, rbufAvail, h.count]
  · rcases Nat.eq_zero_or_pos n with rfl | hpos
    · have hkept : r.kept = [] := List.eq_nil_of_length_eq_zero (Nat.le_zero.mp h.length_le)
      have hlen := length_rbufRead r.rb (rbufAvail r.rb)
      rw [rbufAvail, h.count, hkept, List.length_nil, Nat.min_self] at hlen
      rw [hkept, rbufAvail, h.count, hkept]
      exact List.eq_nil_of_length_eq_zero hlen
    · rw [((h.holds hpos).read _).1, rbufAvail, h.count, List.take_length]

/-- A write that fits drops nothing. -/
theorem newestCall_write_fits {q : List (List UInt8)} {src : List (Vector UInt8 e)} (hfit : q.length + src.length ≤ n) :
    newestCall n q (.write src) = q ++ elemBytes src := by
  simp only [newestCall]
  rw [Nat.sub_eq_zero_of_le hfit, List.drop_zero]

/-- The count after a write, with the elements that the buffer may override counted on. -/
theorem NewestInv.count_write (h : NewestInv e n r) (src : List (Vector UInt8 e)) :
    (rbufWrite r.rb (elemBytes src)).2.count = w32 (r.kept.length + src.length) := by
  simp only [rbufWrite, h.mode, Bool.not_true, Bool.false_eq_true, and_false, if_false, length_elemBytes, h.count]

theorem NewestInv.next (h : NewestInv e n r) (hn : n < 4294967296) {c : RbufCall e} (hc : Fits r c) :
    NewestInv e n (r.next n c) := by
  have hle := h.length_le
  cases c with
  | write src =>
    have hfit : src.length ≤ n - r.kept.length := by
      rw [← h.freesize hn]
      exact hc
    obtain ⟨-, hmax, hmode⟩ := rbufWrite_shape r.rb (elemBytes src)
    have hkept : (r.next n (.write src)).kept = r.kept ++ elemBytes src := newestCall_write_fits (by omega)
    have hlen : (r.next n (.write src)).kept.length = r.kept.length + src.length := by
      rw [hkept, List.length_append, length_elemBytes]
    refine ⟨hmode.trans h.mode, hmax.trans h.maxcnt, ?_, ?_, ?_⟩
    · rw [hlen, ← w32_of_lt (n := r.kept.length + src.length) (by omega)]
      exact h.count_write src
    · rw [hlen]
      omega
    · intro hpos
      rw [hkept]
      exact (h.holds hpos).writeFits hfit
  | read count =>
    obtain ⟨-, hmax, hmode⟩ := rbufRead_shape r.rb count
    refine ⟨hmode.trans h.mode, hmax.trans h.maxcnt, ?_, ?_, ?_⟩
    · refine (count_rbufRead (by rw [h.count]; omega) count).trans ?_
      rw [h.count]
      exact (List.length_drop ..).symm
    · exact Nat.le_trans (Nat.le_of_eq (List.length_drop ..)) (Nat.le_trans (Nat.sub_le ..) hle)
    · intro hpos
      exact ((h.holds hpos).read count).2

/-- After a write that does not fit, as many elements should be there as the buffer is made for, and another number is counted. -/
theorem NewestInv.not_newest (h : NewestInv e n r) (hn : n < 4294967296) {src : List (Vector UInt8 e)}
    (hsize : src.length < 4294967296) (hbig : rbufFreesize r.rb < src.length) : ¬Newest n (r.next n (.write src)) := by
  rintro ⟨-, -, hread⟩
  have hle := h.length_le
  rw [h.freesize hn] at hbig
  have hkept : (r.next n (.write src)).kept.length = n := by
    simp only [NewestRun.next, newestCall, List.length_drop, List.length_append, length_elemBytes]
    omega
  have hlen := length_rbufRead (r.next n (.write src)).rb (rbufAvail (r.next n (.write src)).rb)
  rw [hread, hkept, rbufAvail, Nat.min_self] at hlen
  have hcount : (r.next n (.write src)).rb.count = w32 (r.kept.length + src.length) := h.count_write src
  rw [hcount, w32] at hlen
  omega

end RbufRunAux

/-- In every run whose writes are not larger than the free space, a buffer that may be overridden has exactly the newest elements; a
further write keeps that so if and only if it is not larger than the free space. -/
theorem newest_of_fits (data : Nat → UInt8) (e n : Nat) (he : 1 ≤ e) (hfit : n * e < 4294967296) (r : NewestRun)
    (h : Reach (fun r (c : RbufCall e) => some (r.next n c)) Fits ⟨rbufCreate data e n true, []⟩ r) :
    Newest n r ∧ ∀ src : List (Vector UInt8 e), src.length < 4294967296 →
      (Newest n (r.next n (.write src)) ↔ src.length ≤ rbufFreesize r.rb) := by
  have hn : n < 4294967296 := Nat.lt_of_le_of_lt (Nat.le_mul_of_pos_right n he) hfit
  have hstart : NewestInv e n ⟨rbufCreate data e n true, []⟩ :=
    ⟨rfl, rfl, rfl, Nat.zero_le n, fun hpos => holds_create data true he hpos hfit⟩
  have hinv : NewestInv e n r := by
    refine h.inv (NewestInv e n) hstart ?_
    intro r c r' hr hc hstep
    cases hstep
    exact hr.next hn hc
  refine ⟨hinv.newest hn, ?_⟩
  intro src hsize
  constructor
  · intro hnew
    by_contra hbig
    exact hinv.not_newest hn hsize (Nat.not_le.mp hbig) hnew
  · intro hle
    exact (hinv.next hn (c := .write src) hle).newest hn

/-- A write that fills a buffer for one element. -/
theorem newest_one_written :
    Newest 1 (NewestRun.next 1 ⟨rbufCreate (fun _ => 0) 1 1 true, []⟩ (.write [(#v[7] : Vector UInt8 1)])) :=
  (newest_of_fits (fun _ => 0) 1 1 (by decide) (by decide) _ (.step (.write [#v[7]]) .init (by unfold Fits; decide) rfl)).1

/-- A buffer for one element after two writes of one element each. -/
def overridden : NewestRun :=
  (NewestRun.next 1 ⟨rbufCreate (fun _ => 0) 1 1 true, []⟩ (.write [(#v[7] : Vector UInt8 1)])).next 1
    (.write [(#v[8] : Vector UInt8 1)])

/-- Two elements are reported where there is room for one, the free space wraps, and a read gives the newer element twice. -/
theorem newest_overridden :
    rbufAvail overridden.rb = 2 ∧ rbufFreesize overridden.rb = 4294967295 ∧
      (rbufRead overridden.rb (rbufAvail overridden.rb)).1 = [[8], [8]] ∧ overridden.kept = [[8]] ∧ ¬Newest 1 overridden := by
  refine ⟨by decide +kernel, by decide +kernel, by decide +kernel, by decide +kernel, ?_⟩
  rintro ⟨hle, -⟩
  exact absurd hle (by decide +kernel)

end Kos
