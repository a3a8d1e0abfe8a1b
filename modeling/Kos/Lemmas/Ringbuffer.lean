import Kos.Util.Ringbuffer

/-!
# Ring buffers are queues

`Ringbuffer.contents` lists the elements from the read index on. For a buffer that is not overridden, a write appends to this list
and a read takes from its front (`rbufWrite_spec`, `rbufRead_spec`).
-/

namespace Kos

/-- The buffer's shape: it fits into the address space, the read index is at an element, and the write index is `count` elements
further. -/
structure RbufWf (rb : Ringbuffer) : Prop where
  esize_pos : 0 < rb.esize
  maxcnt_pos : 0 < rb.maxcnt
  fits : rb.maxcnt * rb.esize < 4294967296
  count_le : rb.count ≤ rb.maxcnt
  ridx : ∃ r < rb.maxcnt, rb.ridx = r * rb.esize
  widx : rb.widx = (rb.ridx / rb.esize + rb.count) % rb.maxcnt * rb.esize

/-- The elements in the buffer, the oldest first. -/
def Ringbuffer.contents (rb : Ringbuffer) : List (List UInt8) :=
  (List.range rb.count).map (fun i => rb.elemAt ((rb.ridx / rb.esize + i) % rb.maxcnt * rb.esize))

@[simp] theorem length_contents (rb : Ringbuffer) : rb.contents.length = rb.count := by simp [Ringbuffer.contents]

theorem rbufCreate_wf (data : Nat → UInt8) {esize num : Nat} (override : Bool) (he : 0 < esize) (hn : 0 < num)
    (hfit : num * esize < 4294967296) : RbufWf (rbufCreate data esize num override) :=
  ⟨he, hn, hfit, Nat.zero_le _, ⟨0, hn, (Nat.zero_mul _).symm⟩, by simp [rbufCreate]⟩

namespace RingbufferAux

variable {rb : Ringbuffer}

theorem maxcnt_lt (h : RbufWf rb) : rb.maxcnt < 4294967296 :=
  Nat.lt_of_le_of_lt (Nat.le_mul_of_pos_right _ h.esize_pos) h.fits

/-- The next element's offset, around the end of the buffer. -/
theorem advance_eq (h : RbufWf rb) {i : Nat} (hi : i < rb.maxcnt) :
    rb.advance (i * rb.esize) = (i + 1) % rb.maxcnt * rb.esize := by
  have hle : (i + 1) * rb.esize ≤ rb.maxcnt * rb.esize := Nat.mul_le_mul_right _ hi
  have hfit := h.fits
  rw [Ringbuffer.advance, ← Nat.succ_mul, w32_of_lt (Nat.lt_of_le_of_lt hle hfit), w32_of_lt hfit, Nat.mul_mod_mul_right]

/-- Two elements' offsets around the ring are different. -/
theorem index_ne {r i j m : Nat} (hij : i < j) (hjm : j < m + i) : (r + i) % m ≠ (r + j) % m := by
  intro he
  have hsub : (j - i) % m = 0 := by
    have := Nat.sub_mod_eq_zero_of_mod_eq he.symm
    rwa [Nat.add_sub_add_left] at this
  rw [Nat.mod_eq_of_lt (by omega)] at hsub
  omega

/-- Writing an element does not touch the element at another offset. -/
theorem elemAt_putElem_ne {w j : Nat} (hw : rb.widx = w * rb.esize) (hj : j ≠ w) (elem : List UInt8) :
    (rb.putElem elem).elemAt (j * rb.esize) = rb.elemAt (j * rb.esize) := by
  refine List.map_congr_left fun b hb => ?_
  have hb : b < rb.esize := List.mem_range.mp hb
  refine if_neg fun hin => hj ?_
  rw [hw] at hin
  rcases Nat.lt_trichotomy j w with hlt | heq | hgt
  · have := Nat.mul_le_mul_right rb.esize (Nat.succ_le_of_lt hlt)
    rw [Nat.succ_mul] at this
    omega
  · exact heq
  · have := Nat.mul_le_mul_right rb.esize (Nat.succ_le_of_lt hgt)
    rw [Nat.succ_mul] at this
    omega

/-- The element that is written is at the write index. -/
theorem elemAt_putElem_self {elem : List UInt8} (hlen : elem.length = rb.esize) :
    (rb.putElem elem).elemAt rb.widx = elem := by
  refine List.ext_getElem (by simp [Ringbuffer.elemAt, Ringbuffer.putElem, hlen]) fun b hb hb' => ?_
  have hlt : b < rb.esize := hlen ▸ hb'
  simp [Ringbuffer.elemAt, Ringbuffer.putElem, hlt, hb']

/-- One round of the loop of `rbuf_write`, with the element counted. -/
theorem putElem_spec (h : RbufWf rb) (hfull : rb.count < rb.maxcnt) {elem : List UInt8} (hlen : elem.length = rb.esize) :
    RbufWf { rb.putElem elem with count := rb.count + 1 } ∧
      Ringbuffer.contents { rb.putElem elem with count := rb.count + 1 } = rb.contents ++ [elem] := by
  have hw := h.widx
  have hwlt : (rb.ridx / rb.esize + rb.count) % rb.maxcnt < rb.maxcnt := Nat.mod_lt _ h.maxcnt_pos
  refine ⟨⟨h.esize_pos, h.maxcnt_pos, h.fits, hfull, h.ridx, ?_⟩, ?_⟩
  · simp only [Ringbuffer.putElem]
    rw [hw, advance_eq h hwlt, Nat.mod_add_mod, Nat.add_assoc]
  · simp only [Ringbuffer.contents, List.range_succ, List.map_append, List.map_cons, List.map_nil]
    congr 1
    · refine List.map_congr_left fun i hi => ?_
      have hi : i < rb.count := List.mem_range.mp hi
      exact elemAt_putElem_ne hw (index_ne hi (by omega)) elem
    · congr 1
      have hself : (rb.putElem elem).elemAt rb.widx = elem := elemAt_putElem_self hlen
      rw [hw] at hself
      exact hself

/-- The loop of `rbuf_write` neither reads nor changes the count. -/
theorem foldl_putElem_count (elems : List (List UInt8)) (rb : Ringbuffer) (c : Nat) :
    elems.foldl Ringbuffer.putElem { rb with count := c } = { elems.foldl Ringbuffer.putElem rb with count := c } := by
  induction elems generalizing rb with
  | nil => rfl
  | cons e elems ih => exact ih (rb.putElem e)

/-- The loop of `rbuf_write`, with its elements counted. -/
theorem foldl_putElem_spec (h : RbufWf rb) (elems : List (List UInt8)) (hlen : ∀ e ∈ elems, e.length = rb.esize)
    (hfull : rb.count + elems.length ≤ rb.maxcnt) :
    RbufWf { elems.foldl Ringbuffer.putElem rb with count := rb.count + elems.length } ∧
      Ringbuffer.contents { elems.foldl Ringbuffer.putElem rb with count := rb.count + elems.length } =
        rb.contents ++ elems := by
  induction elems generalizing rb with
  | nil => exact ⟨h, (List.append_nil _).symm⟩
  | cons e elems ih =>
    rw [List.length_cons] at hfull
    obtain ⟨hwf, hcont⟩ := putElem_spec h (by omega) (hlen e (List.mem_cons_self ..))
    have hrest := ih hwf (fun e' he' => hlen e' (List.mem_cons_of_mem e he')) (by simp only [Ringbuffer.putElem]; omega)
    simp only [foldl_putElem_count, hcont, Nat.add_assoc, Nat.add_comm 1] at hrest
    simpa only [List.foldl_cons, List.length_cons, List.append_assoc, List.singleton_append] using hrest

/-- One round of the loop of `rbuf_read`, with the element no longer counted. -/
theorem getElem_spec (h : RbufWf rb) (hne : 0 < rb.count) :
    RbufWf { rb with ridx := rb.advance rb.ridx, count := rb.count - 1 } ∧
      rb.contents = rb.elemAt rb.ridx :: Ringbuffer.contents { rb with ridx := rb.advance rb.ridx, count := rb.count - 1 } := by
  obtain ⟨r, hr, hridx⟩ := h.ridx
  have hdiv : rb.ridx / rb.esize = r := by rw [hridx, Nat.mul_div_cancel _ h.esize_pos]
  have hadv : rb.advance rb.ridx = (r + 1) % rb.maxcnt * rb.esize := by rw [hridx, advance_eq h hr]
  have hadv' : rb.advance rb.ridx / rb.esize = (r + 1) % rb.maxcnt := by rw [hadv, Nat.mul_div_cancel _ h.esize_pos]
  obtain ⟨n, hn⟩ : ∃ n, rb.count = n + 1 := Nat.exists_eq_succ_of_ne_zero (Nat.pos_iff_ne_zero.mp hne)
  refine ⟨⟨h.esize_pos, h.maxcnt_pos, h.fits, Nat.le_trans (Nat.sub_le _ _) h.count_le,
    ⟨_, Nat.mod_lt _ h.maxcnt_pos, hadv⟩, ?_⟩, ?_⟩
  · have hw := h.widx
    rw [hdiv] at hw
    simp only [hadv', Nat.mod_add_mod, hn, Nat.add_sub_cancel]
    rw [hw, hn, Nat.add_assoc, Nat.add_comm 1]
  · simp only [Ringbuffer.contents, hadv', hdiv, hn, Nat.add_sub_cancel, List.range_succ_eq_map, List.map_cons, List.map_map]
    congr 1
    · rw [Nat.add_zero, Nat.mod_eq_of_lt hr, hridx]
    · refine List.map_congr_left fun i _ => ?_
      simp only [Function.comp, Nat.mod_add_mod]
      rw [show r + 1 + i = r + Nat.succ i by omega]
      rfl

/-- The loop of `rbuf_read` neither reads nor changes the count. -/
theorem getElems_count (n : Nat) (rb : Ringbuffer) (c : Nat) :
    Ringbuffer.getElems n { rb with count := c } =
      ((Ringbuffer.getElems n rb).1, { (Ringbuffer.getElems n rb).2 with count := c }) := by
  induction n generalizing rb with
  | zero => rfl
  | succ n ih =>
    have := ih { rb with ridx := rb.advance rb.ridx }
    simp only [Ringbuffer.getElems, Ringbuffer.advance, Ringbuffer.elemAt] at this ⊢
    rw [this]

/-- The number of elements that `rbuf_read` reads. -/
theorem read_num (rb : Ringbuffer) (count : Nat) :
    (if count > rbufAvail rb then rbufAvail rb else count) = min count rb.count := by
  rw [rbufAvail]
  by_cases hc : count > rb.count
  · rw [if_pos hc, Nat.min_eq_right (Nat.le_of_lt hc)]
  · rw [if_neg hc, Nat.min_eq_left (Nat.not_lt.mp hc)]

theorem length_getElems (n : Nat) (rb : Ringbuffer) : (Ringbuffer.getElems n rb).1.length = n := by
  induction n generalizing rb with
  | zero => rfl
  | succ n ih => exact congrArg (· + 1) (ih { rb with ridx := rb.advance rb.ridx })

/-- The loop of `rbuf_read`, with its elements no longer counted. -/
theorem getElems_spec {n : Nat} (h : RbufWf rb) (hn : n ≤ rb.count) :
    (Ringbuffer.getElems n rb).1 = rb.contents.take n ∧
      RbufWf { (Ringbuffer.getElems n rb).2 with count := rb.count - n } ∧
      Ringbuffer.contents { (Ringbuffer.getElems n rb).2 with count := rb.count - n } = rb.contents.drop n := by
  induction n generalizing rb with
  | zero => exact ⟨rfl, h, rfl⟩
  | succ n ih =>
    obtain ⟨hwf, hcont⟩ := getElem_spec h (by omega)
    obtain ⟨h₁, h₂, h₃⟩ := ih hwf (Nat.le_sub_one_of_lt hn)
    have hc := getElems_count n { rb with ridx := rb.advance rb.ridx } (rb.count - 1)
    have hsub : rb.count - 1 - n = rb.count - (n + 1) := by rw [Nat.sub_sub, Nat.add_comm]
    simp only [hsub] at h₂ h₃
    rw [hc] at h₁ h₂ h₃
    rw [hcont]
    exact ⟨congrArg (rb.elemAt rb.ridx :: ·) h₁, h₂, h₃⟩

/-- The buffers have the same place and the same mode. -/
def SameShape (rb rb' : Ringbuffer) : Prop := rb'.esize = rb.esize ∧ rb'.maxcnt = rb.maxcnt ∧ rb'.override = rb.override

theorem foldl_putElem_shape (elems : List (List UInt8)) (rb : Ringbuffer) :
    SameShape rb (elems.foldl Ringbuffer.putElem rb) := by
  induction elems generalizing rb with
  | nil => exact ⟨rfl, rfl, rfl⟩
  | cons e elems ih => exact ih (rb.putElem e)

theorem getElems_shape (n : Nat) (rb : Ringbuffer) : SameShape rb (Ringbuffer.getElems n rb).2 := by
  induction n generalizing rb with
  | zero => exact ⟨rfl, rfl, rfl⟩
  | succ n ih => exact ih { rb with ridx := rb.advance rb.ridx }

end RingbufferAux

open RingbufferAux

theorem rbufWrite_shape (rb : Ringbuffer) (src : List (List UInt8)) : SameShape rb (rbufWrite rb src).2 :=
  foldl_putElem_shape _ rb

theorem rbufRead_shape (rb : Ringbuffer) (count : Nat) : SameShape rb (rbufRead rb count).2 := getElems_shape _ rb

theorem length_rbufRead (rb : Ringbuffer) (count : Nat) : (rbufRead rb count).1.length = min count rb.count := by
  simp only [rbufRead, length_getElems, read_num]

theorem count_rbufRead {rb : Ringbuffer} (h : rb.count < 4294967296) (count : Nat) :
    (rbufRead rb count).2.count = rb.count - count := by
  simp only [rbufRead, read_num]
  rw [sub32_of_le (Nat.min_le_right _ _) h]
  omega

/-- A write of no more elements than there is room for appends them all, whether the buffer may be overridden or not. -/
theorem rbufWrite_fits {rb : Ringbuffer} (h : RbufWf rb) {src : List (List UInt8)} (hlen : ∀ e ∈ src, e.length = rb.esize)
    (hfit : src.length ≤ rb.maxcnt - rb.count) :
    (rbufWrite rb src).1 = src.length ∧ RbufWf (rbufWrite rb src).2 ∧ (rbufWrite rb src).2.contents = rb.contents ++ src := by
  have hmax := maxcnt_lt h
  have hcount := h.count_le
  have hfree : rbufFreesize rb = rb.maxcnt - rb.count := sub32_of_le hcount hmax
  have hnum : ¬(src.length > rbufFreesize rb ∧ (!rb.override) = true) := by
    rintro ⟨hgt, -⟩
    omega
  have hsecond : (rbufWrite rb src).2 = { src.foldl Ringbuffer.putElem rb with count := rb.count + src.length } := by
    have hw : w32 (rb.count + src.length) = rb.count + src.length := w32_of_lt (by omega)
    simp only [rbufWrite, hnum, if_false, List.take_length, hw]
  obtain ⟨hwf, hcont⟩ := foldl_putElem_spec h src hlen (by omega)
  rw [hsecond]
  exact ⟨if_neg hnum, hwf, hcont⟩

/-- A write to a buffer that is not overridden appends as many elements as there is room for. -/
theorem rbufWrite_spec {rb : Ringbuffer} (h : RbufWf rb) (ho : rb.override = false) (src : List (List UInt8))
    (hlen : ∀ e ∈ src, e.length = rb.esize) :
    (rbufWrite rb src).1 = min src.length (rb.maxcnt - rb.count) ∧ RbufWf (rbufWrite rb src).2 ∧
      (rbufWrite rb src).2.contents = rb.contents ++ src.take (rb.maxcnt - rb.count) := by
  have hfree : rbufFreesize rb = rb.maxcnt - rb.count := sub32_of_le h.count_le (maxcnt_lt h)
  by_cases hfit : src.length ≤ rb.maxcnt - rb.count
  · obtain ⟨hnum, hwf, hcont⟩ := rbufWrite_fits h hlen hfit
    rw [List.take_of_length_le hfit, Nat.min_eq_left hfit]
    exact ⟨hnum, hwf, hcont⟩
  · -- the write is cut: it is the write of the elements that there is room for
    have hgt : src.length > rb.maxcnt - rb.count := Nat.not_le.mp hfit
    have hlen' : (src.take (rb.maxcnt - rb.count)).length = rb.maxcnt - rb.count := List.length_take_of_le (Nat.le_of_lt hgt)
    have hcut : rbufWrite rb src = rbufWrite rb (src.take (rb.maxcnt - rb.count)) := by
      simp only [rbufWrite, hfree, ho, hlen', hgt, Nat.lt_irrefl, gt_iff_lt, Bool.not_false, and_self, and_true, if_true, if_false,
        List.take_take, Nat.min_self]
    obtain ⟨hnum, hwf, hcont⟩ := rbufWrite_fits h (fun e he => hlen e (List.mem_of_mem_take he)) (Nat.le_of_eq hlen')
    rw [hcut, Nat.min_eq_right (Nat.le_of_lt hgt)]
    exact ⟨hnum.trans hlen', hwf, hcont⟩

/-- A read takes as many elements as there are from the front. -/
theorem rbufRead_spec {rb : Ringbuffer} (h : RbufWf rb) (count : Nat) :
    (rbufRead rb count).1 = rb.contents.take count ∧ RbufWf (rbufRead rb count).2 ∧
      (rbufRead rb count).2.contents = rb.contents.drop count := by
  have hmax := maxcnt_lt h
  have hcount := h.count_le
  obtain ⟨h₁, h₂, h₃⟩ := getElems_spec h (Nat.min_le_right count rb.count)
  have hsub : sub32 rb.count (min count rb.count) = rb.count - min count rb.count :=
    sub32_of_le (Nat.min_le_right _ _) (by omega)
  have htake : rb.contents.take (min count rb.count) = rb.contents.take count := by
    rw [List.take_eq_take_iff, length_contents]
    omega
  have hdrop : rb.contents.drop (min count rb.count) = rb.contents.drop count := by
    rcases Nat.le_total count rb.count with hc | hc
    · rw [Nat.min_eq_left hc]
    · rw [Nat.min_eq_right hc, List.drop_of_length_le (by simp), List.drop_of_length_le (by simpa using hc)]
  simp only [rbufRead, read_num, hsub]
  exact ⟨h₁.trans htake, h₂, h₃.trans hdrop⟩

end Kos
