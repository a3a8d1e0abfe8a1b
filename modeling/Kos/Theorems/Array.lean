import Kos.Lib.Run
import Kos.Util.Array

/-!
# Arrays over whole runs

An array should read like a sequence that zeroes fill up to where an element was stored. Two of its functions are short of that.
`array_set` doubles the room for elements or makes it as large as the index, which is one element too few: it writes behind the block
unless the index is below twice the room there was. And an element that `array_pop_back` removed is still in the block, so where
`array_set` or `array_resize` leaves a gap, the elements of the gap are read as they were before they were removed.
-/

namespace Kos

/-- A call on an array whose elements have `e` bytes. -/
inductive ArrayCall (e : Nat) where
  | set (index : Nat) (elem : Vector UInt8 e)
  | pushBack (elem : Vector UInt8 e)
  | popBack (dst : Bool)
  | resize (num : Nat)
  | reserve (num : Nat)
  | shrink
  deriving DecidableEq, Repr

section

variable {e : Nat}

/-- The array after a call; `fresh` is the memory that `krealloc` may return. -/
def arrayCall (ar : KArray) (fresh : Memory) : ArrayCall e → Option KArray
  | .set index elem => arraySet ar fresh index elem.toList
  | .pushBack elem => (arrayPushBack ar fresh elem.toList).map (·.2)
  | .popBack dst => (arrayPopBack ar dst).map (·.2)
  | .resize num => arrayResize ar fresh num
  | .reserve num => arrayReserve ar fresh num
  | .shrink => arrayShrink ar fresh

/-- What a call stores, and where. -/
def ArrayCall.storesAt (c : ArrayCall e) (count i : Nat) : Option (Vector UInt8 e) :=
  match c with
  | .set index elem => if i = index then some elem else none
  | .pushBack elem => if i = count then some elem else none
  | _ => none

/-- An array, and what was stored at each index since it came into range. -/
structure ArrayRun (e : Nat) where
  ar : KArray
  stored : Nat → Option (Vector UInt8 e)

namespace ArrayRun

def new (e : Nat) : ArrayRun e := ⟨arrayCreate e, fun _ => none⟩

/-- What should be read at an index. -/
def expected (s : ArrayRun e) (i : Nat) : List UInt8 :=
  match s.stored i with
  | some elem => elem.toList
  | none => List.replicate e 0

def step (s : ArrayRun e) (c : ArrayCall e × Memory) : Option (ArrayRun e) :=
  (arrayCall s.ar c.2 c.1).map fun ar =>
    ⟨ar, fun i => if i < ar.count then (c.1.storesAt s.ar.count i).or (s.stored i) else none⟩

/-- The count is within the room for elements, the room is that of the block, and every element in range is in the block and has the
bytes expected. -/
structure Holds (s : ArrayRun e) : Prop where
  count_le : s.ar.count ≤ s.ar.maxcnt
  size : s.ar.size = s.ar.maxcnt * e
  get : ∀ i < s.ar.count, ∃ off, arrayGet s.ar i = some off ∧ off + e ≤ s.ar.size ∧ s.ar.elemAt off = s.expected i

end ArrayRun

/-- The sizes in bytes that a call computes are below `2 ^ 32`. -/
def ArrayCall.Sized (ar : KArray) : ArrayCall e → Prop
  | .set index _ => (index + 1) * e < 4294967296 ∧ (ar.maxcnt ≤ index → ar.maxcnt * 2 * e < 4294967296)
  | .pushBack _ => (ar.count + 1) * e < 4294967296 ∧ (ar.maxcnt ≤ ar.count → ar.maxcnt * 2 * e < 4294967296)
  | .resize num => num * e < 4294967296
  | .reserve num => (ar.count + num) * e < 4294967296
  | _ => True

/-- The elements behind the count and below an index are zero where there is room for them. -/
def KArray.ZeroBelow (ar : KArray) (index : Nat) : Prop :=
  ∀ i, ar.count ≤ i → i < index → i < ar.maxcnt → ar.elemAt (i * ar.esize) = List.replicate ar.esize 0

/-- A call that writes below twice the room for elements and brings only zeroes into range. -/
def ArrayCall.Proper (ar : KArray) : ArrayCall e → Prop
  | .set index _ => index < ar.maxcnt * 2 ∧ ar.ZeroBelow index
  | .pushBack _ => ar.count < ar.maxcnt * 2
  | .resize num => ar.ZeroBelow num
  | _ => True

instance (ar : KArray) (index : Nat) : Decidable (ar.ZeroBelow index) :=
  decidable_of_iff (∀ i < index, ar.count ≤ i → i < ar.maxcnt → ar.elemAt (i * ar.esize) = List.replicate ar.esize 0)
    ⟨fun h i hi hlt => h i hlt hi, fun h i hlt hi => h i hi hlt⟩

instance (ar : KArray) (c : ArrayCall e) : Decidable (c.Sized ar) :=
  match c with
  | .set _ _ | .pushBack _ => inferInstanceAs (Decidable (_ ∧ _))
  | .resize _ | .reserve _ => inferInstanceAs (Decidable (_ < _))
  | .popBack _ | .shrink => inferInstanceAs (Decidable True)

instance (ar : KArray) (c : ArrayCall e) : Decidable (c.Proper ar) :=
  match c with
  | .set _ _ => inferInstanceAs (Decidable (_ ∧ _))
  | .pushBack _ => inferInstanceAs (Decidable (_ < _))
  | .resize num => inferInstanceAs (Decidable (ar.ZeroBelow num))
  | .popBack _ | .reserve _ | .shrink => inferInstanceAs (Decidable True)

namespace ArrayAux

/-! ## Elements in a block -/

theorem byte_lt {i n k : Nat} (hi : i < n) (hk : k < e) : i * e + k < n * e :=
  calc
    i * e + k < i * e + e := by omega
    _ = (i + 1) * e := (Nat.succ_mul i e).symm
    _ ≤ n * e := Nat.mul_le_mul_right e hi

theorem le_byte {i n k : Nat} (hi : n ≤ i) : n * e ≤ i * e + k :=
  Nat.le_trans (Nat.mul_le_mul_right e hi) (Nat.le_add_right _ _)

/-- A byte of one element is not a byte of another. -/
theorem not_byte_of_ne {i j k : Nat} (hij : i ≠ j) (hk : k < e) : ¬ (j * e ≤ i * e + k ∧ i * e + k < j * e + e) := by
  rintro ⟨hle, hlt⟩
  rcases Nat.lt_or_gt_of_ne hij with hlt' | hgt
  · have := byte_lt hlt' hk
    omega
  · have := Nat.mul_le_mul_right e hgt
    rw [Nat.succ_mul] at this
    omega

theorem elemAt_eq_iff {ar : KArray} {off : Nat} {elem : List UInt8} (hlen : elem.length = ar.esize) :
    ar.elemAt off = elem ↔ ∀ k < ar.esize, ar.data (off + k) = elem.getD k 0 := by
  constructor
  · rintro rfl k hk
    simp [KArray.elemAt, hk]
  · intro h
    refine List.ext_getElem (by simp [KArray.elemAt, hlen]) fun k hk hk' => ?_
    have := h k (by omega)
    simpa [KArray.elemAt, hk'] using this

/-! ## Resizing and storing -/

/-- The block of an array. -/
structure Block (e : Nat) (ar : KArray) : Prop where
  esize : ar.esize = e
  size : ar.size = ar.maxcnt * e
  small : ar.maxcnt * e < 4294967296

section

variable {ar : KArray} (fresh : Memory) {num index : Nat}

/-- `resize` keeps the elements that there is room for, and makes zeroes of the others. -/
theorem resize_eq (h : Block e ar) (hnum : num * e < 4294967296) :
    ∃ ar', ar.resize fresh num = some ar' ∧ Block e ar' ∧ ar'.maxcnt = num ∧ ar'.count = min ar.count num ∧
      ∀ i < num, ∀ k < e, ar'.data (i * e + k) = if i < ar.maxcnt then ar.data (i * e + k) else 0 := by
  have hcount : (if ar.count > num then num else ar.count) = min ar.count num := by
    split <;> omega
  have hkeep {i k : Nat} (hi : i < num) (hk : k < e) :
      (i * e + k < ar.maxcnt * e ∧ i * e + k < num * e) ↔ i < ar.maxcnt := by
    refine ⟨fun hlt => ?_, fun hlt => ⟨byte_lt hlt hk, byte_lt hi hk⟩⟩
    by_contra hge
    have := le_byte (e := e) (k := k) (Nat.le_of_not_lt hge)
    omega
  unfold KArray.resize
  simp only [KArray.krealloc, h.esize, h.size, w32_of_lt hnum, w32_of_lt h.small, hcount]
  split
  next hlt =>
    have hsub : (num - ar.maxcnt) * e = num * e - ar.maxcnt * e := Nat.sub_mul _ _ _
    have hle : ar.maxcnt * e ≤ num * e := Nat.mul_le_mul_right e (Nat.le_of_lt hlt)
    rw [w32_of_lt (by omega), if_pos (by omega)]
    refine ⟨_, rfl, ⟨rfl, rfl, hnum⟩, rfl, rfl, fun i hi k hk => ?_⟩
    simp only [Memory.set, hkeep hi hk]
    have := byte_lt hi hk
    by_cases hlt' : i < ar.maxcnt
    · have := byte_lt hlt' hk
      rw [if_neg (by omega), if_pos hlt', if_pos hlt']
    · have := le_byte (e := e) (k := k) (Nat.le_of_not_lt hlt')
      rw [if_pos (by omega), if_neg hlt']
  next hge =>
    refine ⟨_, rfl, ⟨rfl, rfl, hnum⟩, rfl, rfl, fun i hi k hk => ?_⟩
    simp only [hkeep hi hk]
    rw [if_pos (by omega), if_pos (by omega)]

/-- `array_set` into the block. -/
theorem store_eq (he : 1 ≤ e) (h : Block e ar) (hsized : (index + 1) * e < 4294967296) (hindex : index < ar.maxcnt) (elem : List UInt8) :
    ∃ ar', ar.store index elem = some ar' ∧ Block e ar' ∧ ar'.maxcnt = ar.maxcnt ∧ ar'.count = max ar.count (index + 1) ∧
      ∀ i, ∀ k < e, ar'.data (i * e + k) = if i = index then elem.getD k 0 else ar.data (i * e + k) := by
  have hle : (index + 1) * e ≤ ar.maxcnt * e := Nat.mul_le_mul_right e hindex
  have hone : index + 1 ≤ (index + 1) * e := Nat.le_mul_of_pos_right _ he
  rw [Nat.succ_mul] at hle hsized hone
  have hcount : (if ar.count > index + 1 then ar.count else index + 1) = max ar.count (index + 1) := by
    split <;> omega
  have hfits : index * e + e ≤ ar.size := h.size ▸ hle
  unfold KArray.store
  simp only [h.esize, w32_of_lt (show index * e < 4294967296 by omega), w32_of_lt (show index + 1 < 4294967296 by omega), hcount]
  rw [if_pos hfits]
  refine ⟨_, rfl, ⟨rfl, h.size, h.small⟩, rfl, rfl, fun i k hk => ?_⟩
  simp only [Memory.put]
  by_cases hi : i = index
  · subst hi
    rw [if_pos ⟨Nat.le_add_right _ _, by omega⟩, if_pos rfl, Nat.add_sub_cancel_left]
  · rw [if_neg (not_byte_of_ne hi hk), if_neg hi]

/-- `array_set` behind the block. -/
theorem store_eq_none (he : 1 ≤ e) (h : Block e ar) (hsized : (index + 1) * e < 4294967296) (hindex : ar.maxcnt ≤ index)
    (elem : List UInt8) : ar.store index elem = none := by
  have hle : ar.maxcnt * e ≤ index * e := Nat.mul_le_mul_right e hindex
  rw [Nat.succ_mul] at hsized
  have hsize := h.size
  unfold KArray.store
  simp only [h.esize, w32_of_lt (show index * e < 4294967296 by omega)]
  rw [if_neg (by omega)]

/-- `array_set` below twice the room for elements. -/
theorem arraySet_eq (he : 1 ≤ e) (h : Block e ar) (hcount : ar.count ≤ ar.maxcnt) (hsized : (index + 1) * e < 4294967296)
    (hgrow : ar.maxcnt ≤ index → ar.maxcnt * 2 * e < 4294967296) (hindex : index < ar.maxcnt * 2) (elem : List UInt8) :
    ∃ ar', arraySet ar fresh index elem = some ar' ∧ Block e ar' ∧ ar'.count = max ar.count (index + 1) ∧ ar'.count ≤ ar'.maxcnt ∧
      ∀ i < ar'.maxcnt, ∀ k < e, ar'.data (i * e + k) =
        if i = index then elem.getD k 0 else if i < ar.maxcnt then ar.data (i * e + k) else 0 := by
  unfold arraySet
  split
  next hge =>
    have hdouble : ar.maxcnt * 2 ≤ ar.maxcnt * 2 * e := Nat.le_mul_of_pos_right _ he
    have hsmall := hgrow hge
    rw [w32_of_lt (by omega), if_pos hindex]
    obtain ⟨ar₁, hres, hblock₁, hmax₁, hcount₁, hdata₁⟩ := resize_eq fresh h hsmall
    obtain ⟨ar', hstore, hblock', hmax', hcount', hdata'⟩ := store_eq he hblock₁ hsized (hmax₁ ▸ hindex) elem
    have hcount₁ : ar₁.count = ar.count := by omega
    refine ⟨ar', by rw [hres, Option.bind_some, hstore], hblock', by omega, by omega, fun i hi k hk => ?_⟩
    rw [hdata' i k hk, hdata₁ i (by omega) k hk]
  next hlt =>
    obtain ⟨ar', hstore, hblock', hmax', hcount', hdata'⟩ := store_eq he h hsized (Nat.lt_of_not_le hlt) elem
    refine ⟨ar', hstore, hblock', hcount', by omega, fun i hi k hk => ?_⟩
    rw [hdata' i k hk, if_pos (show i < ar.maxcnt by omega)]

/-- `array_set` behind that. -/
theorem arraySet_eq_none (he : 1 ≤ e) (h : Block e ar) (hsized : (index + 1) * e < 4294967296)
    (hgrow : ar.maxcnt ≤ index → ar.maxcnt * 2 * e < 4294967296) (hindex : ar.maxcnt * 2 ≤ index) (elem : List UInt8) :
    arraySet ar fresh index elem = none := by
  have hdouble : ar.maxcnt * 2 ≤ ar.maxcnt * 2 * e := Nat.le_mul_of_pos_right _ he
  have hsmall := hgrow (by omega)
  have hnum : index * e < 4294967296 := by
    rw [Nat.succ_mul] at hsized
    omega
  unfold arraySet
  rw [if_pos (by omega), w32_of_lt (by omega), if_neg (by omega)]
  obtain ⟨ar₁, hres, hblock₁, hmax₁, -, -⟩ := resize_eq fresh h hnum
  rw [hres, Option.bind_some]
  exact store_eq_none he hblock₁ hsized (Nat.le_of_eq hmax₁) elem

end

/-! ## One call -/

/-- What a call that stores `put` makes of an array: every other element is kept, or zero where there was no room for it. -/
structure Outcome (ar ar' : KArray) (put : Nat → Option (Vector UInt8 e)) : Prop where
  block : Block e ar'
  count_le : ar'.count ≤ ar'.maxcnt
  data : ∀ i < ar'.maxcnt, ∀ k < e, ar'.data (i * e + k) =
    match put i with
    | some elem => elem.toList.getD k 0
    | none => if i < ar.maxcnt then ar.data (i * e + k) else 0

/-- What holds along the runs. -/
structure Inv (s : ArrayRun e) : Prop where
  block : Block e s.ar
  holds : s.Holds
  unstored : ∀ i, s.ar.count ≤ i → s.stored i = none

theorem holds_iff {s : ArrayRun e} (h : Block e s.ar) (hcount : s.ar.count ≤ s.ar.maxcnt) :
    s.Holds ↔ ∀ i < s.ar.count, s.ar.elemAt (i * e) = s.expected i := by
  have hget {i : Nat} (hi : i < s.ar.count) : arrayGet s.ar i = some (i * e) ∧ i * e + e ≤ s.ar.size := by
    have hle : (i + 1) * e ≤ s.ar.maxcnt * e := Nat.mul_le_mul_right e (by omega)
    have hsmall := h.small
    rw [Nat.succ_mul] at hle
    refine ⟨?_, h.size ▸ hle⟩
    rcases Nat.eq_zero_or_pos e with rfl | hpos
    · rw [arrayGet, if_neg (by omega), h.esize]
      rfl
    · rw [arrayGet, if_neg (by omega), h.esize, w32_of_lt (by omega)]
  constructor
  · intro hholds i hi
    obtain ⟨off, hoff, -, helem⟩ := hholds.get i hi
    rw [(hget hi).1] at hoff
    cases hoff
    exact helem
  · exact fun helem => ⟨hcount, h.size, fun i hi => ⟨i * e, (hget hi).1, (hget hi).2, helem i hi⟩⟩

section

variable {s : ArrayRun e} {ar' : KArray} {put : Nat → Option (Vector UInt8 e)}

theorem elemAt_of_outcome (hblock : Block e s.ar) (h : Outcome s.ar ar' put) {i : Nat} (hi : i < ar'.maxcnt) :
    ar'.elemAt (i * e) =
      match put i with
      | some elem => elem.toList
      | none => if i < s.ar.maxcnt then s.ar.elemAt (i * e) else List.replicate e 0 := by
  have hdata := h.data i hi
  have hesize := h.block.esize
  cases hput : put i with
  | some elem =>
    rw [hput] at hdata
    exact (elemAt_eq_iff (by simp [hesize])).mpr fun k hk => hdata k (hesize ▸ hk)
  | none =>
    rw [hput] at hdata
    simp only at hdata ⊢
    split
    next hlt =>
      rw [KArray.elemAt, KArray.elemAt, hesize, hblock.esize]
      refine List.map_congr_left fun k hk => ?_
      rw [hdata k (List.mem_range.mp hk), if_pos hlt]
    next hge =>
      refine (elemAt_eq_iff (by simp [hesize])).mpr fun k hk => ?_
      rw [hdata k (hesize ▸ hk), if_neg hge]
      simp [hesize ▸ hk]

/-- After a call, the property holds if what came into range without being stored is zero. -/
theorem holds_outcome_iff (hinv : Inv s) (h : Outcome s.ar ar' put) :
    (⟨ar', fun i => if i < ar'.count then (put i).or (s.stored i) else none⟩ : ArrayRun e).Holds ↔
      ∀ i, s.ar.count ≤ i → i < ar'.count → put i = none → i < s.ar.maxcnt → s.ar.elemAt (i * e) = List.replicate e 0 := by
  have hold := (holds_iff hinv.block hinv.holds.count_le).mp hinv.holds
  have hcount := hinv.holds.count_le
  have hcount' := h.count_le
  rw [holds_iff h.block h.count_le]
  constructor
  · intro hnew i hge hlt hput hroom
    have := hnew i hlt
    rw [elemAt_of_outcome hinv.block h (show i < ar'.maxcnt by omega), hput] at this
    simpa [ArrayRun.expected, hlt, hput, hinv.unstored i hge, hroom] using this
  · intro hzero i hi
    simp only at hi
    rw [elemAt_of_outcome hinv.block h (show i < ar'.maxcnt by omega)]
    cases hput : put i with
    | some elem => simp [ArrayRun.expected, hi, hput]
    | none =>
      by_cases hlt : i < s.ar.count
      · have := hold i hlt
        simpa [ArrayRun.expected, hi, hput, show i < s.ar.maxcnt by omega] using this
      · have hge : s.ar.count ≤ i := Nat.le_of_not_lt hlt
        simp only [ArrayRun.expected, hi, if_true, hput, Option.none_or, hinv.unstored i hge]
        split
        next hroom => exact hzero i hge hi hput hroom
        next => rfl

end

/-- The number of elements in range after a call. -/
def countAfter (ar : KArray) : ArrayCall e → Nat
  | .set index _ => max ar.count (index + 1)
  | .pushBack _ => ar.count + 1
  | .popBack dst => if dst then ar.count - 1 else ar.count
  | .resize num => num
  | .reserve _ | .shrink => ar.count

/-- A call that does not write behind the block. -/
def InBlock (ar : KArray) : ArrayCall e → Prop
  | .set index _ => index < ar.maxcnt * 2
  | .pushBack _ => ar.count < ar.maxcnt * 2
  | _ => True

section

variable {s : ArrayRun e} {c : ArrayCall e} (fresh : Memory)

theorem proper_iff (hinv : Inv s) :
    c.Proper s.ar ↔ InBlock s.ar c ∧ ∀ i, s.ar.count ≤ i → i < countAfter s.ar c → c.storesAt s.ar.count i = none → i < s.ar.maxcnt →
      s.ar.elemAt (i * e) = List.replicate e 0 := by
  have hesize := hinv.block.esize
  cases c with
  | set index elem =>
    simp only [ArrayCall.Proper, InBlock, countAfter, ArrayCall.storesAt, KArray.ZeroBelow, hesize]
    refine and_congr_right fun _ => ⟨fun h i hge hlt hput hroom => h i hge ?_ hroom, fun h i hge hlt hroom => h i hge ?_ ?_ hroom⟩
    · have hne : i ≠ index := fun heq => by simp [heq] at hput
      omega
    · omega
    · exact if_neg (by omega)
  | pushBack elem =>
    simp only [ArrayCall.Proper, InBlock, countAfter, ArrayCall.storesAt]
    refine ⟨fun h => ⟨h, fun i hge hlt hput => ?_⟩, fun h => h.1⟩
    have hne : i ≠ s.ar.count := fun heq => by simp [heq] at hput
    omega
  | popBack dst =>
    refine ⟨fun _ => ⟨trivial, fun i hge hlt => ?_⟩, fun _ => trivial⟩
    simp only [countAfter] at hlt
    split at hlt <;> omega
  | resize num =>
    simp only [ArrayCall.Proper, InBlock, countAfter, ArrayCall.storesAt, KArray.ZeroBelow, hesize, true_and, forall_const]
  | reserve num =>
    refine ⟨fun _ => ⟨trivial, fun i hge hlt => ?_⟩, fun _ => trivial⟩
    simp only [countAfter] at hlt
    omega
  | shrink =>
    refine ⟨fun _ => ⟨trivial, fun i hge hlt => ?_⟩, fun _ => trivial⟩
    simp only [countAfter] at hlt
    omega

theorem outcome_of_resize {num : Nat} (hblock : Block e s.ar) (hnum : num * e < 4294967296) :
    ∃ ar', s.ar.resize fresh num = some ar' ∧ ar'.count = min s.ar.count num ∧
      ∀ count ≤ num, Outcome s.ar { ar' with count := count } (fun _ => (none : Option (Vector UInt8 e))) := by
  obtain ⟨ar', hres, hblock', hmax, hcount', hdata⟩ := resize_eq fresh hblock hnum
  refine ⟨ar', hres, hcount', fun count hcount => ⟨⟨hblock'.esize, hblock'.size, hblock'.small⟩, hmax ▸ hcount, fun i hi => ?_⟩⟩
  exact hdata i (hmax ▸ hi)

/-- Elements at the end leave the range, and stay in the block. -/
theorem outcome_of_count_le {count : Nat} (hblock : Block e s.ar) (hcount : count ≤ s.ar.maxcnt) :
    Outcome s.ar { s.ar with count := count } (fun _ => (none : Option (Vector UInt8 e))) :=
  ⟨⟨hblock.esize, hblock.size, hblock.small⟩, hcount, fun _ hi _ _ => (if_pos hi).symm⟩

/-- `array_pop_back` reads inside the block. -/
theorem arrayPopBack_eq (hinv : Inv s) (dst : Bool) :
    (arrayPopBack s.ar dst).map (·.2) = some { s.ar with count := if dst then s.ar.count - 1 else s.ar.count } := by
  unfold arrayPopBack
  split
  next h =>
    have hcount : (if dst then s.ar.count - 1 else s.ar.count) = s.ar.count := by
      rcases h with h | h
      · simp [h]
      · exact if_neg h
    rw [hcount]
    rfl
  next h =>
    obtain ⟨hne, hdst⟩ := not_or.mp h
    obtain ⟨off, hoff, hle, -⟩ := hinv.holds.get (s.ar.count - 1) (by omega)
    simp only [not_not] at hdst
    rw [hoff, Option.bind_some, if_pos (by rw [hinv.block.esize]; exact hle)]
    simp [hdst]

theorem outcome_of_set (he : 1 ≤ e) (hinv : Inv s) {index : Nat} (elem : Vector UInt8 e) (hsized : (index + 1) * e < 4294967296)
    (hgrow : s.ar.maxcnt ≤ index → s.ar.maxcnt * 2 * e < 4294967296) (hindex : index < s.ar.maxcnt * 2) :
    ∃ ar', arraySet s.ar fresh index elem.toList = some ar' ∧
      Outcome s.ar ar' (fun i => if i = index then some elem else none) ∧ ar'.count = max s.ar.count (index + 1) := by
  obtain ⟨ar', hset, hblock', hcount', hle, hdata⟩ :=
    arraySet_eq fresh he hinv.block hinv.holds.count_le hsized hgrow hindex elem.toList
  refine ⟨ar', hset, ⟨hblock', hle, fun i hi k hk => ?_⟩, hcount'⟩
  rw [hdata i hi k hk]
  by_cases heq : i = index
  · simp [heq]
  · simp [heq]

/-- A call that does not write behind the block returns. -/
theorem outcome_of_call (he : 1 ≤ e) (hinv : Inv s) (hsized : c.Sized s.ar) (hin : InBlock s.ar c) :
    ∃ ar', arrayCall s.ar fresh c = some ar' ∧ Outcome s.ar ar' (c.storesAt s.ar.count) ∧ ar'.count = countAfter s.ar c := by
  have hcount := hinv.holds.count_le
  cases c with
  | set index elem => exact outcome_of_set fresh he hinv elem hsized.1 hsized.2 hin
  | pushBack elem =>
    obtain ⟨ar', hset, hout, hcount'⟩ := outcome_of_set fresh he hinv elem hsized.1 hsized.2 hin
    refine ⟨ar', by simp [arrayCall, arrayPushBack, hset], hout, ?_⟩
    rw [hcount', countAfter]
    omega
  | popBack dst =>
    refine ⟨_, arrayPopBack_eq hinv dst, outcome_of_count_le hinv.block ?_, rfl⟩
    split <;> omega
  | resize num =>
    obtain ⟨ar', hres, -, hout⟩ := outcome_of_resize fresh hinv.block hsized
    exact ⟨{ ar' with count := num }, by simp [arrayCall, arrayResize, hres], hout num (Nat.le_refl num), rfl⟩
  | reserve num =>
    have hle : s.ar.count + num ≤ (s.ar.count + num) * e := Nat.le_mul_of_pos_right _ he
    obtain ⟨ar', hres, hcount', hout⟩ := outcome_of_resize fresh hinv.block hsized
    refine ⟨ar', ?_, hout ar'.count (by omega), by rw [hcount', countAfter]; omega⟩
    rw [arrayCall, arrayReserve, w32_of_lt (Nat.lt_of_le_of_lt hle hsized), hres]
  | shrink =>
    have hle : s.ar.count * e ≤ s.ar.maxcnt * e := Nat.mul_le_mul_right e hcount
    obtain ⟨ar', hres, hcount', hout⟩ := outcome_of_resize fresh hinv.block (Nat.lt_of_le_of_lt hle hinv.block.small)
    exact ⟨ar', hres, hout ar'.count (by omega), by rw [hcount', countAfter]; omega⟩

/-- A call that writes behind the block. -/
theorem arrayCall_eq_none (he : 1 ≤ e) (hinv : Inv s) (hsized : c.Sized s.ar) (hin : ¬ InBlock s.ar c) : arrayCall s.ar fresh c = none := by
  cases c with
  | set index elem => exact arraySet_eq_none fresh he hinv.block hsized.1 hsized.2 (Nat.le_of_not_lt hin) _
  | pushBack elem =>
    simp [arrayCall, arrayPushBack, arraySet_eq_none fresh he hinv.block hsized.1 hsized.2 (Nat.le_of_not_lt hin)]
  | popBack | resize | reserve | shrink => exact absurd trivial hin

/-- The property holds after a call exactly if the call is proper. -/
theorem step_holds_iff (he : 1 ≤ e) (hinv : Inv s) (hsized : c.Sized s.ar) :
    (∃ s', s.step (c, fresh) = some s' ∧ s'.Holds) ↔ c.Proper s.ar := by
  rw [proper_iff hinv]
  by_cases hin : InBlock s.ar c
  · obtain ⟨ar', hcall, hout, hcount'⟩ := outcome_of_call fresh he hinv hsized hin
    have hiff := holds_outcome_iff hinv hout
    rw [hcount'] at hiff
    simp only [ArrayRun.step, hcall, Option.map_some, Option.some.injEq, exists_eq_left', hcount', hin, true_and]
    exact hiff
  · simp [ArrayRun.step, arrayCall_eq_none fresh he hinv hsized hin, hin]

theorem Inv.step {fresh : Memory} (he : 1 ≤ e) (hinv : Inv s) (hsized : c.Sized s.ar) (hproper : c.Proper s.ar) {s' : ArrayRun e}
    (hstep : s.step (c, fresh) = some s') : Inv s' := by
  obtain ⟨s'', hstep', hholds⟩ := (step_holds_iff fresh he hinv hsized).mpr hproper
  obtain rfl : s' = s'' := Option.some.inj (hstep.symm.trans hstep')
  obtain ⟨ar', hcall, hout, -⟩ := outcome_of_call fresh he hinv hsized ((proper_iff hinv).mp hproper).1
  obtain rfl : ⟨ar', _⟩ = s' := by simpa [ArrayRun.step, hcall] using hstep
  exact ⟨hout.block, hholds, fun i hge => if_neg (by simpa using hge)⟩

theorem inv_new (hsize : 10 * e < 4294967296) : Inv (ArrayRun.new e) where
  block := ⟨rfl, w32_of_lt hsize, hsize⟩
  holds := ⟨Nat.zero_le _, w32_of_lt hsize, fun i hi => absurd hi (Nat.not_lt_zero i)⟩
  unstored := fun _ _ => rfl

end

end ArrayAux

open ArrayAux

/-- In every state that proper calls lead to, the property holds, and it holds after a call exactly if this call is proper, too. -/
theorem array_holds_iff {s : ArrayRun e} (he : 1 ≤ e) (hsize : 10 * e < 4294967296)
    (h : Reach ArrayRun.step (fun s c => c.1.Sized s.ar ∧ c.1.Proper s.ar) (.new e) s) :
    s.Holds ∧ ∀ c fresh, c.Sized s.ar → ((∃ s', s.step (c, fresh) = some s' ∧ s'.Holds) ↔ c.Proper s.ar) := by
  have hinv : Inv s := h.inv Inv (inv_new hsize) fun _ c _ hinv hp hstep => hinv.step he hp.1 hp.2 hstep
  exact ⟨hinv.holds, fun _ fresh hsized => step_holds_iff fresh he hinv hsized⟩

end

/-- Two bytes are stored with a gap between them, and the last is removed again. -/
def gapCalls : List (ArrayCall 1 × Memory) :=
  [(.set 12 #v[3], fun _ => 1), (.set 14 #v[4], fun _ => 1), (.popBack true, fun _ => 1)]

theorem array_holds_gap : ∃ s, runIf ArrayRun.step (fun s c => c.1.Sized s.ar ∧ c.1.Proper s.ar) (.new 1) gapCalls = some s ∧ s.Holds := by
  have hrun : (runIf ArrayRun.step (fun s c => c.1.Sized s.ar ∧ c.1.Proper s.ar) (.new 1) gapCalls).isSome := by decide
  obtain ⟨s, hs⟩ := Option.isSome_iff_exists.mp hrun
  exact ⟨s, hs, (array_holds_iff (by decide) (by decide) (Reach.init.runIf _ hs)).1⟩

/-- A byte that is set at index 20 of a new array lies behind the 20 bytes of the block. One that was removed is read again when the array
is resized. -/
theorem array_not_holds :
    arraySet (arrayCreate 1) (fun _ => 1) 20 [7] = none ∧
    ((((arraySet (arrayCreate 1) (fun _ => 1) 0 [7]).bind fun ar => (arrayPopBack ar true).map (·.2)).bind
      fun ar => arrayResize ar (fun _ => 1) 1).bind fun ar => (arrayGet ar 0).map ar.elemAt) = some [7] := by
  decide

end Kos
