import Kos.Lib.Word

/-!
# Bytes of a 32-bit address space
-/

namespace Kos

/-- The bytes of an address space. -/
abbrev Memory := Nat → UInt8

/-- The `n` bytes from address `a` on; addresses wrap at the end of the address space. -/
def Memory.bytes (mem : Memory) (a n : Nat) : List UInt8 := (List.range n).map (fun j => mem (w32 (a + j)))

/-- The `n` bytes from address `dst` on become those of `src`. -/
def Memory.put (mem : Memory) (dst n : Nat) (src : Nat → UInt8) : Memory :=
  fun a => if dst ≤ a ∧ a < dst + n then src (a - dst) else mem a

/-- `memset(dst, val, n)`. -/
def Memory.set (mem : Memory) (dst : Nat) (val : UInt8) (n : Nat) : Memory :=
  fun a => if dst ≤ a ∧ a < dst + n then val else mem a

/-- `memcpy(dst, src, n)`. -/
def Memory.copy (mem : Memory) (dst src n : Nat) : Memory :=
  fun a => if dst ≤ a ∧ a < dst + n then mem (src + (a - dst)) else mem a

namespace Memory

variable (mem : Memory)

/-- Two runs, one behind the other, are one run. -/
theorem put_put (dst n k : Nat) (src : Nat → UInt8) :
    (mem.put dst n src).put (dst + n) k (fun j => src (n + j)) = mem.put dst (n + k) src := by
  funext a
  simp only [put]
  by_cases h : dst + n ≤ a ∧ a < dst + n + k
  · rw [if_pos h, if_pos (by omega)]
    congr 1
    omega
  · rw [if_neg h]
    by_cases h' : dst ≤ a ∧ a < dst + n
    · rw [if_pos h', if_pos (by omega)]
    · rw [if_neg h', if_neg (by omega)]

@[simp] theorem length_bytes (a n : Nat) : (mem.bytes a n).length = n := by simp [bytes]

@[simp] theorem bytes_zero (a : Nat) : mem.bytes a 0 = [] := rfl

theorem getElem_bytes {a n j : Nat} (h : j < (mem.bytes a n).length) : (mem.bytes a n)[j] = mem (w32 (a + j)) := by
  simp [bytes]

/-- A part of a run of bytes is a run of bytes. -/
theorem take_drop_bytes {a n p k : Nat} (h : p + k ≤ n) : ((mem.bytes a n).drop p).take k = mem.bytes (a + p) k := by
  refine List.ext_getElem (by simp; omega) fun j hj hj' => ?_
  rw [List.getElem_take, List.getElem_drop, getElem_bytes, getElem_bytes, Nat.add_assoc]

theorem take_bytes {a n k : Nat} (h : k ≤ n) : (mem.bytes a n).take k = mem.bytes a k :=
  mem.take_drop_bytes (p := 0) (by omega)

theorem bytes_add (a m n : Nat) : mem.bytes a (m + n) = mem.bytes a m ++ mem.bytes (a + m) n := by
  rw [← mem.take_bytes (a := a) (Nat.le_add_right m n), ← mem.take_drop_bytes (a := a) (k := n) (Nat.le_refl (m + n)),
    List.take_of_length_le (l := (mem.bytes a (m + n)).drop m) (by simp), List.take_append_drop]

theorem bytes_eq_iff {a b n : Nat} : mem.bytes a n = mem.bytes b n ↔ ∀ j < n, mem (w32 (a + j)) = mem (w32 (b + j)) := by
  simp only [bytes, List.map_inj_left, List.mem_range]

theorem bytes_w32 (a n : Nat) : mem.bytes (w32 a) n = mem.bytes a n := by
  simp only [bytes, w32, Nat.mod_add_mod]

/-- These bytes lie at the address. -/
def At (a : Nat) (bs : List UInt8) : Prop := mem.bytes a bs.length = bs

instance (a : Nat) (bs : List UInt8) : Decidable (mem.At a bs) := inferInstanceAs (Decidable (_ = _))

variable {mem}

theorem at_append {a : Nat} {bs bs' : List UInt8} : mem.At a (bs ++ bs') ↔ mem.At a bs ∧ mem.At (a + bs.length) bs' := by
  rw [At, List.length_append, bytes_add]
  exact ⟨fun h => List.append_inj h (by simp), fun h => by rw [h.1, h.2]⟩

theorem at_w32 {a : Nat} {bs : List UInt8} : mem.At (w32 a) bs ↔ mem.At a bs := by
  rw [At, bytes_w32, At]

/-- What is put into the memory is there. -/
theorem at_put (mem : Memory) {dst : Nat} {bs : List UInt8} (h : dst + bs.length ≤ 4294967296) :
    At (mem.put dst bs.length (bs.getD · 0)) dst bs := by
  refine List.ext_getElem (length_bytes _ dst bs.length) fun j hj hj' => ?_
  rw [getElem_bytes, w32_of_lt (by omega), put, if_pos (by omega), Nat.add_sub_cancel_left, List.getD_eq_getElem?_getD,
    List.getElem?_eq_getElem hj', Option.getD_some]

end Memory

/-! ## Words as bytes -/

/-- The four bytes of a 32-bit word in memory, the lowest first. -/
def le32 (n : Nat) : List UInt8 :=
  [UInt8.ofNat n, UInt8.ofNat (n / 256), UInt8.ofNat (n / 65536), UInt8.ofNat (n / 16777216)]

/-- The 32-bit word in the first four bytes. -/
def ofLe32 (bs : List UInt8) : Nat :=
  (bs.getD 0 0).toNat + 256 * (bs.getD 1 0).toNat + 65536 * (bs.getD 2 0).toNat + 16777216 * (bs.getD 3 0).toNat

@[simp] theorem length_le32 (n : Nat) : (le32 n).length = 4 := rfl

theorem ofLe32_le32_append {n : Nat} (h : n < 4294967296) (bs : List UInt8) : ofLe32 (le32 n ++ bs) = n := by
  have hb : ∀ k, (UInt8.ofNat k).toNat = k % 256 := fun k => UInt8.toNat_ofNat'
  simp only [ofLe32, le32, List.cons_append, List.getD_cons_zero, List.getD_cons_succ, hb]
  omega

end Kos
