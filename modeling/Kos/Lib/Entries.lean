import Mathlib.Tactic.Common

/-!
# Trees of files and directories

The entries of a directory are a list in which a directory carries its own entries. `Entries` writes this list with its tail in each
constructor, so that one induction goes through the whole tree.
-/

namespace Kos

/-- The entries of a directory, in order: files with their data, and directories with their data and entries. -/
inductive Entries (φ δ : Type*) where
  | nil
  | file (f : φ) (rest : Entries φ δ)
  | dir (d : δ) (inner rest : Entries φ δ)
  deriving DecidableEq, Repr

namespace Entries

variable {φ φ' δ δ' : Type*}

/-- The number of entries of the directory itself. -/
def length : Entries φ δ → Nat
  | nil => 0
  | file _ rest => rest.length + 1
  | dir _ _ rest => rest.length + 1

/-- The rounds that a recursion over the tree takes which calls itself for each entry, and through one more function for a
directory. -/
def rounds : Entries φ δ → Nat
  | nil => 1
  | file _ rest => rest.rounds + 1
  | dir _ inner rest => inner.rounds + rest.rounds + 2

/-- The tree with other data for its files. -/
def mapFiles (f : φ → φ') : Entries φ δ → Entries φ' δ
  | nil => nil
  | file x rest => file (f x) (rest.mapFiles f)
  | dir d inner rest => dir d (inner.mapFiles f) (rest.mapFiles f)

/-- The tree with other data. -/
def map (f : φ → φ') (g : δ → δ') : Entries φ δ → Entries φ' δ'
  | nil => nil
  | file x rest => file (f x) (rest.map f g)
  | dir d inner rest => dir (g d) (inner.map f g) (rest.map f g)

/-- A condition on the data of all files and directories. -/
def All (P : φ → Prop) (Q : δ → Prop) : Entries φ δ → Prop
  | nil => True
  | file x rest => P x ∧ rest.All P Q
  | dir d inner rest => Q d ∧ inner.All P Q ∧ rest.All P Q

@[simp] theorem length_mapFiles (f : φ → φ') (t : Entries φ δ) : (t.mapFiles f).length = t.length := by
  induction t with
  | nil => rfl
  | file x rest ih => simp only [mapFiles, length, ih]
  | dir d inner rest _ ih => simp only [mapFiles, length, ih]

@[simp] theorem length_map (f : φ → φ') (g : δ → δ') (t : Entries φ δ) : (t.map f g).length = t.length := by
  induction t with
  | nil => rfl
  | file x rest ih => simp only [map, length, ih]
  | dir d inner rest _ ih => simp only [map, length, ih]

@[simp] theorem rounds_mapFiles (f : φ → φ') (t : Entries φ δ) : (t.mapFiles f).rounds = t.rounds := by
  induction t with
  | nil => rfl
  | file x rest ih => simp only [mapFiles, rounds, ih]
  | dir d inner rest ih₁ ih₂ => simp only [mapFiles, rounds, ih₁, ih₂]

/-! What is left of the rounds behind an entry. -/

theorem rounds_file_le {x : φ} {rest : Entries φ δ} {fuel : Nat} (h : (file x rest).rounds ≤ fuel) :
    ∃ n, fuel = n + 1 ∧ rest.rounds ≤ n := by
  obtain ⟨n, rfl⟩ := Nat.exists_eq_succ_of_ne_zero (Nat.ne_of_gt (Nat.lt_of_lt_of_le (Nat.succ_pos _) h))
  exact ⟨n, rfl, Nat.le_of_succ_le_succ h⟩

theorem rounds_dir_le {d : δ} {inner rest : Entries φ δ} {fuel : Nat} (h : (dir d inner rest).rounds ≤ fuel) :
    ∃ n, fuel = n + 2 ∧ inner.rounds ≤ n ∧ rest.rounds ≤ n + 1 := by
  rw [rounds] at h
  obtain ⟨n, rfl⟩ : ∃ n, fuel = n + 2 := ⟨fuel - 2, by omega⟩
  exact ⟨n, rfl, by omega, by omega⟩

end Entries

end Kos
