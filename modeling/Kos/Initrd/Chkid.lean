import Kos.Fs.Initrd

/-!
# The program that checks an initrd

`share/src/chkid/initrd.c` reads an image into a buffer and prints what it finds there, entry by entry. It takes as many entries of a
directory as the directory counts. Here the entries that it visits are the result.
-/

namespace Kos

/-- An entry that is visited: its offset in the image, and what is found there. -/
structure Visit where
  offset : Nat
  entry : IdEntry
  deriving DecidableEq, Repr

/-- The rounds of `for (; i < count; ++i)` for a count that is an `int`. -/
def intRounds (count : Nat) : Nat := if count < 2147483648 then count else 0

/-- `check_file`: the file that is visited. It returns the offset of the next entry. -/
def checkFile (mem : Memory) (buf offset : Nat) : Nat × Visit :=
  let entry := readEntry mem (w32 (buf + offset))
  (entry.next, ⟨offset, entry⟩)

mutual

/-- `check_dir`: the directory that is visited, and the entries in it. It returns the offset of the next entry; it is `none` when it
aborts, or does not end within the given number of rounds. -/
def checkDir (mem : Memory) (buf : Nat) : Nat → Nat → Option (Nat × Visit × Entries Visit Visit)
  | 0, _ => none
  | fuel + 1, offset =>
    let entry := readEntry mem (w32 (buf + offset))
    (checkEntries mem buf fuel (intRounds entry.count) entry.content).map fun entries => (entry.next, ⟨offset, entry⟩, entries)

/-- The loop of `check_dir`, for the rounds that are left, from an offset on. -/
def checkEntries (mem : Memory) (buf : Nat) : Nat → Nat → Nat → Option (Entries Visit Visit)
  | 0, _, _ => none
  | _ + 1, 0, _ => some .nil
  | fuel + 1, i + 1, offs =>
    let e := readEntry mem (w32 (buf + offs))
    if e.type = idTypeFile then do
      let (offs, file) := checkFile mem buf offs
      let rest ← checkEntries mem buf fuel i offs
      some (.file file rest)
    else if e.type = idTypeDir then do
      let (offs, dir, inner) ← checkDir mem buf fuel offs
      let rest ← checkEntries mem buf fuel i offs
      some (.dir dir inner rest)
    else none

end

end Kos
