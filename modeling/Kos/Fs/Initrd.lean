import Kos.Lib.Entries
import Kos.Initrd.Format

/-!
# How the kernel reads an initrd

The parsing part of `kernel/fs/initrd.c`. The image lies in memory at the address `disk`. The list of the entries of a directory is a
list here; the inodes' superblock and operations, which are always the same, are left out.
-/

namespace Kos

/-- `check_img`. -/
def checkImg (mem : Memory) (img : Nat) : Bool :=
  mem (w32 img) = 107 ∧ mem (w32 (img + 1)) = 73 ∧ mem (w32 (img + 2)) = 68 ∧ mem (w32 (img + 3)) = 0

/-- What an entry's inode has: the address of its name (`none` stands for `"<no name>"`), its length, and for a file the address of
its content. -/
structure IdInode where
  name : Option Nat
  length : Nat
  impl : Nat
  deriving DecidableEq, Repr

/-- The entry at an address. -/
def readEntry (mem : Memory) (a : Nat) : IdEntry := IdEntry.decode (mem.bytes a idEntrySize)

def newInode (e : IdEntry) (disk : Nat) : IdInode where
  name := if idGet e.name disk = 0 then none else some (idGet e.name disk)
  length := e.count
  impl := 0

def parseFile (file : IdEntry) (disk : Nat) : IdInode := { newInode file disk with impl := idGet file.content disk }

mutual

/-- `parse_dir`: the inode of a directory, and its entries; `none` when it panics, or does not end within the given number of
rounds. -/
def parseDir (mem : Memory) (disk : Nat) : Nat → Nat → Option (IdInode × Entries IdInode IdInode)
  | 0, _ => none
  | fuel + 1, dir =>
    let e := readEntry mem dir
    if e.type ≠ idTypeDir then none
    else if 0 < idGet e.count disk then (parseEntries mem disk fuel (idGet e.content disk)).map (newInode e disk, ·)
    else some (newInode e disk, .nil)

/-- The loop of `parse_dir`, from an entry on. -/
def parseEntries (mem : Memory) (disk : Nat) : Nat → Nat → Option (Entries IdInode IdInode)
  | 0, _ => none
  | fuel + 1, entry =>
    if entry = 0 then some .nil
    else
      let e := readEntry mem entry
      if e.type = idTypeFile then do
        let rest ← parseEntries mem disk fuel (idGet e.next disk)
        some (.file (parseFile e disk) rest)
      else if e.type = idTypeDir then do
        let (ino, inner) ← parseDir mem disk fuel entry
        let rest ← parseEntries mem disk fuel (idGet e.next disk)
        some (.dir ino inner rest)
      else none

end

end Kos
