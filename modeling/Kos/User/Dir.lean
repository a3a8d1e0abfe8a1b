import Kos.Fs.Readdir

/-!
# Directories on the user side

`lib/libkos/opendir.c` and `lib/libkos/readdir.c`. `opendir` reads all the names of a directory by `sys_readdir`, each into a buffer of its
own, and keeps the pointers to them in an array that grows. Its `malloc` and `realloc` succeed; the address of the buffer for an entry is
an argument. The variable `err` that is looked at behind the loop is not the one of the loop, it is always 0.
-/

namespace Kos

/-- `MAX_PATH`. -/
abbrev maxPath : Nat := 256

/-- `NNAMES`. -/
abbrev nnames : Nat := 32

/-- The string at an address, of at most `n` characters. -/
def Memory.string (mem : Memory) (a : Nat) : Nat → CString
  | 0 => []
  | n + 1 => if h : mem a = 0 then [] else ⟨mem a, h⟩ :: Memory.string mem (a + 1) n

/-- `struct libkos_DIR`. -/
structure Dir where
  names : List Nat
  index : Nat
  count : Nat
  deriving DecidableEq, Repr

/-- The array `names`: its pointers so far, the variable `max`, and for how many pointers it has room. -/
structure DirNames where
  names : List Nat
  max : Int
  room : Nat
  deriving DecidableEq, Repr

/-- `if (i >= max) { max *= 2; names = realloc(names, max * sizeof(char*)); }` -/
def DirNames.grow (d : DirNames) : DirNames :=
  if (d.names.length : Int) ≥ d.max then
    let max := (d.max * 2).bmod 4294967296
    { d with max := max, room := (max * 4 % 4294967296).toNat / 4 }
  else d

/-- `names[i++] = buffer`, `none` if the array has no room for it. -/
def DirNames.store (d : DirNames) (buffer : Nat) : Option DirNames :=
  if d.names.length < d.room then some { d with names := d.names ++ [buffer] } else none

/-- The loop of `opendir`, for at most `fuel` rounds. -/
def opendirLoop (cwd : Nat) (path : CString) (malloc : Nat → Nat) : Nat → DirFs → Memory → DirNames → Option (Dir × DirFs × Memory)
  | 0, _, _, _ => none
  | fuel + 1, s, mem, d =>
    let i := d.names.length
    let buffer := malloc i
    (sysReaddir s cwd path mem buffer (maxPath + 1) (w32 i)).bind fun (err, s, mem) =>
      if err ≠ 0 then some (⟨d.names, 0, i⟩, s, mem)
      else (d.grow.store buffer).bind (opendirLoop cwd path malloc fuel s mem)

/-- `opendir(path)` of a process whose directory is `cwd`. -/
def opendir (cwd : Nat) (path : CString) (malloc : Nat → Nat) (fuel : Nat) (s : DirFs) (mem : Memory) : Option (Dir × DirFs × Memory) :=
  opendirLoop cwd path malloc fuel s mem ⟨[], nnames, nnames⟩

/-- `readdir(dir)`: the name in the entry that it returns. -/
def readdir (dir : Dir) (mem : Memory) : Option CString × Dir :=
  if dir.index ≥ dir.count then (none, dir)
  else (dir.names[dir.index]?.map fun a => mem.string a (maxPath - 1), { dir with index := dir.index + 1 })

/-- What `n` calls of `readdir` return, one after the other. -/
def readdirs (mem : Memory) : Nat → Dir → List (Option CString)
  | 0, _ => []
  | n + 1, dir => (readdir dir mem).1 :: readdirs mem n (readdir dir mem).2

end Kos
