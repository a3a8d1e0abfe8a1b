import Kos.Errno
import Kos.Lib.CString
import Kos.Lib.Word

/-!
# Inodes and open files

`kernel/fs/inode.c`: the functions for one inode or one open file. A file system driver is behind the operations of an inode or a file;
what it answers to a call is an argument here, and an operation that is not there is none or false. `kmalloc` succeeds, and the address
that it returns is an argument too; where it cannot return that address, the call has no result. A null pointer is `none`.
-/

namespace Kos

/-! ## The data -/

def fsDir : UInt32 := 0x02

def fsSymlink : UInt32 := 0x20

def fsMountp : UInt32 := 0x40

/-- `struct inode` at some address, with the operations of its `ops`. `link` is read only where a flag says that there is one. What
`finddir` finds, and what it assigns to `fs_error`, if anything, depend on the name. -/
structure VfsInode where
  flags : UInt32
  opencount : Nat
  link : Nat
  hasOpen : Bool
  hasUnlink : Bool
  finddir : Option (CString → Option Nat × Option Int)

/-- `bisset(ino->flags, bit)` -/
def VfsInode.isset (ino : VfsInode) (bit : UInt32) : Bool := ino.flags &&& bit != 0

/-- `struct file_ops`: whether the operations are there. -/
structure VfsFops where
  close : Bool
  dup : Bool
  deriving DecidableEq, Repr

/-- `struct file`. -/
structure VfsFile where
  inode : Option Nat
  pos : Nat
  fops : Option VfsFops
  deriving DecidableEq, Repr

/-- The inodes by address, `fs_root`, `fs_error`, and the open files: those allocated by `vfs_open` and `vfs_dup` and not freed. -/
structure Vfs where
  inodes : Nat → VfsInode
  root : Nat
  fsError : Int
  files : List (Nat × VfsFile)

namespace Vfs

def seterror (fs : Vfs) (err : Int) : Vfs := { fs with fsError := err }

/-- The open file at an address. -/
def file (fs : Vfs) (addr : Nat) : Option VfsFile := fs.files.lookup addr

/-- `kmalloc` can return the address: no open file is there. -/
def fresh (fs : Vfs) (addr : Nat) : Bool := addr ≠ 0 && addr < 4294967296 && (fs.file addr).isNone

/-- `kmalloc` of a file, which is then filled in. -/
def addFile (fs : Vfs) (addr : Nat) (f : VfsFile) : Vfs := { fs with files := (addr, f) :: fs.files }

/-- `kfree` of a file. -/
def kfree (fs : Vfs) (addr : Nat) : Vfs := { fs with files := fs.files.filter (·.1 ≠ addr) }

/-- `opencount++` (or `--`) of an inode. -/
def count (fs : Vfs) (ino : Nat) (n : Nat → Nat) : Vfs :=
  { fs with inodes := fun i =>
      if i = ino then { fs.inodes i with opencount := n (fs.inodes i).opencount } else fs.inodes i }

end Vfs

/-! ## Inodes -/

def vfsUnlink (fs : Vfs) (ino : Option Nat) (answer : Int) : Int :=
  match ino with
  | none => -einval
  | some ino =>
    if (fs.inodes ino).opencount ≠ 0 then -eagain
    else if (fs.inodes ino).hasUnlink then answer
    else -enosys

def vfsFinddir (fs : Vfs) (ino : Option Nat) (name : CString) : Option Nat × Vfs :=
  match ino with
  | none => (none, fs.seterror (-einval))
  | some ino =>
    if ¬ (fs.inodes ino).isset fsDir then (none, fs.seterror (-einval))
    else
      match (fs.inodes ino).finddir with
      | some finddir => ((finddir name).1, (finddir name).2.elim fs fs.seterror)
      | none => (none, fs.seterror (-enosys))

/-! ## Open files -/

/-- What the driver's `open` does: its status, and the operations and the position of the file. -/
structure OpenAnswer where
  status : Int
  fops : Option VfsFops
  pos : Nat
  deriving DecidableEq, Repr

/-- `vfs_open`: the address of the file, which `kmalloc` put at `addr`. -/
def vfsOpen (fs : Vfs) (ino : Option Nat) (answer : OpenAnswer) (addr : Nat) : Option (Option Nat × Vfs) :=
  match ino with
  | none => some (none, fs.seterror (-einval))
  | some ino =>
    if ¬ fs.fresh addr then none
    else if (fs.inodes ino).hasOpen then
      if answer.status ≠ 0 then some (none, fs.seterror answer.status)
      else some (some addr, (fs.count ino fun n => w32 (n + 1)).addFile addr ⟨some ino, answer.pos, answer.fops⟩)
    else some (none, fs.seterror (-einval))

/-- `vfs_close` of the file at an address; `none` if there is no such file, or it refers to no inode. -/
def vfsClose (fs : Vfs) (file : Option Nat) (answer : Int) : Option (Int × Vfs) :=
  match file with
  | none => some (-einval, fs)
  | some file =>
    (fs.file file).bind fun f =>
      if f.fops.any (·.close) then
        if answer ≠ 0 then some (answer, fs)
        else f.inode.map fun ino => (0, (fs.count ino fun n => sub32 n 1).kfree file)
      else some (-enosys, fs)

/-- What the driver's `dup` does: the error, and the new file. -/
structure DupAnswer where
  err : Int
  newf : VfsFile
  deriving DecidableEq, Repr

def defDup (f : VfsFile) : DupAnswer := ⟨0, { inode := f.inode, pos := f.pos, fops := f.fops }⟩

/-- `vfs_dup` of the file at an address: the address of the copy, which `kmalloc` put at `newf`. It is `none` if there is no such file,
or one without `fops`. If the driver fails, the file itself is freed, and the copy never. -/
def vfsDup (fs : Vfs) (file : Option Nat) (answer : DupAnswer) (newf : Nat) : Option (Option Nat × Vfs) :=
  match file with
  | none => some (none, fs.seterror (-einval))
  | some file =>
    if ¬ fs.fresh newf then none
    else
      (fs.file file).bind fun f =>
        f.fops.map fun fops =>
          let answer := if fops.dup then answer else defDup f
          if answer.err ≠ 0 then (none, (fs.kfree file).seterror answer.err)
          else (some newf, fs.addFile newf answer.newf)

end Kos
