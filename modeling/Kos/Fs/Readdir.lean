import Kos.Fs.Path
import Kos.Lib.Bytes

/-!
# Reading a directory

`sys_readdir` of `kernel/fs/fs.c`, `vfs_readdir` of `kernel/fs/inode.c`, and the `readdir` operations of the two file systems,
`kernel/fs/initrd.c` and `kernel/fs/devfs.c`. Both keep the entries of a directory in a list, of which only the names matter here. The
two strings of a system call are mapped into the kernel and contiguous, and `kmalloc` succeeds. A string that is copied behind the end
of its buffer is `none`, as a panic is.
-/

namespace Kos

/-- Whose `readdir` operation an inode has: the initrd's, which finds the entries in `ino->impl`, or that of devfs. -/
inductive DirOps where
  | initrd (entries : List CString)
  | devfs

/-- The file systems, with the operations of the inodes for directories; `devfs_root` and the names of the list `devices`. -/
structure DirFs where
  vfs : Vfs
  ops : Nat → Option DirOps
  devfsRoot : Nat
  devices : List CString

/-- The loop over the entries, whose counter is `i`. -/
def findEntry (index : Nat) : Nat → List CString → Option CString
  | _, [] => none
  | i, name :: names => if i = index then some name else findEntry index (i + 1) names

/-- `strcpy(dirent->name, name)`. -/
def direntName (name : CString) : Option CString := if name.length < fsMaxName then some name else none

def idReaddir (fs : Vfs) (entries : List CString) (index : Nat) : Option (Option CString × Vfs) :=
  match findEntry index 0 entries with
  | some name => (direntName name).map fun name => (some name, fs)
  | none => some (none, fs.seterror (-enoent))

/-- `readdir` of `devfs.c`. It leaves `fs_error` as it is. -/
def devfsReaddir (s : DirFs) (ino index : Nat) : Option (Option CString × Vfs) :=
  if ino ≠ s.devfsRoot then some (none, s.vfs)
  else if index ≥ s.devices.length then some (none, s.vfs)
  else
    match findEntry index 0 s.devices with
    | some name => (direntName name).map fun name => (some name, s.vfs)
    | none => some (none, s.vfs)

def vfsReaddir (s : DirFs) (ino : Option Nat) (index : Nat) : Option (Option CString × Vfs) :=
  match ino with
  | none => some (none, s.vfs.seterror (-einval))
  | some ino =>
    if ¬ (s.vfs.inodes ino).isset fsDir then some (none, s.vfs.seterror (-einval))
    else
      match s.ops ino with
      | some (.initrd entries) => idReaddir s.vfs entries index
      | some .devfs => devfsReaddir s ino index
      | none => some (none, s.vfs.seterror (-enosys))

/-- `strncpy(dst, src, n)`. -/
def Memory.strncpy (mem : Memory) (dst : Nat) (src : CString) (n : Nat) : Memory := mem.put dst n fun j => src[j]?.elim 0 (·.1)

/-- `sys_readdir` of a process whose directory is `cwd`, with a buffer of `size` bytes. -/
def sysReaddir (s : DirFs) (cwd : Nat) (path : CString) (mem : Memory) (buffer size index : Nat) : Option (Int × DirFs × Memory) :=
  (vfsLookup s.vfs path cwd).bind fun (dir, fs) =>
    match dir with
    | none => some (-enoent, { s with vfs := fs }, mem)
    | some dir =>
      (vfsReaddir { s with vfs := fs } (some dir) index).map fun (dirent, fs) =>
        match dirent with
        | none => (fs.fsError, { s with vfs := fs }, mem)
        | some name => (0, { s with vfs := fs }, mem.strncpy buffer name (if size > fsMaxName then fsMaxName else size))

end Kos
