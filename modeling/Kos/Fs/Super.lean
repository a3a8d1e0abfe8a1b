import Kos.Fs.Vfs

/-!
# Mounting a file system

`vfs_mount` of `kernel/fs/super.c`, and `vfs_gettype` of `kernel/fs/fs.c`. What the file system's own `mount` does with the device and
the flags is part of the type: its status, and the root that it puts into the superblock. `vfs_umount` is left out.
-/

namespace Kos

def fstNeedDev : UInt32 := 0x01

/-- `struct fstype`; `mount` gives its status and `sb->root`. -/
structure FsType where
  flags : UInt32
  mount : Option CString → UInt32 → Int × Nat

/-- `vfs_gettype`, with the types of `fslist` by name. -/
def vfsGettype (fs : Vfs) (fslist : List (CString × FsType)) (name : Option CString) : Option FsType × Vfs :=
  match name with
  | none => (none, fs.seterror (-einval))
  | some name =>
    match fslist.lookup name with
    | some type => (some type, fs)
    | none => (none, fs.seterror (-enoent))

/-- `bset(point->flags, FS_MOUNTP); point->link = root` -/
def VfsInode.mountOn (ino : VfsInode) (root : Nat) : VfsInode := { ino with flags := ino.flags ||| fsMountp, link := root }

def vfsMount (fs : Vfs) (type : Option FsType) (point : Option Nat) (device : Option CString) (flags : UInt32) : Int × Vfs :=
  match type, point with
  | some type, some point =>
    if ¬ (fs.inodes point).isset fsDir then (-einval, fs)
    else if type.flags &&& fstNeedDev != 0 ∧ device.isNone then (-einval, fs)
    else
      let (err, root) := type.mount device flags
      if err ≠ 0 then (err, fs)
      else (0, { fs with inodes := fun i => if i = point then (fs.inodes i).mountOn root else fs.inodes i })
  | _, _ => (-einval, fs)

end Kos
