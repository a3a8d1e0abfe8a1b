import Kos.Errno
import Kos.Lib.Bytes

/-!
# Reading from an open file

`do_read`, `id_read` and `id_open` of `kernel/fs/initrd.c`, `vfs_read` and `vfs_write` of `kernel/fs/inode.c`, and `fd2file` and
`sys_readwrite` of `kernel/fs/fs.c`. A file of the initial ramdisk is a run of bytes in kernel memory. A result of type `int` is its
32-bit pattern. The caller's buffer is an output: what `memcpy` puts there is returned as `data`; how the buffer is mapped into the
kernel is `vmUserToKernel`.
-/

namespace Kos

/-! ## Results -/

/-- The pattern of the `int` value `-n`. -/
def negInt (n : Nat) : Nat := w32 (4294967296 - n)

/-! ## Files -/

/-- What reading uses of `struct inode`: the length, and `impl`, the address of the content. -/
structure Inode where
  length : Nat
  impl : Nat
  length_lt : length < 4294967296

/-- `struct file`, without its operations. -/
structure File where
  inode : Inode
  pos : Nat

/-- What a read returns: the result, the bytes put into the buffer, and the file. -/
structure ReadResult where
  result : Nat
  data : List UInt8
  file : File

/-- The members `read` and `write` of `struct file_ops`; the arguments after the file are the count and the offset. -/
structure FileOps where
  read : Option (Memory → File → Nat → Nat → ReadResult)
  write : Option (File → List UInt8 → Nat → Nat → Nat × File)

/-- A file with its operations. -/
structure OpenFile where
  file : File
  fops : FileOps

/-! ## The initial ramdisk -/

def doRead (mem : Memory) (file : File) (offs count : Nat) : ReadResult :=
  if offs > file.inode.length then ⟨negInt 1, [], file⟩
  else
    let count := if w32 (offs + count) > file.inode.length then file.inode.length - offs else count
    ⟨count, mem.bytes (file.inode.impl + offs) count, { file with pos := w32 (file.pos + count) }⟩

def idRead (mem : Memory) (file : File) (count offset : Nat) : ReadResult := doRead mem file offset count

/-- `static struct file_ops fops` of the initial ramdisk. -/
def idFops : FileOps where
  read := some idRead
  write := none

def idOpen (ino : Inode) : OpenFile where
  file := { inode := ino, pos := 0 }
  fops := idFops

/-! ## The virtual file system -/

def vfsRead (mem : Memory) (f : OpenFile) (count offset : Nat) : Nat × List UInt8 × OpenFile :=
  match f.fops.read with
  | some read =>
    let r := read mem f.file count offset
    (r.result, r.data, { f with file := { r.file with pos := w32 (r.file.pos + r.result) } })
  | none => (negInt enosys, [], f)

def vfsWrite (f : OpenFile) (buffer : List UInt8) (count offset : Nat) : Nat × OpenFile :=
  match f.fops.write with
  | some write =>
    let (n, file) := write f.file buffer count offset
    (n, { f with file := { file with pos := w32 (file.pos + n) } })
  | none => (negInt enosys, f)

/-- `struct fs_proc_data`: the open files, by descriptor. -/
structure FsProcData where
  files : List (Option OpenFile)

/-- `fd2file`: a negative descriptor is a large one, `numfiles` is unsigned. -/
def fd2file (data : FsProcData) (fd : Nat) : Option OpenFile :=
  if fd ≥ data.files.length then none else (data.files[fd]?).join

/-- The two system calls that `sys_readwrite` handles. -/
inductive ReadWrite where
  | read
  | write (buffer : List UInt8)

def sysReadwrite (mem : Memory) (data : FsProcData) (call : ReadWrite) (fd count : Nat) : Nat × List UInt8 × FsProcData :=
  match fd2file data fd with
  | none => (negInt enoent, [], data)
  | some f =>
    match call with
    | .read =>
      let (n, bytes, f) := vfsRead mem f count f.file.pos
      (n, bytes, { data with files := data.files.set fd (some f) })
    | .write buffer =>
      let (n, f) := vfsWrite f buffer count f.file.pos
      (n, [], { data with files := data.files.set fd (some f) })

end Kos
