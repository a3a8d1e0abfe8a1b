import Kos.Fs.Path

/-!
# The descriptors of a process

`kernel/fs/fs.c`: the table of the open files of a process, and the system calls that change it. A system call gets the table of its
process and returns it with the result. How a path is mapped into the kernel is left out, as are the calls that only read or write.
`krealloc` keeps the old contents, and succeeds as long as the size fits a `size_t`.
-/

namespace Kos

/-- An `int` as the unsigned number that it is compared as. -/
def unsigned (n : Int) : Nat := (n % 4294967296).toNat

/-- `struct fs_proc_data`: the inode of the working directory, and the addresses of the open files by descriptor. -/
structure FdTable where
  cwd : Nat
  files : List (Option Nat)
  deriving DecidableEq, Repr

def vfsCreateProcdata (fs : Vfs) : FdTable := ⟨fs.root, List.replicate 32 none⟩

/-- The loop of `vfs_clone_procdata` from the descriptor `i` on. The driver's answer and the address of the copy are given by
descriptor. -/
def cloneFiles (fs : Vfs) (answer : Nat → DupAnswer × Nat) (i : Nat) : List (Option Nat) → Option (List (Option Nat) × Vfs)
  | [] => some ([], fs)
  | none :: files => (cloneFiles fs answer (i + 1) files).map fun (copies, fs) => (none :: copies, fs)
  | some file :: files =>
    (vfsDup fs (some file) (answer i).1 (answer i).2).bind fun (newf, fs) =>
      (cloneFiles fs answer (i + 1) files).map fun (copies, fs) => (newf :: copies, fs)

def vfsCloneProcdata (fs : Vfs) (data : FdTable) (answer : Nat → DupAnswer × Nat) : Option (FdTable × Vfs) :=
  (cloneFiles fs answer 0 data.files).map fun (copies, fs) => (⟨data.cwd, copies⟩, fs)

/-- The loop of `vfs_free_procdata` from the descriptor `i` on. -/
def closeFiles (fs : Vfs) (answer : Nat → Int) (i : Nat) : List (Option Nat) → Option Vfs
  | [] => some fs
  | none :: files => closeFiles fs answer (i + 1) files
  | some file :: files => (vfsClose fs (some file) (answer i)).bind fun (_, fs) => closeFiles fs answer (i + 1) files

def vfsFreeProcdata (fs : Vfs) (data : FdTable) (answer : Nat → Int) : Option Vfs := closeFiles fs answer 0 data.files

/-! ## System calls -/

namespace FdTable

/-- `fd2file`: a negative descriptor is a large one, `numfiles` is unsigned. -/
def fd2file (data : FdTable) (fd : Int) : Option Nat :=
  if unsigned fd ≥ data.files.length then none else data.files[unsigned fd]?.join

/-- `newfd`: the first descriptor without a file, in a table that is made longer if there is none. -/
def newfd (data : FdTable) : Option (Nat × FdTable) :=
  match data.files.findIdx? (·.isNone) with
  | some i => some (i, data)
  | none =>
    let oldnum := data.files.length
    let numfiles := oldnum + 32
    if numfiles * 4 < 4294967296 then
      some (numfiles - 32, { data with files := data.files ++ List.replicate (numfiles - oldnum) none })
    else none

end FdTable

/-- `sys_open`, with the driver's answer and the address that `kmalloc` returns. -/
def sysOpen (fs : Vfs) (data : FdTable) (name : CString) (answer : OpenAnswer) (addr : Nat) : Option (Int × Vfs × FdTable) :=
  (vfsLookup fs name data.cwd).bind fun (inode, fs) =>
    match inode with
    | none => some (fs.fsError, fs, data)
    | some inode =>
      (vfsOpen fs (some inode) answer addr).bind fun (file, fs) =>
        match file with
        | none => some (fs.fsError, fs, data)
        | some file => data.newfd.map fun (fd, data) => (fd, fs, { data with files := data.files.set fd (some file) })

def sysClose (fs : Vfs) (data : FdTable) (fd : Int) (answer : Int) : Option (Int × Vfs × FdTable) :=
  match data.fd2file fd with
  | none => some (-enoent, fs, data)
  | some file =>
    (vfsClose fs (some file) answer).map fun (err, fs) =>
      if err = 0 then (err, fs, { data with files := data.files.set (unsigned fd) none }) else (err, fs, data)

/-- One of the three parts of `sys_open_std`: opens the terminal as the descriptor `fd`, if that has no file; `n` counts. -/
def openStd (inode : Option Nat) (fd : Nat) (answer : OpenAnswer) (addr : Nat) (s : Int × Vfs × FdTable) :
    Option (Int × Vfs × FdTable) :=
  let (n, fs, data) := s
  if (data.files[fd]?.join).isNone then
    (vfsOpen fs inode answer addr).map fun (file, fs) => (n + 1, fs, { data with files := data.files.set fd file })
  else some s

/-- `sys_open_std`: the terminal of the process is opened as the descriptors 0, 1 and 2. -/
def sysOpenStd (fs : Vfs) (data : FdTable) (tty : Option CString) (answer : Fin 3 → OpenAnswer × Nat) :
    Option (Int × Vfs × FdTable) :=
  match tty with
  | none => some (0, fs, data)
  | some tty =>
    (vfsLookup fs tty data.cwd).bind fun (inode, fs) =>
      (openStd inode 0 (answer 0).1 (answer 0).2 (0, fs, data)).bind fun s =>
        (openStd inode 1 (answer 1).1 (answer 1).2 s).bind (openStd inode 2 (answer 2).1 (answer 2).2)

end Kos
