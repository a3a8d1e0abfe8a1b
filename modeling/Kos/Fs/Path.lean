import Kos.Fs.Vfs

/-!
# Looking up a path

`kernel/fs/path.c`. A failed assertion is a panic (`none`). `vfs_lookup_dir` does nothing yet and is left out.
-/

namespace Kos

open CChar

/-- `FS_MAX_NAME`: the size of the buffer for a part of a path. -/
def fsMaxName : Nat := 255

def fsMaxSymloop : Nat := 20

/-- `next_part`: the part that begins at `start`, and where the next one begins; nothing if the part is empty. A part that does not fit
the buffer is a panic. -/
def nextPart (path : CString) (start : Nat) : Option (Option (CString × Nat)) :=
  let part := (path.drop start).takeWhile (· ≠ slash)
  let stop := start + part.length
  if stop ≤ start then some none
  else if part.length < fsMaxName then some (some (part, if path[stop]? = some slash then stop + 1 else stop))
  else none

/-- `advance_root`: the path behind its leading slashes, if it has any. -/
def advanceRoot (path : CString) : Option CString :=
  if path.head? = some slash then some (path.dropWhile (· = slash)) else none

theorem nextPart_lt {path part : CString} {start next : Nat} (h : nextPart path start = some (some (part, next))) :
    path.length - next < path.length - start := by
  have hlen := (List.takeWhile_sublist (· ≠ slash) (l := path.drop start)).length_le
  rw [List.length_drop] at hlen
  unfold nextPart at h
  simp only at h
  split at h
  · cases h
  · split at h
    · cases h
      split <;> omega
    · cases h

/-- The inode that the loop of `vfs_lookup` looks for the next part in, behind a link if there is one, and the number of symbolic links
so far; or no inode is returned (`error`). -/
def lookupDir (fs : Vfs) (symc ino : Nat) : Except Vfs (Nat × Nat) :=
  if (fs.inodes ino).isset fsSymlink then
    if symc + 1 ≥ fsMaxSymloop then .error (fs.seterror (-eloop)) else .ok ((fs.inodes ino).link, symc + 1)
  else if (fs.inodes ino).isset fsMountp then .ok ((fs.inodes ino).link, symc)
  else if ¬ (fs.inodes ino).isset fsDir then .error (fs.seterror (-enoent))
  else .ok (ino, symc)

/-- The loop of `vfs_lookup`. -/
def lookupLoop (fs : Vfs) (path : CString) (pidx symc : Nat) (ino : Option Nat) : Option (Option Nat × Vfs) :=
  match _h : nextPart path pidx with
  | none => none
  | some none => some (ino, fs)
  | some (some (part, next)) =>
    match ino with
    | none => some (none, fs)
    | some ino =>
      match lookupDir fs symc ino with
      | .error fs => some (none, fs)
      | .ok (dir, symc) => lookupLoop (vfsFinddir fs (some dir) part).2 path next symc (vfsFinddir fs (some dir) part).1
termination_by path.length - pidx
decreasing_by exact nextPart_lt _h

/-- `vfs_lookup`. Both of its arguments are there. -/
def vfsLookup (fs : Vfs) (path : CString) (start : Nat) : Option (Option Nat × Vfs) :=
  let (path, start) := match advanceRoot path with
    | some path => (path, fs.root)
    | none => (path, start)
  (lookupLoop fs path 0 0 (some start)).map fun (ino, fs) =>
    (ino.map fun ino => if (fs.inodes ino).isset fsMountp then (fs.inodes ino).link else ino, fs)

end Kos
