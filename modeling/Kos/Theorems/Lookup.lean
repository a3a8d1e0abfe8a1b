import Kos.Fs.Path

/-!
# What a path leads to

A path is walked part by part: at a mount point through its link, then into the directory (`Vfs.walk`). `vfs_lookup` takes an empty part
for the end of the path, so of a path like `a//b` it sees only what is before it, and a part that does not fit its buffer makes it panic
as soon as it comes to it, even where the part before was not found. Apart from that it ends at the inode that the path leads to
(`vfsLookup_iff`): it does so in every tree exactly if the path has neither (`vfsLookup_all_iff`).
-/

namespace Kos

open CChar

namespace Vfs

/-- The inode behind the mount link of a mount point. -/
def cross (fs : Vfs) (ino : Nat) : Nat := if (fs.inodes ino).isset fsMountp then (fs.inodes ino).link else ino

/-- The inode of the name in the directory that `ino` is, or has mounted. -/
def enter (fs : Vfs) (ino : Nat) (name : CString) : Option Nat :=
  if (fs.inodes (fs.cross ino)).isset fsDir then (fs.inodes (fs.cross ino)).finddir.bind fun finddir => (finddir name).1 else none

/-- The inode that the names lead to, one in the directory of the other. -/
def walkTo (fs : Vfs) (ino : Nat) : List CString → Option Nat
  | [] => some ino
  | name :: names => (fs.enter ino name).bind fun ino => fs.walkTo ino names

/-- The same, with the mount link at the end. -/
def walk (fs : Vfs) (ino : Nat) (names : List CString) : Option Nat := (fs.walkTo ino names).map fs.cross

end Vfs

/-- The components of a path: what is between the slashes and not empty. -/
def components (path : CString) : List CString := (path.splitOn slash).filter (· ≠ [])

/-- Where a path begins. -/
def origin (fs : Vfs) (path : CString) (start : Nat) : Nat := if path.head? = some slash then fs.root else start

/-- The components that no empty part comes before, the leading slashes apart. -/
def seen (path : CString) : List CString := ((path.dropWhile (· = slash)).splitOn slash).takeWhile (· ≠ [])

/-- The other components. -/
def unseen (path : CString) : List CString := (((path.dropWhile (· = slash)).splitOn slash).dropWhile (· ≠ [])).filter (· ≠ [])

/-- No inode is a symbolic link. -/
def NoSymlinks (fs : Vfs) : Prop := ∀ ino, (fs.inodes ino).isset fsSymlink = false

/-- From `ino` on, a walk comes to a part that is too long: the first is, or the walk enters `ino`, or what is mounted there, and comes to
one behind that. -/
def ComesToLong (fs : Vfs) : Option Nat → List CString → Prop
  | _, [] => False
  | ino, part :: parts => fsMaxName ≤ part.length ∨
      ∃ i, ino = some i ∧ ((fs.inodes i).isset fsMountp ∨ (fs.inodes i).isset fsDir) ∧ ComesToLong fs (fs.enter i part) parts

/-- The components that are seen are short enough as far as the walk gets, and from where they lead to the others lead nowhere else. -/
def LookupOk (fs : Vfs) (path : CString) (start : Nat) : Prop :=
  ¬ ComesToLong fs (some (origin fs path start)) (seen path) ∧
    ∀ ino, fs.walkTo (origin fs path start) (seen path) = some ino → fs.walk ino (unseen path) = fs.walk ino []

/-- Every component is seen, and fits the buffer. -/
def PathOk (path : CString) : Prop := (∀ part ∈ seen path, part.length < fsMaxName) ∧ unseen path = []

instance (path : CString) : Decidable (PathOk path) :=
  inferInstanceAs (Decidable ((∀ part ∈ seen path, part.length < fsMaxName) ∧ unseen path = []))

namespace LookupAux

/-! ## The parts of a path -/

/-- The parts before the first empty one. -/
def parts (s : CString) : List CString := (s.splitOn slash).takeWhile (· ≠ [])

theorem slash_notMem_takeWhile (s : CString) : slash ∉ s.takeWhile (· ≠ slash) := by
  intro h
  have := List.all_eq_true.mp (List.all_takeWhile (p := (· ≠ slash)) (l := s)) slash h
  simp at this

/-- A string is its first part alone, or goes on behind a slash. -/
theorem takeWhile_cases (s : CString) : s = s.takeWhile (· ≠ slash) ∨ ∃ rest, s = s.takeWhile (· ≠ slash) ++ slash :: rest := by
  induction s with
  | nil => exact .inl rfl
  | cons c s ih =>
    rcases eq_or_ne c slash with rfl | hc
    · exact .inr ⟨s, by simp⟩
    · rw [List.takeWhile_cons_of_pos (by simpa using hc)]
      rcases ih with ih | ⟨rest, ih⟩
      · exact .inl (congrArg (c :: ·) ih)
      · exact .inr ⟨rest, congrArg (c :: ·) ih⟩

theorem parts_append_slash {part : CString} (h : slash ∉ part) (rest : CString) :
    parts (part ++ slash :: rest) = if part = [] then [] else part :: parts rest := by
  rw [parts, List.splitOn_append_cons_self_of_not_mem h]
  split
  next hpart => simp [hpart]
  next hpart => rw [List.takeWhile_cons_of_pos (by simpa using hpart), parts]

theorem parts_of_notMem {part : CString} (h : slash ∉ part) : parts part = if part = [] then [] else [part] := by
  rw [parts, List.splitOn_eq_singleton h]
  split
  next hpart => simp [hpart]
  next hpart => simp [hpart]

theorem parts_of_takeWhile_eq_nil {s : CString} (h : s.takeWhile (· ≠ slash) = []) : parts s = [] := by
  rcases takeWhile_cases s with hs | ⟨rest, hs⟩
  · rw [h] at hs
    rw [hs, parts_of_notMem (by simp), if_pos rfl]
  · rw [h] at hs
    rw [hs, parts_append_slash (by simp), if_pos rfl]

theorem parts_cons (path : CString) (start : Nat) {part : CString} (hpart : (path.drop start).takeWhile (· ≠ slash) = part) (hne : part ≠ []) :
    parts (path.drop start) =
      part :: parts (path.drop (if path[start + part.length]? = some slash then start + part.length + 1 else start + part.length)) := by
  have hslash := hpart ▸ slash_notMem_takeWhile (path.drop start)
  rcases takeWhile_cases (path.drop start) with hs | ⟨rest, hs⟩
  · rw [hpart] at hs
    have hdrop : path.drop (start + part.length) = [] := by rw [← List.drop_drop, hs, List.drop_length]
    have hget : path[start + part.length]? = none := by rw [← List.getElem?_drop, hs]; simp
    rw [hget, if_neg (by simp), hdrop, hs, parts_of_notMem hslash, if_neg hne, parts_of_notMem (by simp), if_pos rfl]
  · rw [hpart] at hs
    have hget : path[start + part.length]? = some slash := by rw [← List.getElem?_drop, hs]; simp
    have hdrop : path.drop (start + part.length + 1) = rest := by rw [Nat.add_assoc, ← List.drop_drop, hs]; simp
    rw [if_pos hget, hdrop, hs, parts_append_slash hslash, if_neg hne]

/-- `next_part` takes the parts off one after another. -/
theorem nextPart_spec (path : CString) (start : Nat) :
    match nextPart path start with
    | none => ∃ part rest, parts (path.drop start) = part :: rest ∧ fsMaxName ≤ part.length
    | some none => parts (path.drop start) = []
    | some (some (part, next)) => parts (path.drop start) = part :: parts (path.drop next) ∧ part.length < fsMaxName := by
  rcases eq_or_ne ((path.drop start).takeWhile (· ≠ slash)) [] with hpart | hpart
  · have hnext : nextPart path start = some none := by
      rw [nextPart, hpart]
      exact if_pos (Nat.le_refl _)
    rw [hnext]
    exact parts_of_takeWhile_eq_nil hpart
  · have hlen := List.length_pos_iff.mpr hpart
    have hparts := parts_cons path start rfl hpart
    rw [nextPart, if_neg (by omega)]
    split
    next h =>
      split at h
      next => cases h
      next hlong => exact ⟨_, _, hparts, Nat.not_lt.mp hlong⟩
    next h => split at h <;> cases h
    next h =>
      split at h
      next hshort =>
        cases h
        exact ⟨hparts, hshort⟩
      next => cases h

/-! ## The loop over the parts -/

/-- The loop of `vfs_lookup`, over the parts that it sees. -/
def lookupParts (fs : Vfs) (symc : Nat) (ino : Option Nat) : List CString → Option (Option Nat × Vfs)
  | [] => some (ino, fs)
  | part :: parts =>
    if part.length < fsMaxName then
      match ino with
      | none => some (none, fs)
      | some ino =>
        match lookupDir fs symc ino with
        | .error fs => some (none, fs)
        | .ok (dir, symc) => lookupParts (vfsFinddir fs (some dir) part).2 symc (vfsFinddir fs (some dir) part).1 parts
    else none

theorem lookupLoop_eq (fs : Vfs) (path : CString) (pidx symc : Nat) (ino : Option Nat) :
    lookupLoop fs path pidx symc ino = lookupParts fs symc ino (parts (path.drop pidx)) := by
  have hspec := nextPart_spec path pidx
  fun_induction lookupLoop fs path pidx symc ino with
  | case1 fs pidx symc ino hnext =>
    rw [hnext] at hspec
    obtain ⟨part, rest, hparts, hlong⟩ := hspec
    rw [hparts]
    exact (if_neg (Nat.not_lt.mpr hlong)).symm
  | case2 fs pidx symc ino hnext =>
    rw [hnext] at hspec
    rw [hspec]
    rfl
  | case3 fs pidx symc part next hnext =>
    rw [hnext] at hspec
    rw [hspec.1, lookupParts, if_pos hspec.2]
  | case4 fs pidx symc part next hnext ino fs' herror =>
    rw [hnext] at hspec
    rw [hspec.1, lookupParts, if_pos hspec.2]
    simp only [herror]
  | case5 fs pidx symc part next hnext ino dir symc' hok ih =>
    rw [hnext] at hspec
    rw [hspec.1, lookupParts, if_pos hspec.2]
    simp only [hok]
    exact ih (nextPart_spec path next)

section

variable {fs fs' : Vfs} {symc ino : Nat} {part : CString}

theorem vfsFinddir_spec (h : fs'.inodes = fs.inodes) (ino : Nat) (part : CString) : ∃ fs'', fs''.inodes = fs.inodes ∧
    vfsFinddir fs' (some ino) part =
      (if (fs.inodes ino).isset fsDir then (fs.inodes ino).finddir.bind fun finddir => (finddir part).1 else none, fs'') := by
  unfold vfsFinddir
  simp only [h]
  rcases hdir : (fs.inodes ino).isset fsDir with _ | _
  · exact ⟨fs'.seterror (-einval), h, by simp⟩
  · rcases hfind : (fs.inodes ino).finddir with _ | finddir
    · exact ⟨fs'.seterror (-enosys), h, by simp⟩
    · refine ⟨(finddir part).2.elim fs' fs'.seterror, ?_, by simp⟩
      rcases (finddir part).2 with _ | err <;> exact h

/-- Without symbolic links, a mount point or a directory is entered. -/
theorem lookupDir_spec (h : fs'.inodes = fs.inodes) (hsym : NoSymlinks fs) (symc ino : Nat) :
    ∃ fs'', fs''.inodes = fs.inodes ∧ lookupDir fs' symc ino =
      if (fs.inodes ino).isset fsMountp ∨ (fs.inodes ino).isset fsDir then .ok (fs.cross ino, symc) else .error fs'' := by
  unfold lookupDir Vfs.cross
  refine ⟨fs'.seterror (-enoent), h, ?_⟩
  simp only [h, hsym ino]
  rcases (fs.inodes ino).isset fsMountp with _ | _
  · rcases (fs.inodes ino).isset fsDir with _ | _ <;> simp
  · simp

theorem enter_eq_none (h : ¬ ((fs.inodes ino).isset fsMountp ∨ (fs.inodes ino).isset fsDir)) : fs.enter ino part = none := by
  rw [not_or] at h
  rw [Vfs.enter, Vfs.cross, if_neg h.1, if_neg h.2]

/-- The loop panics at the first part that is too long, and otherwise walks the parts. -/
theorem lookupParts_spec (h : fs'.inodes = fs.inodes) (hsym : NoSymlinks fs) (symc : Nat) (ino : Option Nat) (parts : List CString) :
    (ComesToLong fs ino parts ∧ lookupParts fs' symc ino parts = none) ∨
      ¬ ComesToLong fs ino parts ∧
        ∃ fs'', fs''.inodes = fs.inodes ∧ lookupParts fs' symc ino parts = some (ino.bind (fs.walkTo · parts), fs'') := by
  induction parts generalizing fs' ino with
  | nil => exact .inr ⟨id, fs', h, by cases ino <;> rfl⟩
  | cons part parts ih =>
    by_cases hlong : part.length < fsMaxName
    · rcases ino with _ | ino
      · refine .inr ⟨?_, fs', h, if_pos hlong⟩
        rintro (hlong' | ⟨i, hi, -⟩)
        · omega
        · cases hi
      · have hiff : ComesToLong fs (some ino) (part :: parts) ↔
            ((fs.inodes ino).isset fsMountp ∨ (fs.inodes ino).isset fsDir) ∧ ComesToLong fs (fs.enter ino part) parts := by
          simp only [ComesToLong, Option.some.injEq, exists_eq_left', or_iff_right (Nat.not_le.mpr hlong)]
        obtain ⟨fs'', h'', hdir⟩ := lookupDir_spec h hsym symc ino
        have hcons : lookupParts fs' symc (some ino) (part :: parts) =
            match lookupDir fs' symc ino with
            | .error fs => some (none, fs)
            | .ok (dir, symc) => lookupParts (vfsFinddir fs' (some dir) part).2 symc (vfsFinddir fs' (some dir) part).1 parts :=
          if_pos hlong
        rw [hiff, hcons, hdir]
        by_cases hin : (fs.inodes ino).isset fsMountp ∨ (fs.inodes ino).isset fsDir
        · obtain ⟨fs₁, h₁, hfind⟩ := vfsFinddir_spec h (fs.cross ino) part
          rw [if_pos hin, and_iff_right hin]
          simp only [hfind]
          exact ih h₁ (fs.enter ino part)
        · rw [if_neg hin]
          refine .inr ⟨fun hc => hin hc.1, fs'', h'', ?_⟩
          rw [Option.bind_some, Vfs.walkTo, enter_eq_none hin, Option.bind_none]
    · exact .inl ⟨.inl (Nat.not_lt.mp hlong), if_neg hlong⟩

end

/-! ## Every component -/

section

variable {fs : Vfs} {path : CString}

theorem components_dropWhile (path : CString) : components (path.dropWhile (· = slash)) = components path := by
  induction path with
  | nil => rfl
  | cons c path ih =>
    rcases eq_or_ne c slash with rfl | hc
    · rw [List.dropWhile_cons_of_pos (by simp), ih, components, components, ← List.nil_append (slash :: path),
        List.splitOn_append_cons_self_of_not_mem (by simp), List.filter_cons_of_neg (by simp)]
    · rw [List.dropWhile_cons_of_neg (by simpa using hc)]

theorem components_eq (path : CString) : components path = seen path ++ unseen path := by
  rw [← components_dropWhile, components, seen, unseen]
  conv_lhs => rw [← List.takeWhile_append_dropWhile (p := (· ≠ [])) (l := (path.dropWhile (· = slash)).splitOn slash)]
  rw [List.filter_append, List.filter_eq_self.mpr]
  intro part hpart
  exact List.all_eq_true.mp (List.all_takeWhile (p := (· ≠ []))) part hpart

theorem walkTo_append (fs : Vfs) (ino : Nat) (names names' : List CString) :
    fs.walkTo ino (names ++ names') = (fs.walkTo ino names).bind (fs.walkTo · names') := by
  induction names generalizing ino with
  | nil => rfl
  | cons name names ih =>
    rw [List.cons_append, Vfs.walkTo, Vfs.walkTo]
    rcases fs.enter ino name with _ | ino
    · rfl
    · exact ih ino

theorem vfsLookup_eq (fs : Vfs) (path : CString) (start : Nat) :
    vfsLookup fs path start = (lookupParts fs 0 (some (origin fs path start)) (seen path)).map fun (ino, fs) =>
      (ino.map fs.cross, fs) := by
  have hseen : seen path = parts ((path.dropWhile (· = slash)).drop 0) := rfl
  rw [hseen, ← lookupLoop_eq, vfsLookup, advanceRoot, origin]
  by_cases hslash : path.head? = some slash
  · rw [if_pos hslash, if_pos hslash]
    rfl
  · have hpath : path.dropWhile (· = slash) = path := by
      cases path with
      | nil => rfl
      | cons c path => exact List.dropWhile_cons_of_neg (by simpa using hslash)
    rw [if_neg hslash, if_neg hslash, hpath]
    rfl

theorem comesToLong_imp {ino : Option Nat} {parts : List CString} (h : ComesToLong fs ino parts) :
    ∃ part ∈ parts, fsMaxName ≤ part.length := by
  induction parts generalizing ino with
  | nil => exact h.elim
  | cons part parts ih =>
    rcases h with hlong | ⟨i, -, -, hrest⟩
    · exact ⟨part, List.mem_cons_self, hlong⟩
    · obtain ⟨part', hmem, hlong⟩ := ih hrest
      exact ⟨part', List.mem_cons_of_mem _ hmem, hlong⟩

/-- A chain of directories in which every name leads to the next. -/
def endless : Vfs where
  inodes := fun i => ⟨fsDir, 0, 0, false, false, some fun _ => (some (i + 1), none)⟩
  root := 0
  fsError := 0
  files := []

theorem endless_isset (ino : Nat) (bit : UInt32) : (endless.inodes ino).isset bit = (fsDir &&& bit != 0) := rfl

theorem endless_noSymlinks : NoSymlinks endless := fun ino => by rw [endless_isset]; decide

theorem endless_dir (ino : Nat) : (endless.inodes ino).isset fsDir = true := by rw [endless_isset]; decide

theorem endless_cross (ino : Nat) : endless.cross ino = ino := by
  rw [Vfs.cross, endless_isset]
  exact if_neg (by decide)

theorem endless_enter (ino : Nat) (name : CString) : endless.enter ino name = some (ino + 1) := by
  rw [Vfs.enter, endless_cross, if_pos (endless_dir ino)]
  rfl

theorem endless_walkTo (ino : Nat) (names : List CString) : endless.walkTo ino names = some (ino + names.length) := by
  induction names generalizing ino with
  | nil => rfl
  | cons name names ih =>
    rw [Vfs.walkTo, endless_enter, Option.bind_some, ih, List.length_cons]
    congr 1
    omega

theorem endless_comesToLong {ino : Nat} {parts : List CString} (h : ∃ part ∈ parts, fsMaxName ≤ part.length) :
    ComesToLong endless (some ino) parts := by
  induction parts generalizing ino with
  | nil => simp at h
  | cons part parts ih =>
    obtain ⟨part', hmem, hlong⟩ := h
    rcases List.mem_cons.mp hmem with rfl | hmem
    · exact .inl hlong
    · refine .inr ⟨ino, rfl, .inr (endless_dir ino), ?_⟩
      rw [endless_enter]
      exact ih ⟨part', hmem, hlong⟩

end

end LookupAux

open LookupAux

/-- In a tree without symbolic links, `vfs_lookup` returns, and the inode that the components lead to, exactly if `LookupOk`; for a path
this is so in every tree and from every inode exactly if all its components are seen and fit the buffer. -/
theorem vfsLookup_iff (path : CString) :
    (∀ fs start, NoSymlinks fs →
      ((vfsLookup fs path start).map Prod.fst = some (fs.walk (origin fs path start) (components path)) ↔ LookupOk fs path start)) ∧
    ((∀ fs start, NoSymlinks fs →
      (vfsLookup fs path start).map Prod.fst = some (fs.walk (origin fs path start) (components path))) ↔ PathOk path) := by
  have hinput : ∀ fs start, NoSymlinks fs →
      ((vfsLookup fs path start).map Prod.fst = some (fs.walk (origin fs path start) (components path)) ↔ LookupOk fs path start) := by
    intro fs start hsym
    rw [vfsLookup_eq, components_eq, Vfs.walk, walkTo_append]
    rcases lookupParts_spec rfl hsym 0 (some (origin fs path start)) (seen path) with ⟨hlong, hnone⟩ | ⟨hshort, fs', hinodes, hsome⟩
    · rw [hnone]
      exact iff_of_false (by simp) fun hok => hok.1 hlong
    · have hcross : fs'.cross = fs.cross := by
        funext ino
        rw [Vfs.cross, hinodes, Vfs.cross]
      rw [hsome, Option.bind_some, LookupOk, and_iff_right hshort]
      simp only [Option.map_some, hcross, Option.some.injEq]
      rcases fs.walkTo (origin fs path start) (seen path) with _ | ino
      · simp
      · simp [Vfs.walk, Vfs.walkTo, eq_comm]
  refine ⟨hinput, fun hall => ?_, fun hok fs start hsym => (hinput fs start hsym).mpr ⟨fun hlong => ?_, fun ino _ => ?_⟩⟩
  · obtain ⟨hshort, hrest⟩ := (hinput endless 0 endless_noSymlinks).mp (hall endless 0 endless_noSymlinks)
    refine ⟨fun part hpart => ?_, ?_⟩
    · by_contra hlong
      exact hshort (endless_comesToLong ⟨part, hpart, Nat.not_lt.mp hlong⟩)
    · have hwalk := hrest _ (endless_walkTo _ _)
      rw [Vfs.walk, Vfs.walk, endless_walkTo, endless_walkTo, Option.map_some, Option.map_some, endless_cross, endless_cross] at hwalk
      simpa using hwalk
  · obtain ⟨part, hpart, hlong⟩ := comesToLong_imp hlong
    have := hok.1 part hpart
    omega
  · rw [hok.2]

/-- A directory, with a directory `a` that has a file `b`. -/
def dirAB : Vfs where
  inodes := fun i =>
    match i with
    | 0 => ⟨fsDir, 0, 0, false, false, some fun name => (if name = [a] then some 1 else none, none)⟩
    | 1 => ⟨fsDir, 0, 0, false, false, some fun name => (if name = [b] then some 2 else none, none)⟩
    | _ => ⟨1, 0, 0, true, false, none⟩
  root := 0
  fsError := 0
  files := []

theorem dirAB_noSymlinks : NoSymlinks dirAB := by
  intro ino
  rcases ino with _ | _ | ino
  · decide
  · decide
  · show ((1 : UInt32) &&& fsSymlink != 0) = false
    decide

/-- `//a/b/`: leads to the file, from wherever. -/
theorem vfsLookup_dirAB :
    (vfsLookup dirAB [slash, slash, a, slash, b, slash] 1).map Prod.fst = some (some 2) := by
  have h := ((vfsLookup_iff [slash, slash, a, slash, b, slash]).2.mpr (by decide)) dirAB 1 dirAB_noSymlinks
  rw [h]
  decide

/-- `a//b` leads to the file, but `vfs_lookup` returns the directory `a`; and a part of 255 characters makes it panic. -/
theorem vfsLookup_not_walk :
    (vfsLookup dirAB [a, slash, slash, b] 0).map Prod.fst = some (some 1) ∧
    dirAB.walk (origin dirAB [a, slash, slash, b] 0)
      (components [a, slash, slash, b]) = some 2 ∧
    (vfsLookup dirAB (List.replicate 255 a) 0).isNone := by
  rw [vfsLookup_eq, vfsLookup_eq]
  exact ⟨by decide, by decide, by decide +kernel⟩

end Kos
