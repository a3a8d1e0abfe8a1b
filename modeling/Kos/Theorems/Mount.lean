import Kos.Fs.Super
import Kos.Lemmas.Vfs
import Kos.Theorems.Lookup

/-!
# What a path leads to when a file system is mounted there

`vfs_mount` mounts on the inode that `vfs_lookup` has returned. If there was a mount already, this is the root behind it; but `vfs_lookup`
crosses only one mount link at the end of a path, so it never comes to what is mounted on that root.
-/

namespace Kos

open CChar LookupAux

/-- A tree of inodes: what is found in a directory, and what is behind a link, is further away from the root. -/
structure InodeTree (fs : Vfs) (depth : Nat → Nat) : Prop where
  finddir : ∀ i finddir name j, (fs.inodes i).finddir = some finddir → (finddir name).1 = some j → depth i < depth j
  link : ∀ i, (fs.inodes i).isset fsSymlink ∨ (fs.inodes i).isset fsMountp → depth i < depth (fs.inodes i).link

/-- The inode that a path names: where the loop of `vfs_lookup` ends, before a mount link is crossed. -/
def Vfs.named (fs : Vfs) (path : CString) (start : Nat) : Option Nat :=
  (lookupParts fs 0 (some (origin fs path start)) (seen path)).bind Prod.fst

namespace MountAux

variable {fs fs₁ fs₂ g : Vfs} {depth : Nat → Nat} {symc symc' i e dir d : Nat} {part : CString}

theorem isset_mountOn (ino : VfsInode) (root : Nat) : (ino.mountOn root).isset fsMountp = true := by
  have hbit : (ino.flags ||| fsMountp) &&& fsMountp = fsMountp := by
    apply UInt32.toBitVec_inj.mp
    apply BitVec.eq_of_getLsbD_eq
    intro k _
    simp only [UInt32.toBitVec_and, UInt32.toBitVec_or, BitVec.getLsbD_and, BitVec.getLsbD_or]
    cases fsMountp.toBitVec.getLsbD k <;> simp
  unfold VfsInode.isset VfsInode.mountOn
  simp only [hbit]
  decide

/-- What `vfs_mount` changes when it succeeds. -/
theorem vfsMount_zero {type : FsType} {device : Option CString} {flags : UInt32}
    (h : vfsMount fs (some type) (some d) device flags = (0, fs₂)) :
    fs₂.root = fs.root ∧ (fs₂.inodes d).isset fsMountp = true ∧ (fs₂.inodes d).link = (type.mount device flags).2 ∧
      ∀ j ≠ d, fs₂.inodes j = fs.inodes j := by
  unfold vfsMount at h
  simp only at h
  split at h
  · cases congrArg Prod.fst h
  · split at h
    · cases congrArg Prod.fst h
    · split at h
      · rename_i herr
        exact absurd (congrArg Prod.fst h) herr
      · cases h
        refine ⟨rfl, ?_, ?_, ?_⟩
        · simp only [if_pos]
          exact isset_mountOn _ _
        · simp only [if_pos]
          rfl
        · intro j hj
          simp only [if_neg hj]

/-! ## The walk to the end of the path -/

theorem lookupDir_congr (h : fs₂.inodes i = fs₁.inodes i) (hok : lookupDir fs₁ symc i = .ok (dir, symc')) :
    lookupDir fs₂ symc i = .ok (dir, symc') := by
  unfold lookupDir at hok ⊢
  rw [h]
  split at hok
  · rename_i hsym
    rw [if_pos hsym]
    split at hok
    · cases hok
    · rename_i hmax
      rw [if_neg hmax]
      exact hok
  · rename_i hsym
    rw [if_neg hsym]
    split at hok
    · rename_i hmount
      rw [if_pos hmount]
      exact hok
    · rename_i hmount
      rw [if_neg hmount]
      split at hok
      · cases hok
      · rename_i hdir
        rw [if_neg hdir]
        exact hok

theorem lookupDir_depth (ht : InodeTree fs depth) (h : fs₁.inodes = fs.inodes) (hok : lookupDir fs₁ symc i = .ok (dir, symc')) :
    depth i ≤ depth dir := by
  unfold lookupDir at hok
  rw [h] at hok
  split at hok
  · rename_i hsym
    split at hok
    · cases hok
    · cases hok
      exact Nat.le_of_lt (ht.link i (.inl hsym))
  · split at hok
    · rename_i hmount
      cases hok
      exact Nat.le_of_lt (ht.link i (.inr hmount))
    · split at hok
      · cases hok
      · cases hok
        exact Nat.le_refl _

theorem vfsFinddir_fst (fs : Vfs) (dir : Nat) (part : CString) : (vfsFinddir fs (some dir) part).1 =
    if (fs.inodes dir).isset fsDir then (fs.inodes dir).finddir.bind fun finddir => (finddir part).1 else none := by
  obtain ⟨fs', -, heq⟩ := vfsFinddir_spec (Eq.refl fs.inodes) dir part
  rw [heq]

theorem vfsFinddir_inodes (fs : Vfs) (dir : Nat) (part : CString) : (vfsFinddir fs (some dir) part).2.inodes = fs.inodes := by
  obtain ⟨fs', hinodes, heq⟩ := vfsFinddir_spec (Eq.refl fs.inodes) dir part
  rw [heq]
  exact hinodes

theorem vfsFinddir_depth (ht : InodeTree fs depth) (h : fs₁.inodes = fs.inodes) {j : Nat}
    (hfind : (vfsFinddir fs₁ (some dir) part).1 = some j) : depth dir < depth j := by
  rw [vfsFinddir_fst, h] at hfind
  split at hfind
  · obtain ⟨finddir, hdir, hname⟩ := Option.bind_eq_some_iff.mp hfind
    exact ht.finddir dir finddir part j hdir hname
  · cases hfind

theorem lookupParts_none {parts : List CString} : lookupParts fs symc none parts ≠ some (some e, g) := by
  intro h
  cases parts with
  | nil => cases congrArg Prod.fst (Option.some.inj h)
  | cons part parts =>
    rw [lookupParts] at h
    split at h
    · cases congrArg Prod.fst (Option.some.inj h)
    · cases h

/-- In a tree, the loop ends where it ended before when only an inode is changed that is not nearer to the root than that end. -/
theorem lookupParts_mount (ht : InodeTree fs depth) {parts : List CString} (h₁ : fs₁.inodes = fs.inodes)
    (h₂ : ∀ j ≠ d, fs₂.inodes j = fs.inodes j) (hd : depth e ≤ depth d)
    (h : lookupParts fs₁ symc (some i) parts = some (some e, g)) :
    depth i ≤ depth e ∧ g.inodes = fs.inodes ∧
      ∃ g₂, lookupParts fs₂ symc (some i) parts = some (some e, g₂) ∧ g₂.inodes = fs₂.inodes := by
  induction parts generalizing fs₁ fs₂ symc i with
  | nil =>
    cases h
    exact ⟨Nat.le_refl _, h₁, fs₂, rfl, rfl⟩
  | cons part parts ih =>
    rw [lookupParts] at h ⊢
    split at h
    · rename_i hlen
      rw [if_pos hlen]
      split at h
      · cases congrArg Prod.fst (Option.some.inj h)
      · rename_i dir symc' hok
        have hdir := lookupDir_depth ht h₁ hok
        cases hfind : (vfsFinddir fs₁ (some dir) part).1 with
        | none =>
          rw [hfind] at h
          exact absurd h lookupParts_none
        | some j =>
          have hj := vfsFinddir_depth ht h₁ hfind
          rw [hfind] at h
          have h₁' := (vfsFinddir_inodes fs₁ dir part).trans h₁
          have h₂' : ∀ k ≠ d, (vfsFinddir fs₂ (some dir) part).2.inodes k = fs.inodes k := by
            intro k hk
            rw [vfsFinddir_inodes]
            exact h₂ k hk
          obtain ⟨hle, hinodes, g₂, hg₂, hinodes₂⟩ := ih h₁' h₂' h
          -- the inodes on the way are nearer to the root than the changed one
          have hine : i ≠ d := by
            rintro rfl
            omega
          have hdirne : dir ≠ d := by
            rintro rfl
            omega
          have hok₂ : lookupDir fs₂ symc i = .ok (dir, symc') := lookupDir_congr (by rw [h₂ i hine, h₁]) hok
          have hfind₂ : (vfsFinddir fs₂ (some dir) part).1 = some j := by
            rw [vfsFinddir_fst, h₂ dir hdirne, ← h₁, ← vfsFinddir_fst]
            exact hfind
          refine ⟨by omega, hinodes, g₂, ?_, hinodes₂.trans (vfsFinddir_inodes fs₂ dir part)⟩
          rw [hok₂]
          simp only
          rw [hfind₂]
          exact hg₂
    · cases h

theorem cross_depth (ht : InodeTree fs depth) (e : Nat) : depth e ≤ depth (fs.cross e) := by
  unfold Vfs.cross
  split
  · rename_i hmount
    exact Nat.le_of_lt (ht.link e (.inr hmount))
  · exact Nat.le_refl _

theorem cross_congr (h : g.inodes = fs.inodes) : g.cross = fs.cross := by
  funext e
  rw [Vfs.cross, h, Vfs.cross]

end MountAux

open MountAux

/-- After a file system was mounted on the inode that a path leads to, the path leads to its root exactly if the path names no mount point
yet (or that root was there before). -/
theorem vfsMount_lookup_iff {fs fs₁ fs₂ : Vfs} {depth : Nat → Nat} {path : CString} {start d : Nat} {type : FsType}
    {device : Option CString} {flags : UInt32} (ht : InodeTree fs depth) (h : vfsLookup fs path start = some (some d, fs₁))
    (hm : vfsMount fs₁ (some type) (some d) device flags = (0, fs₂)) :
    (vfsLookup fs₂ path start).map Prod.fst = some (some (type.mount device flags).2) ↔
      ∃ e, fs.named path start = some e ∧ ((fs.inodes e).isset fsMountp = false ∨ (type.mount device flags).2 = d) := by
  obtain ⟨err, herr⟩ := VfsAux.vfsLookup_errorOnly h
  rw [vfsLookup_eq] at h ⊢
  obtain ⟨⟨ino, g⟩, hparts, heq⟩ := Option.map_eq_some_iff.mp h
  obtain ⟨hino, rfl⟩ := Prod.mk.inj heq
  obtain ⟨e, rfl, hcross⟩ := Option.map_eq_some_iff.mp hino
  have hnamed : fs.named path start = some e := by
    rw [Vfs.named, hparts]
    rfl
  obtain ⟨hroot, hmount, hlink, hothers⟩ := vfsMount_zero hm
  subst herr
  have horigin : origin fs₂ path start = origin fs path start := by
    unfold origin
    rw [hroot]
    rfl
  have hcross : fs.cross e = d := hcross
  have hdepth := cross_depth ht e
  rw [hcross] at hdepth
  obtain ⟨-, -, g₂, hparts₂, hinodes₂⟩ := lookupParts_mount ht rfl hothers hdepth hparts
  have hlookup : (some (some e, g₂)).map (fun (r : Option Nat × Vfs) => (r.1.map r.2.cross, r.2)) = some (some (fs₂.cross e), g₂) := by
    simp only [Option.map_some, cross_congr hinodes₂]
  rw [horigin, hparts₂]
  rw [show Option.map Prod.fst _ = some (some (fs₂.cross e)) from congrArg (Option.map Prod.fst) hlookup, hnamed]
  simp only [Option.some.injEq, exists_eq_left']
  cases hpoint : (fs.inodes e).isset fsMountp with
  | true =>
    -- the link at the end of the path is still the old one
    have hold : fs.cross e = (fs.inodes e).link := if_pos hpoint
    have hne : e ≠ d := by
      rintro rfl
      have := ht.link e (.inr hpoint)
      rw [← hold, hcross] at this
      omega
    have hnew : fs₂.cross e = d := by
      unfold Vfs.cross
      rw [hothers e hne, ← hcross]
      rfl
    rw [hnew]
    simp [eq_comm]
  | false =>
    have hsame : e = d := by
      rw [← hcross]
      unfold Vfs.cross
      rw [if_neg (by rw [hpoint]; decide)]
    subst hsame
    have hnew : fs₂.cross e = (type.mount device flags).2 := by
      unfold Vfs.cross
      rw [if_pos hmount, hlink]
    rw [hnew]
    simp

/-- The root file system of `fs_root`, which the kernel mounts at first: it has a directory `a`. -/
def bootFs : Vfs where
  inodes := fun i =>
    match i with
    | 0 => ⟨fsDir ||| fsMountp, 0, 1, false, false, none⟩
    | 1 => ⟨fsDir, 0, 0, false, false, some fun name => (if name = [a] then some 2 else none, none)⟩
    | _ => ⟨fsDir, 0, 0, false, false, none⟩
  root := 0
  fsError := -enosys
  files := []

/-- A file system that needs no device. -/
def someType (root : Nat) : FsType := ⟨0, fun _ _ => (0, root)⟩

theorem bootFs_tree : InodeTree bootFs id := by
  constructor
  · intro i finddir name j hdir hname
    rcases i with _ | _ | i
    · cases hdir
    · cases hdir
      simp only at hname
      split at hname
      · cases hname
        decide
      · cases hname
    · cases hdir
  · intro i hlink
    rcases i with _ | _ | i
    · decide
    · exact absurd hlink (by decide)
    · exact absurd hlink (by simp only [bootFs, VfsInode.isset]; decide)

/-- A file system is mounted on `/a`. -/
theorem bootFs_mount_a : (vfsLookup bootFs [slash, a] 0).map Prod.fst = some (some 2) ∧
    ∃ fs₂, vfsMount bootFs (some (someType 7)) (some 2) none 1 = (0, fs₂) ∧ (vfsLookup fs₂ [slash, a] 0).map Prod.fst = some (some 7) := by
  have hlookup : vfsLookup bootFs [slash, a] 0 = some (some 2, bootFs) := by
    rw [vfsLookup_eq]
    rfl
  have hmount : vfsMount bootFs (some (someType 7)) (some 2) none 1 =
      (0, { bootFs with inodes := fun i => if i = 2 then (bootFs.inodes i).mountOn 7 else bootFs.inodes i }) := rfl
  exact ⟨by rw [hlookup]; rfl, _, hmount, (vfsMount_lookup_iff bootFs_tree hlookup hmount).mpr ⟨2, rfl, .inl rfl⟩⟩

/-- A second file system is mounted on `/`, and the path leads to the first one as before. -/
theorem bootFs_mount_root : InodeTree bootFs id ∧ vfsLookup bootFs [slash] 0 = some (some 1, bootFs) ∧
    ∃ fs₂, vfsMount bootFs (some (someType 7)) (some 1) none 1 = (0, fs₂) ∧ (vfsLookup fs₂ [slash] 0).map Prod.fst = some (some 1) := by
  refine ⟨bootFs_tree, ?_, _, rfl, ?_⟩
  · rw [vfsLookup_eq]
    rfl
  · rw [vfsLookup_eq]
    rfl

end Kos
