import Kos.Lib.Run
import Kos.Lemmas.Vfs
import Kos.Theorems.Lookup

/-!
# The descriptors of a process over whole runs

Every process has its own table of descriptors, and the open files are shared by all. In every state that the processes reach with
`sys_open`, `sys_close` and `sys_open_std`, a file that is opened gets the smallest descriptor that is free, a descriptor loses its file
only by a close of it that succeeds, and an `int` that is no descriptor of an open file has no file (`descriptors_kept`). The files in
the tables are open, each in one place, so that a close never touches memory that was freed.
-/

namespace Kos

/-- The file of a descriptor. -/
def FdTable.bound (data : FdTable) (d : Nat) : Option Nat := data.files[d]?.join

/-- The files, and the tables of the processes. -/
structure FdRun where
  fs : Vfs
  tables : Nat → FdTable

/-- A system call of the process `p`, with the answers of the driver and the addresses that `kmalloc` returns. -/
inductive FdCall where
  | open (p : Nat) (name : CString) (answer : OpenAnswer) (addr : Nat)
  | close (p : Nat) (fd : Int) (answer : Int)
  | openStd (p : Nat) (tty : Option CString) (answer : Fin 3 → OpenAnswer × Nat)

/-- The table of the process and the files are those that the call returned. -/
def FdRun.put (r : FdRun) (p : Nat) (s : Int × Vfs × FdTable) : FdRun := ⟨s.2.1, Function.update r.tables p s.2.2⟩

def fdStep (r : FdRun) : FdCall → Option FdRun
  | .open p name answer addr => (sysOpen r.fs (r.tables p) name answer addr).map (r.put p)
  | .close p fd answer => (sysClose r.fs (r.tables p) fd answer).map (r.put p)
  | .openStd p tty answer => (sysOpenStd r.fs (r.tables p) tty answer).map (r.put p)

/-- A number that an `int` can have. -/
def IsInt (n : Int) : Prop := -2147483648 ≤ n ∧ n < 2147483648

instance (n : Int) : Decidable (IsInt n) := inferInstanceAs (Decidable (_ ∧ _))

/-- The smallest descriptor without a file. -/
def FdTable.IsFirstFree (data : FdTable) (d : Nat) : Prop := data.bound d = none ∧ ∀ e < d, data.bound e ≠ none

/-- The table with another file, or none, for one descriptor. -/
def FdTable.Rebinds (data data' : FdTable) (d : Nat) (file : Option Nat) : Prop :=
  ∀ e, data'.bound e = if e = d then file else data.bound e

namespace DescriptorsAux

open VfsAux

/-! ## Tables -/

/-- The table has room for the standard descriptors, and fits the memory. -/
def Sized (data : FdTable) : Prop := 32 ≤ data.files.length ∧ data.files.length < 1073741824

section

variable {data data' : FdTable} {d : Nat}

theorem bound_eq_some_iff {file : Nat} : data.bound d = some file ↔ data.files[d]? = some (some file) := by
  rw [FdTable.bound, Option.join_eq_some_iff]

theorem rebinds_set (data : FdTable) (hd : d < data.files.length) (file : Option Nat) :
    data.Rebinds { data with files := data.files.set d file } d file := by
  intro e
  simp only [FdTable.bound]
  rcases eq_or_ne e d with rfl | hne
  · rw [if_pos rfl, List.getElem?_set_self hd]
    rfl
  · rw [if_neg hne, List.getElem?_set_ne hne.symm]

/-- `newfd` makes the table longer at most, and returns the first descriptor without a file. -/
theorem newfd_spec (h : data.newfd = some (d, data')) (hsize : Sized data) :
    data.IsFirstFree d ∧ d < data'.files.length ∧ Sized data' ∧ ∀ e, data'.bound e = data.bound e := by
  unfold FdTable.newfd at h
  split at h
  next i hfind =>
    cases h
    obtain ⟨hd, hnone, hbefore⟩ := List.findIdx?_eq_some_iff_getElem.mp hfind
    refine ⟨⟨?_, fun e he hfree => ?_⟩, hd, hsize, fun _ => rfl⟩
    · rw [FdTable.bound, List.getElem?_eq_getElem hd]
      simpa using hnone
    · have := hbefore e he
      rw [FdTable.bound, List.getElem?_eq_getElem (by omega)] at hfree
      simp_all
  next hfind =>
    simp only at h
    split at h
    next hfits =>
      cases h
      rw [List.findIdx?_eq_none_iff] at hfind
      have hlow := hsize.1
      refine ⟨⟨?_, fun e he hfree => ?_⟩, by simp, ?_, fun e => ?_⟩
      · simp [FdTable.bound]
      · have hmem := hfind _ (List.getElem_mem (l := data.files) (n := e) (by omega))
        rw [FdTable.bound, List.getElem?_eq_getElem (by omega)] at hfree
        simp_all
      · simp only [Sized, List.length_append, List.length_replicate]
        omega
      · simp only [FdTable.bound]
        rcases Nat.lt_or_ge e data.files.length with he | he
        · rw [List.getElem?_append_left he]
        · rw [List.getElem?_append_right he, List.getElem?_eq_none he, List.getElem?_replicate]
          split <;> rfl
    next => cases h

theorem lt_length_of_bound {file : Nat} (h : data.bound d = some file) : d < data.files.length :=
  (List.getElem?_eq_some_iff.mp (bound_eq_some_iff.mp h)).1

theorem fd2file_eq_bound (data : FdTable) (fd : Int) : data.fd2file fd = data.bound (unsigned fd) := by
  unfold FdTable.fd2file
  split
  next hle =>
    rw [FdTable.bound, List.getElem?_eq_none hle]
    rfl
  next => rfl

/-- An `int` that is taken for a descriptor with a file is that descriptor. -/
theorem eq_of_bound_unsigned (hsize : Sized data) {fd : Int} (hfd : IsInt fd) {file : Nat} (h : data.bound (unsigned fd) = some file) :
    fd = (unsigned fd : Nat) := by
  obtain ⟨hlow, hhigh⟩ := hfd
  have hlt := lt_length_of_bound h
  have hlen := hsize.2
  simp only [unsigned] at hlt ⊢
  omega

end

/-! ## What a call does to the files and the table -/

/-- Nothing, or a file is opened and bound to a free descriptor, or the file of a descriptor is closed and unbound. -/
inductive FdChange (fs : Vfs) (data : FdTable) (fs' : Vfs) (data' : FdTable) : Prop where
  | keep (hfiles : fs'.files = fs.files) (hdata : ∀ e, data'.bound e = data.bound e)
  | bind (d addr : Nat) (f : VfsFile) (hfree : data.bound d = none) (hnew : fs.file addr = none)
      (hfiles : fs'.files = (addr, f) :: fs.files) (hinode : f.inode.isSome) (hdata : data.Rebinds data' d (some addr))
  | unbind (d addr : Nat) (hbound : data.bound d = some addr) (hfiles : ∀ b, b ≠ addr → fs'.file b = fs.file b)
      (hdata : data.Rebinds data' d none)

/-- The files in the tables are open, each in one place. -/
structure FdInv (r : FdRun) : Prop where
  sized : ∀ p, Sized (r.tables p)
  live : ∀ p d a, (r.tables p).bound d = some a → ∃ f, r.fs.file a = some f ∧ f.inode.isSome
  once : ∀ p d p' d' a, (r.tables p).bound d = some a → (r.tables p').bound d' = some a → p = p' ∧ d = d'

section

variable {r : FdRun} {p : Nat} {n : Int} {fs' : Vfs} {data' : FdTable}

theorem bound_put (r : FdRun) (p : Nat) (n : Int) (fs' : Vfs) (data' : FdTable) (q d : Nat) :
    ((r.put p (n, fs', data')).tables q).bound d = if q = p then data'.bound d else (r.tables q).bound d := by
  simp only [FdRun.put, Function.update_apply]
  split <;> rfl

theorem FdInv.sized_put (h : FdInv r) (hsize : Sized data') (q : Nat) : Sized ((r.put p (n, fs', data')).tables q) := by
  simp only [FdRun.put, Function.update_apply]
  split
  · exact hsize
  · exact h.sized q

theorem FdInv.keep (h : FdInv r) (hsize : Sized data') (hfiles : fs'.files = r.fs.files)
    (hdata : ∀ e, data'.bound e = (r.tables p).bound e) : FdInv (r.put p (n, fs', data')) := by
  have hbound (q d : Nat) : ((r.put p (n, fs', data')).tables q).bound d = (r.tables q).bound d := by
    rw [bound_put]
    split
    next hq => rw [hdata, hq]
    next => rfl
  refine ⟨h.sized_put hsize, fun q d a hd => ?_, fun q d q' d' a hd hd' => ?_⟩
  · rw [hbound] at hd
    simpa only [FdRun.put, Vfs.file, hfiles] using h.live q d a hd
  · rw [hbound] at hd hd'
    exact h.once q d q' d' a hd hd'

/-- A file that was just opened is nowhere in the tables yet. -/
theorem FdInv.nowhere {addr : Nat} (h : FdInv r) (hnew : r.fs.file addr = none) (q d : Nat) : (r.tables q).bound d ≠ some addr := by
  intro hd
  obtain ⟨f, hf, -⟩ := h.live q d addr hd
  rw [hnew] at hf
  cases hf

theorem FdInv.bind {d₀ addr : Nat} {f : VfsFile} (h : FdInv r) (hsize : Sized data') (hnew : r.fs.file addr = none)
    (hfiles : fs'.files = (addr, f) :: r.fs.files) (hinode : f.inode.isSome) (hdata : (r.tables p).Rebinds data' d₀ (some addr)) :
    FdInv (r.put p (n, fs', data')) := by
  have hbound (q d : Nat) : ((r.put p (n, fs', data')).tables q).bound d =
      if q = p ∧ d = d₀ then some addr else (r.tables q).bound d := by
    rw [bound_put, hdata]
    rcases eq_or_ne q p with rfl | hq
    · simp
    · simp [hq]
  refine ⟨h.sized_put hsize, fun q d a hd => ?_, fun q d q' d' a hd hd' => ?_⟩
  · rw [hbound] at hd
    split at hd
    · cases hd
      exact ⟨f, (file_of_cons hfiles addr).trans (if_pos rfl), hinode⟩
    · obtain ⟨f', hf', hinode'⟩ := h.live q d a hd
      have hne : a ≠ addr := by
        rintro rfl
        exact h.nowhere hnew q d hd
      exact ⟨f', (file_of_cons hfiles a).trans ((if_neg hne).trans hf'), hinode'⟩
  · rw [hbound] at hd hd'
    split at hd
    next hq =>
      cases hd
      split at hd'
      next hq' => exact ⟨hq.1.trans hq'.1.symm, hq.2.trans hq'.2.symm⟩
      next => exact absurd hd' (h.nowhere hnew q' d')
    next =>
      split at hd'
      next =>
        cases hd'
        exact absurd hd (h.nowhere hnew q d)
      next => exact h.once q d q' d' a hd hd'

theorem FdInv.unbind {d₀ addr : Nat} (h : FdInv r) (hsize : Sized data') (hbound₀ : (r.tables p).bound d₀ = some addr)
    (hfiles : ∀ b, b ≠ addr → fs'.file b = r.fs.file b) (hdata : (r.tables p).Rebinds data' d₀ none) :
    FdInv (r.put p (n, fs', data')) := by
  -- what is bound afterwards was bound before, and is another file
  have hbound {q d a : Nat} (hd : ((r.put p (n, fs', data')).tables q).bound d = some a) :
      (r.tables q).bound d = some a ∧ a ≠ addr := by
    rw [bound_put] at hd
    split at hd
    next hq =>
      rw [hdata] at hd
      split at hd
      next => cases hd
      next hne =>
        subst hq
        refine ⟨hd, ?_⟩
        rintro rfl
        exact hne (h.once q d q d₀ a hd hbound₀).2
    next hq =>
      refine ⟨hd, ?_⟩
      rintro rfl
      exact hq (h.once q d p d₀ a hd hbound₀).1
  refine ⟨h.sized_put hsize, fun q d a hd => ?_, fun q d q' d' a hd hd' => h.once q d q' d' a (hbound hd).1 (hbound hd').1⟩
  obtain ⟨hd, hne⟩ := hbound hd
  obtain ⟨f, hf, hinode⟩ := h.live q d a hd
  exact ⟨f, (hfiles a hne).trans hf, hinode⟩

/-- A change of the table of one process keeps what holds. -/
theorem FdInv.change (h : FdInv r) (hc : FdChange r.fs (r.tables p) fs' data') (hsize : Sized data') :
    FdInv (r.put p (n, fs', data')) := by
  cases hc with
  | keep hfiles hdata => exact h.keep hsize hfiles hdata
  | bind d addr f _ hnew hfiles hinode hdata => exact h.bind hsize hnew hfiles hinode hdata
  | unbind d addr hbound hfiles hdata => exact h.unbind hsize hbound hfiles hdata

end

/-! ## The system calls -/

section

variable {fs fs' : Vfs} {data data' : FdTable}

theorem sysOpen_spec (hsize : Sized data) {name : CString} {answer : OpenAnswer} {addr : Nat} {res : Int}
    (h : sysOpen fs data name answer addr = some (res, fs', data')) :
    Sized data' ∧ ((fs'.files = fs.files ∧ data' = data ∧ res = fs'.fsError) ∨
      ∃ (d : Nat) (f : VfsFile), fs'.files = (addr, f) :: fs.files ∧ fs.file addr = none ∧ f.inode.isSome ∧ res = d ∧
        data.IsFirstFree d ∧ data.Rebinds data' d (some addr)) := by
  obtain ⟨⟨inode, fs₁⟩, hlookup, h⟩ := Option.bind_eq_some_iff.mp h
  obtain ⟨err, rfl⟩ := vfsLookup_errorOnly hlookup
  cases inode with
  | none =>
    cases h
    exact ⟨hsize, .inl ⟨rfl, rfl, rfl⟩⟩
  | some inode =>
    obtain ⟨⟨file, fs₂⟩, hopen, h⟩ := Option.bind_eq_some_iff.mp h
    obtain ⟨rfl, err', rfl⟩ | ⟨rfl, hfresh, i, hi, rfl⟩ := vfsOpen_cases hopen
    · cases h
      exact ⟨hsize, .inl ⟨rfl, rfl, rfl⟩⟩
    · obtain ⟨⟨d, data₁⟩, hnewfd, h⟩ := Option.map_eq_some_iff.mp h
      cases h
      obtain ⟨hfirst, hd, hsize', hbound⟩ := newfd_spec hnewfd hsize
      refine ⟨by simpa [Sized] using hsize', .inr ⟨d, _, rfl, (fresh_iff.mp hfresh).2.2, rfl, rfl, hfirst, fun e => ?_⟩⟩
      rw [rebinds_set data₁ hd (some addr) e, hbound]

theorem sysClose_spec (hsize : Sized data) (fd answer : Int)
    (hlive : ∀ d a, data.bound d = some a → ∃ f, fs.file a = some f ∧ f.inode.isSome) :
    ∃ res fs' data', sysClose fs data fd answer = some (res, fs', data') ∧ Sized data' ∧
      ((res ≠ 0 ∧ fs' = fs ∧ data' = data) ∨
        (res = 0 ∧ ∃ a, data.bound (unsigned fd) = some a ∧ (∀ b, b ≠ a → fs'.file b = fs.file b) ∧
          data.Rebinds data' (unsigned fd) none)) := by
  unfold sysClose
  rw [fd2file_eq_bound]
  split
  next => exact ⟨_, _, _, rfl, hsize, .inl ⟨by decide, rfl, rfl⟩⟩
  next file hfile =>
    obtain ⟨f, hf, hinode⟩ := hlive _ _ hfile
    obtain ⟨err, fs', hclose⟩ := exists_vfsClose hf hinode answer
    rw [hclose]
    simp only [Option.map_some]
    obtain ⟨herr, rfl⟩ | ⟨rfl, f', i, -, -, rfl⟩ := vfsClose_cases hclose
    · rw [if_neg herr]
      exact ⟨_, _, _, rfl, hsize, .inl ⟨herr, rfl, rfl⟩⟩
    · rw [if_pos rfl]
      refine ⟨_, _, _, rfl, by simpa [Sized] using hsize,
        .inr ⟨rfl, file, hfile, fun b hb => ?_, rebinds_set data (lt_length_of_bound hfile) none⟩⟩
      rw [file_kfree_of_ne _ hb, file_count]

/-- A part of `sys_open_std` binds its descriptor to a new file, if it has none. -/
theorem openStd_spec (hsize : Sized data) {inode : Option Nat} {fd : Nat} (hfd : fd < 3) {answer : OpenAnswer} {addr : Nat}
    {n n' : Int} (h : openStd inode fd answer addr (n, fs, data) = some (n', fs', data')) :
    Sized data' ∧ FdChange fs data fs' data' ∧
      ∀ e, data'.bound e = data.bound e ∨ (e = fd ∧ data.bound e = none ∧ data'.bound e = some addr) := by
  unfold openStd at h
  simp only at h
  split at h
  next hnone =>
    have hfree : data.bound fd = none := by simpa [FdTable.bound] using hnone
    obtain ⟨⟨file, fs₁⟩, hopen, h⟩ := Option.map_eq_some_iff.mp h
    cases h
    have hset := rebinds_set data (d := fd) (by have := hsize.1; omega) file
    refine ⟨by simpa [Sized] using hsize, ?_⟩
    obtain ⟨rfl, err, rfl⟩ | ⟨rfl, hfresh, i, hi, rfl⟩ := vfsOpen_cases hopen
    · have hkeep (e : Nat) : FdTable.bound { data with files := data.files.set fd none } e = data.bound e := by
        rw [hset e]
        split
        next he => rw [he, hfree]
        next => rfl
      exact ⟨.keep rfl hkeep, fun e => .inl (hkeep e)⟩
    · refine ⟨.bind fd addr _ hfree (fresh_iff.mp hfresh).2.2 rfl rfl hset, fun e => ?_⟩
      rw [hset e]
      split
      next he => exact .inr ⟨he, he ▸ hfree, rfl⟩
      next => exact .inl rfl
  next =>
    cases h
    exact ⟨hsize, .keep rfl fun _ => rfl, fun _ => .inl rfl⟩

end

/-! ## Runs -/

section

variable {r r' : FdRun} {p : Nat}

theorem put_put (r : FdRun) (p : Nat) (s s' : Int × Vfs × FdTable) : (r.put p s).put p s' = r.put p s' := by
  simp [FdRun.put]

theorem tables_put_self (r : FdRun) (p : Nat) (s : Int × Vfs × FdTable) : (r.put p s).tables p = s.2.2 := Function.update_self ..

theorem FdInv.openStd {s s' : Int × Vfs × FdTable} (h : FdInv (r.put p s)) {inode : Option Nat} {fd : Nat} (hfd : fd < 3)
    {answer : OpenAnswer} {addr : Nat} (hs : openStd inode fd answer addr s = some s') : FdInv (r.put p s') := by
  have hsize := h.sized p
  rw [tables_put_self] at hsize
  obtain ⟨hsize', hchange, -⟩ := openStd_spec hsize hfd hs
  have hinv := h.change (p := p) (n := s'.1) (by rw [tables_put_self]; exact hchange) hsize'
  rwa [put_put] at hinv

/-- `sys_open_std` opens the terminal in three parts, if there is one. -/
theorem sysOpenStd_parts {fs : Vfs} {data : FdTable} {tty : Option CString} {answer : Fin 3 → OpenAnswer × Nat}
    {s : Int × Vfs × FdTable} (h : sysOpenStd fs data tty answer = some s) :
    s = (0, fs, data) ∨ ∃ inode fs₀ s₁ s₂, ErrorOnly fs fs₀ ∧ openStd inode 0 (answer 0).1 (answer 0).2 (0, fs₀, data) = some s₁ ∧
      openStd inode 1 (answer 1).1 (answer 1).2 s₁ = some s₂ ∧ openStd inode 2 (answer 2).1 (answer 2).2 s₂ = some s := by
  cases tty with
  | none =>
    cases h
    exact .inl rfl
  | some tty =>
    obtain ⟨⟨inode, fs₀⟩, hlookup, h⟩ := Option.bind_eq_some_iff.mp h
    obtain ⟨s₁, h₁, h⟩ := Option.bind_eq_some_iff.mp h
    obtain ⟨s₂, h₂, h⟩ := Option.bind_eq_some_iff.mp h
    exact .inr ⟨inode, fs₀, s₁, s₂, vfsLookup_errorOnly hlookup, h₁, h₂, h⟩

theorem put_self (r : FdRun) (p : Nat) (n : Int) : r.put p (n, r.fs, r.tables p) = r := by
  simp [FdRun.put]

theorem FdInv.step (h : FdInv r) {c : FdCall} (hstep : fdStep r c = some r') : FdInv r' := by
  cases c with
  | «open» p name answer addr =>
    obtain ⟨⟨res, fs', data'⟩, hopen, rfl⟩ := Option.map_eq_some_iff.mp hstep
    obtain ⟨hsize', ⟨hfiles, rfl, -⟩ | ⟨d, f, hfiles, hnew, hinode, -, hfirst, hdata⟩⟩ := sysOpen_spec (h.sized p) hopen
    · exact h.change (.keep hfiles fun _ => rfl) hsize'
    · exact h.change (.bind d addr f hfirst.1 hnew hfiles hinode hdata) hsize'
  | close p fd answer =>
    obtain ⟨⟨res, fs', data'⟩, hclose, rfl⟩ := Option.map_eq_some_iff.mp hstep
    obtain ⟨res₁, fs₁, data₁, hclose₁, hsize', hcases⟩ := sysClose_spec (h.sized p) fd answer (h.live p)
    cases hclose.symm.trans hclose₁
    obtain ⟨-, rfl, rfl⟩ | ⟨-, a, hbound, hfiles, hdata⟩ := hcases
    · exact h.change (.keep rfl fun _ => rfl) hsize'
    · exact h.change (.unbind _ a hbound hfiles hdata) hsize'
  | openStd p tty answer =>
    obtain ⟨s, hstd, rfl⟩ := Option.map_eq_some_iff.mp hstep
    obtain rfl | ⟨inode, fs₀, s₁, s₂, ⟨err, rfl⟩, h₁, h₂, h₃⟩ := sysOpenStd_parts hstd
    · rwa [put_self]
    · have h₀ : FdInv (r.put p (0, r.fs.seterror err, r.tables p)) := h.change (.keep rfl fun _ => rfl) (h.sized p)
      exact ((h₀.openStd (by decide) h₁).openStd (by decide) h₂).openStd (by decide) h₃

/-- The descriptors of `sys_open_std` get a new file, if they have none; the others keep theirs. -/
theorem sysOpenStd_bound {fs : Vfs} {data : FdTable} (hsize : Sized data) {tty : Option CString} {answer : Fin 3 → OpenAnswer × Nat}
    {s : Int × Vfs × FdTable} (h : sysOpenStd fs data tty answer = some s) (e : Nat) :
    s.2.2.bound e = data.bound e ∨ (data.bound e = none ∧ ∃ i : Fin 3, e = i ∧ s.2.2.bound e = some (answer i).2) := by
  obtain rfl | ⟨inode, fs₀, s₁, s₂, -, h₁, h₂, h₃⟩ := sysOpenStd_parts h
  · exact .inl rfl
  · obtain ⟨hsize₁, -, hbound₁⟩ := openStd_spec hsize (by decide) h₁
    obtain ⟨hsize₂, -, hbound₂⟩ := openStd_spec hsize₁ (by decide) h₂
    obtain ⟨-, -, hbound₃⟩ := openStd_spec hsize₂ (by decide) h₃
    rcases hbound₃ e with h₃ | ⟨rfl, hnone, h₃⟩
    · rw [h₃]
      rcases hbound₂ e with h₂ | ⟨rfl, hnone, h₂⟩
      · rw [h₂]
        rcases hbound₁ e with h₁ | ⟨rfl, hnone, h₁⟩
        · exact .inl h₁
        · exact .inr ⟨hnone, 0, rfl, h₁⟩
      · rcases hbound₁ 1 with h₁ | ⟨h01, -⟩
        · exact .inr ⟨h₁ ▸ hnone, 1, rfl, h₂⟩
        · cases h01
    · rcases hbound₂ 2 with h₂ | ⟨h12, -⟩
      · rcases hbound₁ 2 with h₁ | ⟨h02, -⟩
        · exact .inr ⟨h₁ ▸ h₂ ▸ hnone, 2, rfl, h₃⟩
        · cases h02
      · cases h12

end

end DescriptorsAux

open DescriptorsAux

/-- In every state that runs of the processes reach, from tables as `vfs_create_procdata` makes them, the table of a process behaves as
it should: a file that `sys_open` opens gets the smallest free descriptor, which it returns, and every other descriptor keeps its file;
without a new file nothing changes. `sys_close` unbinds its descriptor and nothing else if it succeeds, and otherwise changes nothing.
`sys_open_std` binds free descriptors only. And `fd2file` knows the descriptors of open files only. -/
theorem descriptors_kept (r₀ r : FdRun) (hstart : ∀ p, r₀.tables p = vfsCreateProcdata r₀.fs)
    (h : Reach fdStep (fun _ _ => True) r₀ r) (p : Nat) :
    (∀ name answer addr res fs' data', sysOpen r.fs (r.tables p) name answer addr = some (res, fs', data') →
      (fs'.files = r.fs.files ∧ data' = r.tables p ∧ res = fs'.fsError) ∨
        ∃ (d : Nat) (f : VfsFile), fs'.files = (addr, f) :: r.fs.files ∧ res = d ∧ (r.tables p).IsFirstFree d ∧
          (r.tables p).Rebinds data' d (some addr)) ∧
    (∀ fd answer, IsInt fd → ∃ res fs' data', sysClose r.fs (r.tables p) fd answer = some (res, fs', data') ∧
      ((res ≠ 0 ∧ fs' = r.fs ∧ data' = r.tables p) ∨
        (res = 0 ∧ ∃ d : Nat, fd = d ∧ (r.tables p).bound d ≠ none ∧ (r.tables p).Rebinds data' d none))) ∧
    (∀ tty answer n fs' data', sysOpenStd r.fs (r.tables p) tty answer = some (n, fs', data') → ∀ e,
      data'.bound e = (r.tables p).bound e ∨
        ((r.tables p).bound e = none ∧ ∃ i : Fin 3, e = i ∧ data'.bound e = some (answer i).2)) ∧
    (∀ fd, IsInt fd → (r.tables p).fd2file fd = if 0 ≤ fd then (r.tables p).bound fd.toNat else none) := by
  have hinit : FdInv r₀ := by
    have hnone (p d : Nat) : (r₀.tables p).bound d = none := by
      rw [hstart, FdTable.bound, vfsCreateProcdata, List.getElem?_replicate]
      split <;> rfl
    refine ⟨fun p => ?_, fun p d a hd => ?_, fun p d p' d' a hd => ?_⟩
    · simp [hstart, Sized, vfsCreateProcdata]
    · rw [hnone] at hd
      cases hd
    · rw [hnone] at hd
      cases hd
  have hinv := h.inv FdInv hinit fun _ _ _ hr _ hs => hr.step hs
  have hsize := hinv.sized p
  refine ⟨fun name answer addr res fs' data' hopen => ?_, fun fd answer hfd => ?_, fun tty answer n fs' data' hstd => ?_,
    fun fd hfd => ?_⟩
  · obtain ⟨-, hsame | ⟨d, f, hfiles, -, -, hres, hfirst, hdata⟩⟩ := sysOpen_spec hsize hopen
    · exact .inl hsame
    · exact .inr ⟨d, f, hfiles, hres, hfirst, hdata⟩
  · obtain ⟨res, fs', data', hclose, -, hcases⟩ := sysClose_spec hsize fd answer (hinv.live p)
    refine ⟨res, fs', data', hclose, hcases.imp_right ?_⟩
    rintro ⟨hres, a, hbound, -, hdata⟩
    exact ⟨hres, unsigned fd, eq_of_bound_unsigned hsize hfd hbound, by simp [hbound], hdata⟩
  · exact sysOpenStd_bound hsize hstd
  · rw [fd2file_eq_bound]
    rcases hbound : (r.tables p).bound (unsigned fd) with _ | file
    · split
      next hpos =>
        obtain ⟨-, hhigh⟩ := hfd
        rw [← hbound]
        congr 1
        simp only [unsigned]
        omega
      next => rfl
    · have heq := eq_of_bound_unsigned hsize hfd hbound
      rw [if_pos (by omega), ← hbound]
      congr 1
      omega

/-- The root is a terminal that can be opened, and no process has a file. -/
def ttyRoot : FdRun where
  fs := ⟨fun _ => ⟨4, 0, 0, true, false, none⟩, 0, -enosys, []⟩
  tables := fun _ => ⟨0, List.replicate 32 none⟩

/-- The process 7 opens the terminal as its standard descriptors. -/
def openTty : FdCall := .openStd 7 (some [CChar.slash]) fun i => (⟨0, some ⟨true, false⟩, 0⟩, 4096 * (i + 1))

theorem ttyRoot_descriptors : ∃ r, fdStep ttyRoot openTty = some r ∧ (r.tables 7).fd2file 2 = some 12288 ∧
    (r.tables 7).fd2file (-1) = none ∧ ∃ res fs' data', sysClose r.fs (r.tables 7) 1 0 = some (res, fs', data') ∧
      (res = 0 → data'.bound 1 = none ∧ data'.bound 2 = some 12288) := by
  have hstep : (fdStep ttyRoot openTty).any fun r => (r.tables 7).bound 2 = some 12288 := by
    simp only [fdStep, openTty, sysOpenStd, LookupAux.vfsLookup_eq]
    decide
  obtain ⟨r, hr, hbound⟩ := (Option.any_eq_true _ _).mp hstep
  have htwo := of_decide_eq_true hbound
  obtain ⟨-, hclose, -, hfd⟩ := descriptors_kept ttyRoot r (fun _ => rfl) (.step openTty .init trivial hr) 7
  obtain ⟨res, fs', data', hres, hcases⟩ := hclose 1 0 (by decide)
  refine ⟨r, hr, (hfd 2 (by decide)).trans htwo, hfd (-1) (by decide), res, fs', data', hres, fun hzero => ?_⟩
  rcases hcases with ⟨hne, -⟩ | ⟨-, d, hd, -, hdata⟩
  · exact absurd hzero hne
  · obtain rfl : d = 1 := by omega
    exact ⟨hdata 1, (hdata 2).trans htwo⟩

end Kos
