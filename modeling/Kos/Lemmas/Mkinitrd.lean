import Kos.Initrd.Mkinitrd

/-!
# The tree that the calls describe

`Built` says that the entries from a pointer on are those of a tree. The calls for a tree, made in any directory, append the tree to
the entries of this directory (`run_calls`).
-/

namespace Kos

variable {π : Type}

/-- A tree as the calls describe it: files with names and paths, directories with names. -/
abbrev PathTree (π : Type) := Entries (List UInt8 × π) (List UInt8)

/-- The calls that describe the entries of a directory. -/
def Entries.calls : PathTree π → List (BuildCall π)
  | .nil => []
  | .file (name, path) rest => .addFile name path :: rest.calls
  | .dir name inner rest => .startDir name :: (inner.calls ++ .endDir :: rest.calls)

/-- The entries from the pointer `p` on are those of the tree; they lie at the addresses from `lo` to `hi`. -/
def Built (m : Nat → BuildEntry π) (lo hi : Nat) : Option Nat → PathTree π → Prop
  | p, .nil => p = none
  | p, .file (name, path) rest =>
    ∃ a, p = some a ∧ lo ≤ a ∧ a < hi ∧ (m a).name = name ∧ (m a).path = some path ∧ Built m lo hi (m a).next rest
  | p, .dir name inner rest =>
    ∃ a, p = some a ∧ lo ≤ a ∧ a < hi ∧ (m a).name = name ∧ (m a).path = none ∧ (m a).count = inner.length ∧
      Built m lo hi (m a).files inner ∧ Built m lo hi (m a).next rest

namespace MkinitrdAux

/-- Only the entries of the tree matter. -/
theorem built_congr {m m' : Nat → BuildEntry π} {lo hi lo' hi' : Nat} {p : Option Nat} {t : PathTree π} (h : Built m lo hi p t)
    (hm : ∀ a, lo ≤ a → a < hi → m' a = m a) (hlo : lo' ≤ lo) (hhi : hi ≤ hi') : Built m' lo' hi' p t := by
  induction t generalizing p with
  | nil => exact h
  | file f rest ih =>
    obtain ⟨a, hp, hla, hah, hname, hpath, hrest⟩ := h
    refine ⟨a, hp, Nat.le_trans hlo hla, Nat.lt_of_lt_of_le hah hhi, ?_⟩
    rw [hm a hla hah]
    exact ⟨hname, hpath, ih hrest⟩
  | dir d inner rest ih₁ ih₂ =>
    obtain ⟨a, hp, hla, hah, hname, hpath, hcount, hinner, hrest⟩ := h
    refine ⟨a, hp, Nat.le_trans hlo hla, Nat.lt_of_lt_of_le hah hhi, ?_⟩
    rw [hm a hla hah]
    exact ⟨hname, hpath, hcount, ih₁ hinner, ih₂ hrest⟩

/-- Where the next entry of the directory `d` will be linked, behind the entry `c` if there is one. -/
def link (b : Builder π) (d : Nat) : Option Nat → Option Nat
  | none => (b.entries d).files
  | some c => (b.entries c).next

/-- The directory `d` is the current one, and `c` is its last entry. -/
structure AtEnd (b : Builder π) (d : Nat) (c : Option Nat) : Prop where
  curDir : b.curDir = some d
  curEntry : b.curEntry = c
  dir : d < b.fresh
  link : link b d c = none
  entry : ∀ e, c = some e → e < b.fresh ∧ e ≠ d ∧ (b.entries d).files ≠ none

/-- What appending entries to the directory `d`, behind `c`, leaves as it was. -/
structure Grown (b b' : Builder π) (d : Nat) (c : Option Nat) : Prop where
  root : b'.root = b.root
  fresh : b.fresh ≤ b'.fresh
  others : ∀ x < b.fresh, x ≠ d → c ≠ some x → b'.entries x = b.entries x
  dir : ({ b'.entries d with files := none, count := 0, lastEntry := none } : BuildEntry π) =
    { b.entries d with files := none, count := 0, lastEntry := none }
  files : c ≠ none → (b'.entries d).files = (b.entries d).files
  entry : ∀ e, c = some e → ({ b'.entries e with next := none } : BuildEntry π) = { b.entries e with next := none }

theorem Grown.refl (b : Builder π) (d : Nat) (c : Option Nat) : Grown b b d c :=
  ⟨rfl, Nat.le_refl _, fun _ _ _ _ => rfl, rfl, fun _ => rfl, fun _ _ => rfl⟩

/-- What `add_entry` does to each entry. -/
theorem addEntry_entries {b : Builder π} {d e : Nat} (hde : e ≠ d) (hcd : b.curEntry ≠ some d) (hce : b.curEntry ≠ some e) (x : Nat) :
    (addEntry b d e).entries x =
      if x = d then { b.entries d with
        files := if (b.entries d).files.isNone then some e else (b.entries d).files
        count := (b.entries d).count + 1
        lastEntry := some e }
      else if x = e then { b.entries e with next := none }
      else if b.curEntry = some x then { b.entries x with next := some e }
      else b.entries x := by
  simp only [addEntry, Builder.set]
  cases hc : b.curEntry with
  | none =>
    by_cases hxd : x = d
    · subst hxd
      simp [hde.symm]
    · by_cases hxe : x = e
      · subst hxe
        simp [hde]
      · simp [hxd, hxe]
  | some c =>
    have hcd : c ≠ d := fun h => hcd (by rw [hc, h])
    have hce : c ≠ e := fun h => hce (by rw [hc, h])
    by_cases hxd : x = d
    · subst hxd
      simp [hde.symm, hcd.symm]
    · by_cases hxe : x = e
      · subst hxe
        simp [hde, hce.symm]
      · by_cases hxc : x = c
        · subst hxc
          simp [hxd, hxe]
        · simp [hxd, hxe, hxc, Ne.symm hxc]

theorem addEntry_same (b : Builder π) (d e : Nat) :
    (addEntry b d e).curDir = b.curDir ∧ (addEntry b d e).curEntry = b.curEntry ∧ (addEntry b d e).root = b.root ∧
      (addEntry b d e).fresh = b.fresh := by
  unfold addEntry
  cases hc : b.curEntry <;> simp [Builder.set, hc]

/-- The current directory gets a new entry. -/
def withNew (b : Builder π) (d : Nat) (f : BuildEntry π → BuildEntry π) : Builder π :=
  addEntry ({ b with fresh := b.fresh + 1 }.set b.fresh f) d b.fresh

/-- A new entry is linked behind the last one of its directory. -/
structure NewEntry (b b' : Builder π) (d : Nat) (c : Option Nat) (f : BuildEntry π → BuildEntry π) : Prop where
  grown : Grown b b' d c
  fresh : b'.fresh = b.fresh + 1
  new : b'.entries b.fresh = { f (b.entries b.fresh) with next := none }
  link : link b' d c = some b.fresh
  count : (b'.entries d).count = (b.entries d).count + 1
  last : (b'.entries d).lastEntry = some b.fresh
  files : (b'.entries d).files ≠ none

theorem withNew_spec {b : Builder π} {d : Nat} {c : Option Nat} (h : AtEnd b d c) (f : BuildEntry π → BuildEntry π) :
    NewEntry b (withNew b d f) d c f := by
  have hd : b.fresh ≠ d := Nat.ne_of_gt h.dir
  have hcd : b.curEntry ≠ some d := fun hc => (h.entry d (h.curEntry.symm.trans hc)).2.1 rfl
  have hce : b.curEntry ≠ some b.fresh := fun hc => Nat.lt_irrefl _ (h.entry _ (h.curEntry.symm.trans hc)).1
  have hent := addEntry_entries (b := { b with fresh := b.fresh + 1 }.set b.fresh f) hd hcd hce
  obtain ⟨-, -, hroot, hfresh⟩ := addEntry_same ({ b with fresh := b.fresh + 1 }.set b.fresh f) d b.fresh
  have hold : ∀ x, x ≠ b.fresh → ({ b with fresh := b.fresh + 1 }.set b.fresh f).entries x = b.entries x := fun x hx => by
    simp [Builder.set, hx]
  have hdir : (withNew b d f).entries d = { b.entries d with
      files := if (b.entries d).files.isNone then some b.fresh else (b.entries d).files
      count := (b.entries d).count + 1
      lastEntry := some b.fresh } := by
    rw [withNew, hent d, if_pos rfl, hold d hd.symm]
  have hnew : (withNew b d f).entries b.fresh = { f (b.entries b.fresh) with next := none } := by
    rw [withNew, hent b.fresh, if_neg hd, if_pos rfl]
    simp [Builder.set]
  have hentry : ∀ e, c = some e → (withNew b d f).entries e = { b.entries e with next := some b.fresh } := by
    rintro e rfl
    obtain ⟨hlt, hne, -⟩ := h.entry e rfl
    rw [withNew, hent e, if_neg hne, if_neg (Nat.ne_of_lt hlt), hold e (Nat.ne_of_lt hlt)]
    exact if_pos h.curEntry
  have hothers : ∀ x < b.fresh, x ≠ d → c ≠ some x → (withNew b d f).entries x = b.entries x := by
    intro x hx hxd hxc
    rw [withNew, hent x, if_neg hxd, if_neg (Nat.ne_of_lt hx), hold x (Nat.ne_of_lt hx)]
    exact if_neg fun hc => hxc (h.curEntry.symm.trans hc)
  have hlink := h.link
  refine ⟨⟨hroot, ?_, hothers, by rw [hdir], fun hc => ?_, fun e he => by rw [hentry e he]⟩, hfresh, hnew, ?_, by rw [hdir],
    by rw [hdir], ?_⟩
  · rw [withNew, hfresh]
    exact Nat.le_succ _
  · obtain ⟨e, he⟩ := Option.ne_none_iff_exists'.mp hc
    have hfiles := (h.entry e he).2.2
    rw [hdir]
    exact if_neg (by simpa using hfiles)
  · cases c with
    | none =>
      have hfiles : (b.entries d).files = none := hlink
      simp [link, hdir, hfiles]
    | some e => rw [link, hentry e rfl]
  · rw [hdir]
    cases hf : (b.entries d).files <;> simp

/-- Where the program stands in the tree does not matter for what is in its memory. -/
theorem NewEntry.cursor {b b' : Builder π} {d : Nat} {c : Option Nat} {f : BuildEntry π → BuildEntry π} (h : NewEntry b b' d c f)
    (x y : Option Nat) : NewEntry b { b' with curDir := x, curEntry := y } d c f :=
  ⟨⟨h.grown.root, h.grown.fresh, h.grown.others, h.grown.dir, h.grown.files, h.grown.entry⟩, h.fresh, h.new,
    (by cases c <;> exact h.link), h.count, h.last, h.files⟩

theorem atEnd_behind {b : Builder π} {d a : Nat} (hdir : b.curDir = some d) (hentry : b.curEntry = some a) (hda : d < a)
    (ha : a < b.fresh) (hnext : (b.entries a).next = none) (hfiles : (b.entries d).files ≠ none) : AtEnd b d (some a) := by
  refine ⟨hdir, hentry, Nat.lt_trans hda ha, hnext, fun e he => ?_⟩
  cases he
  exact ⟨ha, Nat.ne_of_gt hda, hfiles⟩

/-- Nothing is changed that was there before. -/
theorem Grown.of_same {b b₁ : Builder π} (b₂ : Builder π) {d : Nat} {c : Option Nat} (h : Grown b b₁ d c)
    (hroot : b₂.root = b₁.root) (hfresh : b₁.fresh ≤ b₂.fresh) (hsame : ∀ x < b.fresh, b₂.entries x = b₁.entries x)
    (hd : d < b.fresh) (hc : ∀ e, c = some e → e < b.fresh) : Grown b b₂ d c ∧ link b₂ d c = link b₁ d c := by
  refine ⟨⟨hroot.trans h.root, Nat.le_trans h.fresh hfresh, fun x hx hxd hxc => ?_, ?_, fun hne => ?_, fun e he => ?_⟩, ?_⟩
  · rw [hsame x hx, h.others x hx hxd hxc]
  · rw [hsame d hd, h.dir]
  · rw [hsame d hd, h.files hne]
  · rw [hsame e (hc e he), h.entry e he]
  · cases c with
    | none => rw [link, link, hsame d hd]
    | some e => rw [link, link, hsame e (hc e rfl)]

/-- Entries are appended behind a new one. -/
theorem Grown.step {b b₁ b' : Builder π} {d a : Nat} {c : Option Nat} (h : Grown b b₁ d c) (h' : Grown b₁ b' d (some a))
    (ha : b.fresh ≤ a) (hc : ∀ e, c = some e → e < b.fresh ∧ e ≠ d) :
    Grown b b' d c ∧ link b' d c = link b₁ d c := by
  have hold : ∀ x < b.fresh, x ≠ d → b'.entries x = b₁.entries x := by
    intro x hx hxd
    refine h'.others x (Nat.lt_of_lt_of_le hx h.fresh) hxd fun he => ?_
    cases he
    exact absurd hx (Nat.not_lt.mpr ha)
  refine ⟨⟨h'.root.trans h.root, Nat.le_trans h.fresh h'.fresh, fun x hx hxd hxc => ?_, h'.dir.trans h.dir, fun hne => ?_,
    fun e he => ?_⟩, ?_⟩
  · rw [hold x hx hxd, h.others x hx hxd hxc]
  · rw [h'.files (Option.some_ne_none a), h.files hne]
  · rw [hold e (hc e he).1 (hc e he).2, h.entry e he]
  · cases c with
    | none => exact h'.files (Option.some_ne_none a)
    | some e => rw [link, link, hold e (hc e rfl).1 (hc e rfl).2]

/-- `id_add_file` adds a new entry for the file. -/
theorem addFile_new {b : Builder π} {d : Nat} {c : Option Nat} (h : AtEnd b d c) (name : List UInt8) (path : π) :
    ∃ b', BuildCall.exec b (.addFile name path) = some b' ∧ b'.curDir = some d ∧ b'.curEntry = some b.fresh ∧
      NewEntry b b' d c fun e =>
        { e with name := name, path := some path, files := none, pdir := none, lastEntry := none } := by
  have hnew := (withNew_spec h fun e =>
    { e with name := name, path := some path, files := none, pdir := none, lastEntry := none }).cursor (some d) (some b.fresh)
  refine ⟨_, ?_, rfl, rfl, hnew⟩
  simp only [BuildCall.exec, idAddFile, withNew, Builder.set, h.curDir, Option.map_some, (addEntry_same _ _ _).1]

/-- `id_start_dir` adds a new entry for the directory, and goes there. -/
theorem startDir_new {b : Builder π} {d : Nat} {c : Option Nat} (h : AtEnd b d c) (name : List UInt8) :
    ∃ b', BuildCall.exec b (.startDir name) = some b' ∧ b'.curDir = some b.fresh ∧ b'.curEntry = none ∧
      NewEntry b b' d c fun e =>
        { e with name := name, path := none, files := none, pdir := some d, count := 0, next := none } := by
  have hnew := (withNew_spec h fun e =>
    { e with name := name, path := none, files := none, pdir := some d, count := 0, next := none }).cursor (some b.fresh) none
  refine ⟨_, ?_, rfl, rfl, hnew⟩
  simp only [BuildCall.exec, idStartDir, Builder.set, h.curDir, withNew]

theorem run_cons (b : Builder π) (call : BuildCall π) (calls : List (BuildCall π)) :
    b.run (call :: calls) = (call.exec b).bind fun b => b.run calls := rfl

theorem run_append (b : Builder π) (calls calls' : List (BuildCall π)) :
    b.run (calls ++ calls') = (b.run calls).bind fun b => b.run calls' := by
  simp [Builder.run, List.foldlM_append]

end MkinitrdAux

open MkinitrdAux

/-- The calls for a tree append it to the entries of the current directory. -/
theorem run_calls (t : PathTree π) {b : Builder π} {d : Nat} {c : Option Nat} (h : AtEnd b d c) :
    ∃ b' c', b.run t.calls = some b' ∧ AtEnd b' d c' ∧ Grown b b' d c ∧
      Built b'.entries b.fresh b'.fresh (link b' d c) t ∧ (b'.entries d).count = (b.entries d).count + t.length := by
  induction t generalizing b d c with
  | nil => exact ⟨b, c, rfl, h, .refl b d c, h.link, rfl⟩
  | file f rest ih =>
    obtain ⟨name, path⟩ := f
    obtain ⟨b₁, hcall, hdir, hentry, hnew⟩ := addFile_new h name path
    have hfresh := hnew.fresh
    obtain ⟨b', c', hrun, hend', hgrown, hbuilt, hcount⟩ := ih (atEnd_behind hdir hentry h.dir (by omega) (by rw [hnew.new]) hnew.files)
    obtain ⟨hg, hl⟩ := hnew.grown.step hgrown (Nat.le_refl _) fun e he => ⟨(h.entry e he).1, (h.entry e he).2.1⟩
    have hsame := hgrown.entry b.fresh rfl
    rw [hnew.new] at hsame
    refine ⟨b', c', ?_, hend', hg, ⟨b.fresh, hl.trans hnew.link, Nat.le_refl _, ?_, congrArg BuildEntry.name hsame,
      congrArg BuildEntry.path hsame, built_congr hbuilt (fun _ _ _ => rfl) hnew.grown.fresh (Nat.le_refl _)⟩, ?_⟩
    · rw [Entries.calls, run_cons, hcall, Option.bind_some, hrun]
    · have := hgrown.fresh
      omega
    · rw [hcount, hnew.count, Entries.length]
      omega
  | dir name inner rest ih₁ ih₂ =>
    obtain ⟨b₁, hcall, hdir, hentry, hnew⟩ := startDir_new h name
    have hfresh := hnew.fresh
    have hda : d ≠ b.fresh := Nat.ne_of_lt h.dir
    obtain ⟨b₂, c₂, hrun₁, hend₁, hgrown₁, hbuilt₁, hcount₁⟩ :=
      ih₁ (b := b₁) (d := b.fresh) (c := none) ⟨hdir, hentry, by omega, by rw [link, hnew.new], fun _ he => by cases he⟩
    have hinner := hgrown₁.dir
    rw [hnew.new] at hinner
    have hd : b₂.entries d = b₁.entries d := hgrown₁.others d (by have := h.dir; omega) hda (Option.some_ne_none d).symm
    have hend : BuildCall.exec b₂ .endDir = some { b₂ with curDir := some d, curEntry := some b.fresh } := by
      have hpdir : (b₂.entries b.fresh).pdir = some d := congrArg BuildEntry.pdir hinner
      simp only [BuildCall.exec, idEndDir, hend₁.curDir, Option.map_some, hpdir, hd, hnew.last]
    generalize hb₃ : ({ b₂ with curDir := some d, curEntry := some b.fresh } : Builder π) = b₃ at hend
    have hent : b₃.entries = b₂.entries := by rw [← hb₃]
    have hfr : b₃.fresh = b₂.fresh := by rw [← hb₃]
    have hle := hgrown₁.fresh
    obtain ⟨b', c', hrun, hend', hgrown, hbuilt, hcount⟩ := ih₂ (b := b₃) (d := d) (c := some b.fresh)
      (atEnd_behind (by rw [← hb₃]) (by rw [← hb₃]) h.dir (by omega)
        (by rw [hent]; exact congrArg BuildEntry.next hinner) (by rw [hent, hd]; exact hnew.files))
    have hsame := hgrown.entry b.fresh rfl
    rw [hent] at hsame
    have hold : ∀ x < b.fresh, b₃.entries x = b₁.entries x := fun x hx => by
      rw [hent]
      exact hgrown₁.others x (by omega) (Nat.ne_of_lt hx) (Option.some_ne_none x).symm
    obtain ⟨hg₁, hl₁⟩ := Grown.of_same b₃ hnew.grown (by rw [← hb₃]; exact hgrown₁.root) (by omega) hold h.dir
      fun e he => (h.entry e he).1
    obtain ⟨hg, hl⟩ := hg₁.step hgrown (Nat.le_refl _) fun e he => ⟨(h.entry e he).1, (h.entry e he).2.1⟩
    have hle' := hgrown.fresh
    refine ⟨b', c', ?_, hend', hg, ⟨b.fresh, hl.trans (hl₁.trans hnew.link), Nat.le_refl _, by omega,
      (congrArg BuildEntry.name hsame).trans (congrArg BuildEntry.name hinner),
      (congrArg BuildEntry.path hsame).trans (congrArg BuildEntry.path hinner), ?_, ?_, ?_⟩, ?_⟩
    · rw [Entries.calls, run_cons, hcall, Option.bind_some, run_append, hrun₁, Option.bind_some, run_cons, hend,
        Option.bind_some, hrun]
    · have hcount₂ : (b'.entries b.fresh).count = (b₂.entries b.fresh).count := by simpa using congrArg BuildEntry.count hsame
      rw [hcount₂, hcount₁, hnew.new, Nat.zero_add]
    · have hfiles : (b'.entries b.fresh).files = (b₂.entries b.fresh).files := by simpa using congrArg BuildEntry.files hsame
      rw [hfiles]
      refine built_congr hbuilt₁ (fun x hx hx' => ?_) (by omega) (by omega)
      have hd' := h.dir
      rw [hgrown.others x (by omega) (by omega) (by simp; omega), hent]
    · exact built_congr hbuilt (fun _ _ _ => rfl) (by omega) (Nat.le_refl _)
    · rw [hcount, hold d h.dir, hnew.count, Entries.length]
      omega

/-- The calls for a whole tree, in its root directory. -/
def treeCalls (name : List UInt8) (t : PathTree π) : List (BuildCall π) := .startDir name :: (t.calls ++ [.endDir])

/-- They build the tree. -/
theorem run_treeCalls (memory : Nat → BuildEntry π) (name : List UInt8) (t : PathTree π) :
    ∃ b r, (idInit memory).run (treeCalls name t) = some b ∧ b.root = some r ∧ (b.entries r).name = name ∧
      (b.entries r).count = t.length ∧ (b.entries r).next = none ∧ ∃ lo hi, Built b.entries lo hi (b.entries r).files t := by
  generalize hb₁ : idStartDir (idInit memory) name = b₁
  have hent : b₁.entries 0 = { memory 0 with
      name := name, path := none, files := none, pdir := none, count := 0, next := none } := by
    rw [← hb₁]
    simp [idStartDir, idInit, Builder.set]
  have hend : AtEnd b₁ 0 none := by
    refine ⟨?_, ?_, ?_, by rw [link, hent], nofun⟩ <;> rw [← hb₁] <;> simp [idStartDir, idInit, Builder.set]
  obtain ⟨b, c, hrun, hend', hgrown, hbuilt, hcount⟩ := run_calls t hend
  have hdir := hgrown.dir
  rw [hent] at hdir
  have hpdir : (b.entries 0).pdir = none := congrArg BuildEntry.pdir hdir
  refine ⟨{ b with curDir := none }, 0, ?_, ?_, congrArg BuildEntry.name hdir, ?_, congrArg BuildEntry.next hdir, _, _, hbuilt⟩
  · rw [treeCalls, run_cons, BuildCall.exec, hb₁, Option.bind_some, run_append, hrun, Option.bind_some, run_cons, BuildCall.exec,
      idEndDir, hend'.curDir, Option.map_some, hpdir, Option.bind_some]
    rfl
  · exact hgrown.root.trans (by rw [← hb₁]; rfl)
  · exact hcount.trans (by rw [hent, Nat.zero_add])

/-! ## Calls that describe a tree -/

/-- The calls close `n` open directories, and nothing follows. -/
def closes : Nat → List (BuildCall π) → Bool
  | 0, calls => calls.isEmpty
  | _ + 1, [] => false
  | n + 1, .startDir _ :: calls => closes (n + 2) calls
  | n + 1, .addFile _ _ :: calls => closes (n + 1) calls
  | n + 1, .endDir :: calls => closes n calls

/-- The calls are well bracketed: the first one starts the root directory, and the last one ends it. -/
def wellBracketed : List (BuildCall π) → Bool
  | .startDir _ :: calls => closes 1 calls
  | _ => false

/-- Up to the end of the innermost open directory, the calls are those for a tree. -/
theorem closes_split (n : Nat) (calls : List (BuildCall π)) (h : closes (n + 1) calls = true) :
    ∃ (t : PathTree π) (rest : List (BuildCall π)), calls = t.calls ++ .endDir :: rest ∧ closes n rest = true := by
  induction hk : calls.length using Nat.strongRecOn generalizing n calls with
  | ind k ih =>
    subst hk
    match calls, h with
    | .endDir :: calls, h => exact ⟨.nil, calls, rfl, h⟩
    | .addFile name path :: calls, h =>
      obtain ⟨t, rest, rfl, hrest⟩ := ih calls.length (Nat.lt_succ_self _) n calls h rfl
      exact ⟨.file (name, path) t, rest, rfl, hrest⟩
    | .startDir name :: calls, h =>
      obtain ⟨inner, calls', rfl, hcalls⟩ := ih calls.length (Nat.lt_succ_self _) (n + 1) calls h rfl
      obtain ⟨t, rest, rfl, hrest⟩ := ih calls'.length (by simp; omega) n calls' hcalls rfl
      exact ⟨.dir name inner t, rest, by simp [Entries.calls], hrest⟩

theorem exists_treeCalls {calls : List (BuildCall π)} (h : wellBracketed calls = true) :
    ∃ (name : List UInt8) (t : PathTree π), calls = treeCalls name t := by
  match calls, h with
  | .startDir name :: calls, h =>
    obtain ⟨t, rest, rfl, hrest⟩ := closes_split 0 calls h
    have hnil : rest = [] := by simpa [closes] using hrest
    exact ⟨name, t, by rw [treeCalls, hnil]⟩

/-- The rounds that a tree takes, by its calls. -/
theorem rounds_le (t : PathTree π) : t.rounds ≤ 2 * t.calls.length + 1 := by
  induction t with
  | nil => simp [Entries.rounds]
  | file f rest ih =>
    simp only [Entries.rounds, Entries.calls, List.length_cons]
    omega
  | dir name inner rest ih₁ ih₂ =>
    simp only [Entries.rounds, Entries.calls, List.length_cons, List.length_append]
    omega

end Kos
