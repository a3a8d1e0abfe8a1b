import Mathlib.Algebra.BigOperators.Group.List.Basic
import Kos.Lemmas.Cmdline

/-!
# Joining and splitting a command line

The shell joins the arguments as they are, while the program takes white space, quotes, backslashes and `ESC` in them for its own. What
`__split` leaves out of the line is gone for good, so the arguments come back only where it left out nothing but the blanks between
them: counted with one separator each, its arguments are never longer than the line (`Accounts`), and shorter once it met one of those
characters. In a line without them it cuts at white space (`words`), and fails only where its array is full at the last argument.
-/

namespace Kos

open CChar

/-- A character that `__split` does not copy, or copies only behind one that it does not copy. -/
def Special (c : CChar) : Prop := c ∈ [dquot, quot, backslash, esc]

instance : DecidablePred Special := fun c => inferInstanceAs (Decidable (c ∈ [dquot, quot, backslash, esc]))

/-- An argument that is nothing but itself in a command line. -/
def PlainArg (arg : CString) : Prop := ∀ c ∈ arg, isspace c = false ∧ ¬ Special c

instance (arg : CString) : Decidable (PlainArg arg) := inferInstanceAs (Decidable (∀ c ∈ arg, isspace c = false ∧ ¬ Special c))

namespace CmdlineAux

/-! ## Counting the characters left out -/

/-- The characters of the arguments, and a separator or an end for each. -/
def total (args : List CString) : Nat := (args.map (·.length + 1)).sum

theorem total_append_singleton (args : List CString) (arg : CString) : total (args ++ [arg]) = total args + (arg.length + 1) := by
  simp [total]

theorem total_buildCmd {argv : List CString} (h : argv ≠ []) : total argv = (buildCmd argv).length + 1 := by
  induction argv with
  | nil => exact absurd rfl h
  | cons arg args ih =>
    rcases eq_or_ne args [] with rfl | hargs
    · simp [total, buildCmd]
    · have hrest := ih hargs
      simp only [total, buildCmd, List.map_cons, List.sum_cons, List.length_append, if_pos hargs, List.length_singleton] at hrest ⊢
      omega

/-- A character of the line is missing in the arguments so far, or will be missing in the next. -/
def Lossy (s : Split) (i : Nat) : Prop :=
  total s.argv < s.start ∨ s.omitq ≠ 0 ∨ ∃ j, s.start ≤ j ∧ j < i ∧ s.input[j]? = some esc

/-- What the first `i` characters of the line leave behind. -/
structure Accounts (cmdline : CString) (s : Split) (i : Nat) : Prop where
  rest : ∀ j, i ≤ j → s.input[j]? = cmdline[j]?
  total_le : total s.argv ≤ s.start
  quots : s.start + s.omitq ≤ i
  outside : s.omitq = 0 → s.inquot = false ∧ s.indquot = false
  inside : s.omitq = 1 → s.inquot = true ∨ s.indquot = true
  escaped : s.escaped = true → Lossy s i
  special : ∀ j < i, ∀ c, cmdline[j]? = some c → Special c → Lossy s i

theorem accounts_new (cmdline : CString) : Accounts cmdline (.new cmdline) 0 where
  rest := fun _ _ => rfl
  total_le := Nat.le_refl _
  quots := Nat.le_refl _
  outside := fun _ => ⟨rfl, rfl⟩
  inside := by intro h; cases h
  escaped := by intro h; cases h
  special := by intro j hj; omega

theorem esc_mem_of_getElem {input : CString} {start n j : Nat} (hstart : start ≤ j) (hj : j < start + n)
    (h : input[j]? = some esc) : esc ∈ (input.drop start).take n := by
  refine List.mem_of_getElem? (i := j - start) ?_
  rw [List.getElem?_take_of_lt (by omega), List.getElem?_drop, show start + (j - start) = j by omega, h]

theorem length_extract_le (input : CString) {start stop : Nat} (h : start ≤ stop) :
    (extract input start ((stop : Int) - start)).length ≤ stop - start := by
  rw [extract, show (stop : Int) - start = ((stop - start : Nat) : Int) by omega]
  exact length_esccpy_le _ _

theorem length_extract_lt {input : CString} {start stop j : Nat} (hj : start ≤ j) (hj' : j < stop)
    (h : input[j]? = some esc) : (extract input start ((stop : Int) - start)).length < stop - start := by
  rw [extract, show (stop : Int) - start = ((stop - start : Nat) : Int) by omega]
  exact length_esccpy_lt (esc_mem_of_getElem hj (by omega) h)

section

variable {cmdline : CString} {s s' : Split} {i : Nat}

/-- An argument cut off at `i` accounts for the characters up to `i` and a separator, or for fewer. -/
theorem Accounts.cut (h : Accounts cmdline s i) (start stop : Nat) (hle : start ≤ stop) (hstop : stop ≤ i)
    (hquot : s.omitq ≠ 0 → s.start < start) (hnone : s.omitq = 0 → start = s.start ∧ stop = i) :
    total (s.argv ++ [extract s.input start ((stop : Int) - start)]) ≤ i + 1 ∧
      (Lossy s i → total (s.argv ++ [extract s.input start ((stop : Int) - start)]) < i + 1) := by
  have htotal := h.total_le
  have hlen := length_extract_le s.input hle
  rw [total_append_singleton]
  rcases eq_or_ne s.omitq 0 with homitq | homitq
  · obtain ⟨rfl, rfl⟩ := hnone homitq
    refine ⟨by omega, ?_⟩
    rintro (hlt | hne | ⟨j, hj, hj', hesc⟩)
    · omega
    · exact absurd homitq hne
    · have := length_extract_lt hj hj' hesc
      omega
  · have := hquot homitq
    exact ⟨by omega, fun _ => by omega⟩

/-- Where `s` lost a character, so did a state that keeps its arguments and marks, and no fewer quotes. -/
theorem Lossy.mono (h : Lossy s i) (hargv : s'.argv = s.argv) (hstart : s'.start = s.start) (homitq : s.omitq ≤ s'.omitq)
    (hesc : ∀ j < i, s.input[j]? = some esc → s'.input[j]? = some esc) : Lossy s' (i + 1) := by
  rcases h with hlt | hne | ⟨j, hj, hj', hj''⟩
  · exact .inl (by rwa [hargv, hstart])
  · exact .inr (.inl (by omega))
  · exact .inr (.inr ⟨j, by omega, by omega, hesc j hj' hj''⟩)

theorem forall_lt_succ_of_cons {p : Nat → Prop} (h : ∀ j < i, p j) (hi : p i) : ∀ j < i + 1, p j := by
  intro j hj
  rcases Nat.lt_succ_iff_lt_or_eq.mp hj with hj | rfl
  · exact h j hj
  · exact hi

theorem not_special_of_isspace {c : CChar} (h : isspace c = true) : ¬ Special c := by
  intro hc
  simp only [Special, List.mem_cons, List.not_mem_nil, or_false] at hc
  rcases hc with rfl | rfl | rfl | rfl <;> cases h

theorem Accounts.space (h : Accounts cmdline s i) (hspace : ∀ c, cmdline[i]? = some c → isspace c = true)
    (hin : s.inquot = false) (hind : s.indquot = false) (hs : s.space i = some s') : Accounts cmdline s' (i + 1) := by
  have hquots := h.quots
  have hone : s.omitq ≠ 1 := fun h1 => by simpa [hin, hind] using h.inside h1
  have hcut := h.cut (if s.omitq ≠ 0 then s.start + 1 else s.start) (if s.omitq ≠ 0 then i - 1 else i)
    (by split <;> omega) (by split <;> omega) (fun h0 => by rw [if_pos h0]; omega) (fun h0 => by simp [h0])
  have hstop : (((if s.omitq ≠ 0 then i - 1 else i : Nat)) : Int) = if s.omitq ≠ 0 then (i : Int) - 1 else i := by
    split
    · omega
    · rfl
  rw [hstop] at hcut
  obtain ⟨-, rfl⟩ := store_eq_some hs
  refine ⟨fun j hj => h.rest j (by omega), hcut.1, Nat.le_refl _, fun _ => ⟨hin, hind⟩, (by intro h1; cases h1),
    fun hesc => .inl (hcut.2 (h.escaped hesc)),
    forall_lt_succ_of_cons (fun j hj c hc hc' => .inl (hcut.2 (h.special j hj c hc hc'))) ?_⟩
  intro c hc hspec
  exact absurd hspec (not_special_of_isspace (hspace c hc))

/-- Every other character of the line stays where it is, or is marked. -/
theorem Accounts.stay (h : Accounts cmdline s i) (hargv : s'.argv = s.argv) (hstart : s'.start = s.start)
    (hinput : ∀ j, j ≠ i → s'.input[j]? = s.input[j]?)
    (hquot : s'.omitq = s.omitq ∧ s'.inquot = s.inquot ∧ s'.indquot = s.indquot ∨
      s'.omitq = s.omitq + 1 ∧ (s.omitq = 0 → s'.inquot = true ∨ s'.indquot = true))
    (hescaped : s'.escaped = true → s.escaped = true ∨ s'.input[i]? = some esc)
    (hspec : ∀ c, cmdline[i]? = some c → Special c → s.escaped = true ∨ s'.omitq ≠ 0 ∨ s'.input[i]? = some esc) :
    Accounts cmdline s' (i + 1) := by
  have hquots := h.quots
  have hmono (hl : Lossy s i) : Lossy s' (i + 1) :=
    hl.mono hargv hstart (by omega) fun j hj hesc => by rwa [hinput j (by omega)]
  have hmark (hesc : s'.input[i]? = some esc) : Lossy s' (i + 1) := .inr (.inr ⟨i, by omega, by omega, hesc⟩)
  refine ⟨fun j hj => ?_, by rw [hargv, hstart]; exact h.total_le, by omega, ?_, ?_, ?_,
    forall_lt_succ_of_cons (fun j hj c hc hc' => hmono (h.special j hj c hc hc')) ?_⟩
  · rw [hinput j (by omega), h.rest j (by omega)]
  · intro h0
    rcases hquot with ⟨homitq, hin, hind⟩ | ⟨homitq, -⟩
    · rw [hin, hind]
      exact h.outside (homitq ▸ h0)
    · omega
  · intro h1
    rcases hquot with ⟨homitq, hin, hind⟩ | ⟨homitq, hone⟩
    · rw [hin, hind]
      exact h.inside (homitq ▸ h1)
    · exact hone (by omega)
  · intro hesc
    rcases hescaped hesc with hesc | hesc
    · exact hmono (h.escaped hesc)
    · exact hmark hesc
  · intro c hc hc'
    rcases hspec c hc hc' with hesc | homitq | hesc
    · exact hmono (h.escaped hesc)
    · exact .inr (.inl homitq)
    · exact hmark hesc

theorem Accounts.char (h : Accounts cmdline s i) (hs : s.char i = some s') : Accounts cmdline s' (i + 1) := by
  obtain ⟨cur, hcur, hs⟩ := Option.bind_eq_some_iff.mp hs
  have hline : cmdline[i]? = some cur := (h.rest i (Nat.le_refl _)).symm.trans hcur
  have hi : i < s.input.length := (List.getElem?_eq_some_iff.mp hcur).1
  have hof (c : CChar) (hc : cmdline[i]? = some c) : c = cur := Option.some.inj (hc.symm.trans hline)
  split at hs
  next hspace =>
    obtain ⟨hspace, hout⟩ := hspace
    rw [not_or, Bool.not_eq_true, Bool.not_eq_true] at hout
    exact h.space (fun c hc => hof c hc ▸ hspace) hout.1 hout.2 hs
  next =>
  split at hs
  next =>
    cases hs
    refine h.stay rfl rfl (fun _ _ => rfl) (.inr ⟨rfl, fun h0 => .inr ?_⟩) .inl fun _ _ _ => .inr (.inl (Nat.succ_ne_zero _))
    simp [(h.outside h0).2]
  next hdquot =>
  split at hs
  next =>
    cases hs
    refine h.stay rfl rfl (fun _ _ => rfl) (.inr ⟨rfl, fun h0 => .inl ?_⟩) .inl fun _ _ _ => .inr (.inl (Nat.succ_ne_zero _))
    simp [(h.outside h0).1]
  next hquot =>
  split at hs
  next =>
    cases hs
    cases hesc : s.escaped with
    | false =>
      have hmark : (s.input.set i esc)[i]? = some esc := by rw [List.getElem?_set_self hi]
      refine h.stay rfl rfl (fun j hj => ?_) (.inl ⟨rfl, rfl, rfl⟩) (fun _ => .inr ?_) fun _ _ _ => .inr (.inr ?_)
      · simp [List.getElem?_set_ne (Ne.symm hj)]
      · simpa using hmark
      · simpa using hmark
    | true => exact h.stay rfl rfl (by simp) (.inl ⟨rfl, rfl, rfl⟩) (by simp) fun _ _ _ => .inl hesc
  next hback =>
    cases hs
    refine h.stay rfl rfl (fun _ _ => rfl) (.inl ⟨rfl, rfl, rfl⟩) (by simp) fun c hc hspec => ?_
    obtain rfl := hof c hc
    simp only [Special, List.mem_cons, List.not_mem_nil, or_false] at hspec
    rcases hspec with rfl | rfl | rfl | rfl
    · exact .inl (by simpa using hdquot)
    · exact .inl (by simpa using hquot)
    · exact absurd rfl hback
    · exact .inr (.inr hcur)

theorem accounts_of_foldlM {n : Nat} (h : (List.range n).foldlM Split.char (.new cmdline) = some s) : Accounts cmdline s n := by
  induction n generalizing s with
  | zero =>
    cases h
    exact accounts_new cmdline
  | succ n ih =>
    rw [List.range_succ, List.foldlM_append] at h
    obtain ⟨t, ht, hchar⟩ := Option.bind_eq_some_iff.mp h
    rw [List.foldlM_cons] at hchar
    obtain ⟨u, hu, hpure⟩ := Option.bind_eq_some_iff.mp hchar
    cases hpure
    exact (ih ht).char hu

/-- The arguments of a line with a special character are shorter than the line. -/
theorem total_split {argv : List CString} (h : split cmdline = some argv) {c : CChar} (hc : c ∈ cmdline) (hspec : Special c) :
    total argv < cmdline.length + 1 := by
  obtain ⟨s', hs', rfl⟩ := Option.map_eq_some_iff.mp h
  obtain ⟨s, hs, hfin⟩ := Option.bind_eq_some_iff.mp hs'
  have hacc := accounts_of_foldlM hs
  have hquots := hacc.quots
  have hcut := hacc.cut (if s.omitq ≠ 0 then s.start + 1 else s.start)
    (if s.omitq > 1 then cmdline.length - 1 else cmdline.length)
    (by split <;> split <;> omega) (by split <;> omega) (fun h0 => by rw [if_pos h0]; omega) (fun h0 => by simp [h0])
  have hstop : (((if s.omitq > 1 then cmdline.length - 1 else cmdline.length : Nat)) : Int) =
      if s.omitq > 1 then (cmdline.length : Int) - 1 else cmdline.length := by
    split
    · omega
    · rfl
  rw [hstop] at hcut
  obtain ⟨-, rfl⟩ := store_eq_some hfin
  obtain ⟨j, hj⟩ := List.mem_iff_getElem?.mp hc
  exact hcut.2 (hacc.special j (List.getElem?_eq_some_iff.mp hj).1 c hj hspec)

end

/-! ## Lines without special characters -/

/-- The line cut at white space, `cur` being what came before it. -/
def words (cur : CString) : CString → List CString
  | [] => [cur]
  | c :: cmdline => if isspace c then cur :: words [] cmdline else words (cur ++ [c]) cmdline

theorem length_words (cur cmdline : CString) : (words cur cmdline).length = cmdline.countP (isspace ·) + 1 := by
  induction cmdline generalizing cur with
  | nil => rfl
  | cons c cmdline ih =>
    rw [words, List.countP_cons]
    split
    · rw [List.length_cons, ih]
    · exact ih _

theorem words_append {arg : CString} (h : ∀ c ∈ arg, isspace c = false) (cur cmdline : CString) :
    words cur (arg ++ cmdline) = words (cur ++ arg) cmdline := by
  induction arg generalizing cur with
  | nil => rw [List.nil_append, List.append_nil]
  | cons c arg ih =>
    rw [List.forall_mem_cons] at h
    rw [List.cons_append, words, if_neg (by simp [h.1]), ih h.2, List.append_assoc, List.singleton_append]

theorem words_buildCmd {argv : List CString} (hne : argv ≠ []) (h : ∀ arg ∈ argv, ∀ c ∈ arg, isspace c = false) :
    words [] (buildCmd argv) = argv := by
  induction argv with
  | nil => exact absurd rfl hne
  | cons arg args ih =>
    rw [List.forall_mem_cons] at h
    rw [buildCmd, List.append_assoc, words_append h.1, List.nil_append]
    rcases eq_or_ne args [] with rfl | hargs
    · rfl
    · rw [if_pos hargs, List.singleton_append, words, if_pos (by decide), ih hargs h.2]

theorem countP_buildCmd (argv : List CString) :
    (buildCmd argv).countP (isspace ·) = (argv.map (·.countP (isspace ·))).sum + (argv.length - 1) := by
  induction argv with
  | nil => rfl
  | cons arg args ih =>
    rw [buildCmd, List.countP_append, List.countP_append, ih]
    rcases eq_or_ne args [] with rfl | hargs
    · simp
    · have : 0 < args.length := List.length_pos_iff.mpr hargs
      rw [if_pos hargs, List.map_cons, List.sum_cons, List.length_cons, show List.countP (isspace ·) [space] = 1 from rfl]
      omega

/-- The variables of the loop at `i` in a line without special characters. -/
structure Cuts (cmdline : CString) (s : Split) (i : Nat) : Prop where
  start_le : s.start ≤ i
  vars : s = ⟨cmdline, s.start, false, false, false, 0, s.argv, s.max⟩
  room : Room s.argv.length s.max
  words : s.argv ++ words ((cmdline.drop s.start).take (i - s.start)) (cmdline.drop i) = CmdlineAux.words [] cmdline

section

variable {cmdline : CString} {s : Split} {i : Nat}

theorem extract_eq_take (hline : ∀ c ∈ cmdline, ¬ Special c) {start stop : Nat} (h : start ≤ stop) :
    extract cmdline start ((stop : Int) - start) = (cmdline.drop start).take (stop - start) := by
  rw [extract, show (stop : Int) - start = ((stop - start : Nat) : Int) by omega]
  refine esccpy_eq_take fun hesc => hline esc ?_ (by decide)
  exact List.mem_of_mem_drop (List.mem_of_mem_take hesc)

theorem Cuts.char (hline : ∀ c ∈ cmdline, ¬ Special c) (h : Cuts cmdline s i) (hi : i < cmdline.length) :
    ∃ s', s.char i = some s' ∧ Cuts cmdline s' (i + 1) := by
  obtain ⟨hstart, hvars, hroom, hwords⟩ := h
  have hcur : s.input[i]? = some cmdline[i] := by rw [hvars]; exact List.getElem?_eq_getElem hi
  have hspec := hline _ (List.getElem_mem hi)
  have htake : (cmdline.drop s.start).take (i + 1 - s.start) = (cmdline.drop s.start).take (i - s.start) ++ [cmdline[i]] := by
    rw [show i + 1 - s.start = i - s.start + 1 by omega, List.take_add_one, List.getElem?_drop, show s.start + (i - s.start) = i by omega,
      List.getElem?_eq_getElem hi]
    rfl
  rw [List.drop_eq_getElem_cons hi, CmdlineAux.words] at hwords
  rw [Split.char, hcur, Option.bind_some]
  have hin : s.inquot = false := by rw [hvars]
  have hind : s.indquot = false := by rw [hvars]
  rcases hspace : isspace cmdline[i] with _ | _
  · have hmem : ¬ cmdline[i] = dquot ∧ ¬ cmdline[i] = quot ∧ ¬ cmdline[i] = backslash := by
      simp only [Special, List.mem_cons, not_or] at hspec
      exact ⟨hspec.1, hspec.2.1, hspec.2.2.1⟩
    rw [hspace, if_neg (by decide)] at hwords
    rw [if_neg (by simp), if_neg fun hc => hmem.1 hc.1, if_neg fun hc => hmem.2.1 hc.1, if_neg hmem.2.2]
    refine ⟨_, rfl, by simp only; omega, ?_, hroom, ?_⟩
    · simp only
      rw [hvars]
    · simp only
      rw [htake, hwords]
  · have homitq : ¬ s.omitq ≠ 0 := by rw [hvars]; simp
    have hinput : s.input = cmdline := by rw [hvars]
    rw [hspace, if_pos rfl] at hwords
    rw [if_pos ⟨rfl, by simp [hin, hind]⟩, Split.space]
    simp only [if_neg homitq, hinput, extract_eq_take hline hstart]
    rw [Split.store, if_pos hroom.grow.1]
    refine ⟨_, rfl, Nat.le_refl _, ?_, ?_, ?_⟩
    · simp only
      rw [hvars]
    · simp only [List.length_append, List.length_singleton]
      exact hroom.grow.2
    · simp only [Nat.sub_self, List.take_zero, List.append_assoc, List.singleton_append]
      exact hwords

theorem cuts_foldlM (hline : ∀ c ∈ cmdline, ¬ Special c) {n : Nat} (hn : n ≤ cmdline.length) :
    ∃ s, (List.range n).foldlM Split.char (.new cmdline) = some s ∧ Cuts cmdline s n := by
  induction n with
  | zero => exact ⟨_, rfl, Nat.le_refl _, rfl, ⟨0, rfl, Nat.zero_le _, .inl rfl⟩, rfl⟩
  | succ n ih =>
    obtain ⟨s, hs, hcuts⟩ := ih (by omega)
    obtain ⟨s', hs', hcuts'⟩ := hcuts.char hline (by omega)
    refine ⟨s', ?_, hcuts'⟩
    rw [List.range_succ, List.foldlM_append, hs]
    simp [hs']

/-- `__split` cuts a line without special characters at white space, unless the array is full at the end. -/
theorem split_of_plain (hline : ∀ c ∈ cmdline, ¬ Special c) (argv : List CString) :
    split cmdline = some argv ↔ words [] cmdline = argv ∧ ¬ FillsArray argv.length := by
  obtain ⟨s, hs, hstart, hvars, hroom, hwords⟩ := cuts_foldlM hline (Nat.le_refl cmdline.length)
  have homitq : s.omitq = 0 := by rw [hvars]
  have hinput : s.input = cmdline := by rw [hvars]
  have hlast : extract cmdline s.start ((cmdline.length : Int) - s.start) = (cmdline.drop s.start).take (cmdline.length - s.start) :=
    extract_eq_take hline hstart
  rw [List.drop_length, words] at hwords
  have hlen : (words [] cmdline).length = s.argv.length + 1 := by rw [← hwords, List.length_append, List.length_singleton]
  have hfull := hroom.eq_iff
  obtain ⟨k, -, hle, -⟩ := hroom
  rw [split, hs, Option.bind_some, Split.finish]
  simp only [homitq, hinput, Nat.not_lt_zero, gt_iff_lt, ne_eq, not_true_eq_false, if_false, hlast]
  constructor
  · intro h
    obtain ⟨s', hs', rfl⟩ := Option.map_eq_some_iff.mp h
    obtain ⟨hlt, rfl⟩ := store_eq_some hs'
    refine ⟨hwords.symm, fun hfills => ?_⟩
    simp only [List.length_append, List.length_singleton] at hfills hlt
    have := hfull.mpr hfills
    rw [if_pos (by omega)] at hlt
    omega
  · rintro ⟨rfl, hfills⟩
    have hne : s.argv.length ≠ s.max := fun h => hfills (hlen ▸ hfull.mp h)
    rw [if_neg (by omega), Split.store, if_pos (by simp only; omega), ← hwords]
    rfl

end

theorem mem_buildCmd_iff {argv : List CString} {c : CChar} (hc : c ≠ space) : c ∈ buildCmd argv ↔ ∃ arg ∈ argv, c ∈ arg := by
  induction argv with
  | nil => simp [buildCmd]
  | cons arg args ih =>
    rw [buildCmd, List.mem_append, List.mem_append, ih]
    simp [hc]

/-- The blanks between the arguments are the only white space where there is one character of it for each. -/
theorem isspace_false_of_countP {argv : List CString} (h : (buildCmd argv).countP (isspace ·) = argv.length - 1) :
    ∀ arg ∈ argv, ∀ c ∈ arg, isspace c = false := by
  intro arg harg c hc
  rw [countP_buildCmd] at h
  have hzero : (argv.map (·.countP (isspace ·))).sum = 0 := by omega
  rw [List.sum_eq_zero_iff_forall_eq_nat] at hzero
  have := hzero _ (List.mem_map_of_mem harg)
  simpa using List.countP_eq_zero.mp this c hc

end CmdlineAux

open CmdlineAux

/-- A program gets the arguments that the shell passes exactly if they are all plain and do not fill the array that `__split` stores
them in. -/
theorem split_buildCmd_iff (argv : List CString) (hne : argv ≠ []) :
    split (buildCmd argv) = some argv ↔ (∀ arg ∈ argv, PlainArg arg) ∧ ¬ FillsArray argv.length := by
  have hspace {c : CChar} (hc : Special c) : c ≠ space := by
    rintro rfl
    revert hc
    decide
  constructor
  · intro h
    -- A special character would be missing in the arguments.
    have hline : ∀ c ∈ buildCmd argv, ¬ Special c := by
      intro c hc hspec
      have := total_split h hc hspec
      rw [total_buildCmd hne] at this
      omega
    obtain ⟨hwords, hfills⟩ := (split_of_plain hline argv).mp h
    have hlen := congrArg List.length hwords
    rw [length_words] at hlen
    refine ⟨fun arg harg c hc => ⟨isspace_false_of_countP (by omega) arg harg c hc, fun hspec => ?_⟩, hfills⟩
    exact hline c ((mem_buildCmd_iff (hspace hspec)).mpr ⟨arg, harg, hc⟩) hspec
  · rintro ⟨hplain, hfills⟩
    have hline : ∀ c ∈ buildCmd argv, ¬ Special c := by
      intro c hc hspec
      obtain ⟨arg, harg, hc⟩ := (mem_buildCmd_iff (hspace hspec)).mp hc
      exact (hplain arg harg c hc).2 hspec
    exact (split_of_plain hline argv).mpr ⟨words_buildCmd hne fun arg harg c hc => (hplain arg harg c hc).1, hfills⟩

/-- `a b`, as a user may quote it. -/
def aSpaceB : CString := [a, space, b]

theorem split_abLine : split (buildCmd [[a, b], [slash]]) =
    some [[a, b], [slash]] := by
  refine (split_buildCmd_iff _ (by decide)).mpr ⟨by decide, ?_⟩
  rintro ⟨k, hk⟩
  have := Nat.two_pow_pos k
  simp only [List.length_cons, List.length_nil] at hk
  omega

/-- The program gets two arguments for the one that the shell passes. -/
theorem split_aSpaceB : split (buildCmd [aSpaceB]) = some [[a], [b]] ∧
    split (buildCmd [aSpaceB]) ≠ some [aSpaceB] := by
  decide

end Kos
