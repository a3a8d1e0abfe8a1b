import Mathlib.Algebra.BigOperators.Group.List.Basic
import Mathlib.Algebra.Ring.Nat
import Kos.Lemmas.Shell

/-!
# The words of a line and the parts that the shell cuts

`words` is the grammar that the tests of `split_cmd` sample. `Simple` describes the lines in which the parts that `split_cmd` cuts are the
words of the grammar. Both go through the line together: `Reads` is a run of the grammar to the end of a word, and the lemmas compare
what it collects with what `split_cmd` copies. The last character of a part with a quote is left out, so behind such a quote `split_cmd`
copies with a delay, and can only keep up as long as the characters repeat the quote (`late`).
-/

namespace Kos

open CChar

namespace Shell

def isquote (c : CChar) : Bool := c = dquot || c = quot

/-- The words of the grammar from a place in a line on. There the quote `q` is open, `escaped` if a backslash stands right before, and
`word` is what was read of a word that has begun. `none` if a quote is left open. -/
def lex (q : Option CChar) (escaped : Bool) (word : Option CString) : CString → Option (List CString)
  | [] => if q = none then some word.toList else none
  | c :: line =>
    if escaped then lex q false (some (word.getD [] ++ [c])) line
    else if c = backslash then lex q true word line
    else
      match q with
      | some k => if c = k then lex none false word line else lex q false (some (word.getD [] ++ [c])) line
      | none =>
        if isquote c then lex (some c) false (some (word.getD [])) line
        else if isspace c then (lex none false none line).map (word.toList ++ ·)
        else lex none false (some (word.getD [] ++ [c])) line

/-- The words of a line with balanced quotes. -/
def words (line : CString) : Option (List CString) := lex none false none line

/-- A place in a line. -/
inductive Spot where
  /-- Where a word begins. -/
  | start
  /-- In a word without quotes. -/
  | bare (escaped : Bool)
  /-- In a word that begins with the quote `q`, before the next `q`; `odd` if an odd number of the other quotes stands in between. -/
  | quoted (q : CChar) (odd escaped : Bool)
  /-- In such a word behind the second `q`. -/
  | closed (q : CChar) (odd escaped : Bool)
  deriving DecidableEq, Repr

/-- A line from a spot on in which one white space character stands between two words, and where a word either has no quote, or is one
quoted part that nothing but the same quote follows, each with a backslash before it. A word without quotes has no white space in it
that a backslash stands before, and is not just a backslash. In a quoted part that other words follow, the number of the other quotes is
even. -/
def Simple : Spot → CString → Bool
  | .start, [] => false
  | .start, c :: line =>
    if isspace c then false
    else if isquote c then Simple (.quoted c false false) line
    else if c = backslash then line ≠ [] && Simple (.bare true) line
    else Simple (.bare false) line
  | .bare _, [] => true
  | .bare escaped, c :: line =>
    if isspace c then !escaped && Simple .start line
    else if isquote c && !escaped then false
    else Simple (.bare (c = backslash && !escaped)) line
  | .quoted _ _ _, [] => false
  | .quoted q odd escaped, c :: line =>
    if escaped then Simple (.quoted q odd false) line
    else if c = backslash then Simple (.quoted q odd true) line
    else if c = q then Simple (.closed q odd false) line
    else Simple (.quoted q (if isquote c then !odd else odd) false) line
  | .closed _ _ escaped, [] => !escaped
  | .closed q odd escaped, c :: line =>
    if escaped then c = q && Simple (.closed q odd false) line
    else if c = backslash then Simple (.closed q odd true) line
    else isspace c && !odd && Simple .start line

/-! The first part that `split_cmd` cuts from a line, as it stands in the line, whether there is a quote in it, and the arguments behind
it. -/

def part (f : Quotes) : CString → CString
  | [] => []
  | c :: line => if f.ends c then [] else f.mark c :: part (f.next c) line

def hasQuote (f : Quotes) : CString → Bool
  | [] => false
  | c :: line => if f.ends c then false else f.quotes c || hasQuote (f.next c) line

def behind (f : Quotes) : CString → List CString
  | [] => []
  | c :: line => if f.ends c then segments f false [] line else behind (f.next c) line

/-- `split_cmd` and the grammar agree on a line exactly if it is simple. -/
def Settled (line : CString) (ws : List CString) : Prop := segments .off false [] line = ws ↔ Simple .start line = true

/-- The grammar reads `word` from a place in a line on, and then the words `ws`. -/
inductive Reads : Option CChar → Bool → CString → CString → List CString → Prop where
  | done {escaped : Bool} : Reads none escaped [] [] []
  | space {c : CChar} {line : CString} {ws : List CString} : isspace c = true → Settled line ws → Reads none false (c :: line) [] ws
  | literal {q : Option CChar} {c : CChar} {line word : CString} {ws : List CString} :
    c ≠ esc → Reads q false line word ws → Reads q true (c :: line) (c :: word) ws
  | backslash {q : Option CChar} {line word : CString} {ws : List CString} :
    Reads q true line word ws → Reads q false (CChar.backslash :: line) word ws
  | opens {c : CChar} {line word : CString} {ws : List CString} :
    isquote c = true → Reads (some c) false line word ws → Reads none false (c :: line) word ws
  | closes {k : CChar} {line word : CString} {ws : List CString} :
    isquote k = true → Reads none false line word ws → Reads (some k) false (k :: line) word ws
  | quoted {k c : CChar} {line word : CString} {ws : List CString} :
    c ≠ esc → c ≠ CChar.backslash → c ≠ k → Reads (some k) false line word ws → Reads (some k) false (c :: line) (c :: word) ws
  | plain {c : CChar} {line word : CString} {ws : List CString} :
    c ≠ esc → c ≠ CChar.backslash → isquote c = false → isspace c = false → Reads none false line word ws →
      Reads none false (c :: line) (c :: word) ws

end Shell

namespace ShellAux

open Shell

/-! ## Characters -/

theorem isquote_iff {c : CChar} : isquote c = true ↔ c = dquot ∨ c = quot := by simp [isquote]

theorem ne_esc_of_isquote {c : CChar} (h : isquote c = true) : c ≠ esc := by
  rcases isquote_iff.mp h with rfl | rfl <;> decide

theorem ne_backslash_of_isquote {c : CChar} (h : isquote c = true) : c ≠ backslash := by
  rcases isquote_iff.mp h with rfl | rfl <;> decide

theorem isspace_of_isquote {c : CChar} (h : isquote c = true) : isspace c = false := by
  rcases isquote_iff.mp h with rfl | rfl <;> decide

theorem ne_backslash_of_isspace {c : CChar} (h : isspace c = true) : c ≠ backslash := by
  rintro rfl
  revert h
  decide

theorem ne_esc_of_isspace {c : CChar} (h : isspace c = true) : c ≠ esc := by
  rintro rfl
  revert h
  decide

/-! ## Flags -/

section

variable {f : Quotes} {c : CChar}

theorem quotes_eq : f.quotes c = (isquote c && !f.escaped) := rfl

theorem ends_eq_false_of_inside (h : f.inside = true) : f.ends c = false := by simp [Quotes.ends, h]

theorem ends_eq_false_of_isspace (h : isspace c = false) : f.ends c = false := by simp [Quotes.ends, h]

theorem eq_off_of_inside (hf : f.escaped = false) (hin : f.inside = false) : f = .off := by
  obtain ⟨inquot, indquot, escaped⟩ := f
  simp only [Quotes.inside, Bool.or_eq_false_iff] at hin hf
  rw [hin.1, hin.2, hf, Quotes.off]

theorem mark_of_ne (h : c ≠ backslash) : f.mark c = c := by simp [Quotes.mark, h]

theorem mark_of_escaped (h : f.escaped = true) : f.mark c = c := by simp [Quotes.mark, h]

theorem mark_backslash (h : f.escaped = false) : f.mark backslash = esc := by simp [Quotes.mark, h]

theorem next_of_escaped (h : f.escaped = true) : f.next c = { f with escaped := false } := by
  simp [Quotes.next, h]

theorem next_backslash (h : f.escaped = false) : f.next backslash = { f with escaped := true } := by
  simp [Quotes.next, h, show backslash ≠ dquot by decide, show backslash ≠ quot by decide]

theorem next_of_ne (h : f.escaped = false) (hc : isquote c = false) (hb : c ≠ backslash) : f.next c = f := by
  obtain ⟨inquot, indquot, escaped⟩ := f
  simp only [isquote, Bool.or_eq_false_iff, decide_eq_false_iff_not] at hc
  simp only at h
  simp [Quotes.next, h, hc, hb]

end

/-! ## Copying -/

/-- The characters that are copied. -/
def strip (seg : CString) : CString := seg.filter (· ≠ esc)

theorem content_false (seg : CString) : content false seg = strip seg := rfl

theorem content_true_cons (c : CChar) (seg : CString) : content true (c :: seg) = strip seg.dropLast := rfl

theorem strip_cons {c : CChar} (h : c ≠ esc) (seg : CString) : strip (c :: seg) = c :: strip seg := by simp [strip, h]

theorem strip_esc (seg : CString) : strip (esc :: seg) = strip seg := by simp [strip]

theorem strip_dropLast_cons {c : CChar} (h : c ≠ esc) {seg : CString} (hseg : seg ≠ []) :
    strip (c :: seg).dropLast = c :: strip seg.dropLast := by
  rw [List.dropLast_cons_of_ne_nil hseg, strip_cons h]

theorem strip_dropLast_esc {seg : CString} (hseg : seg ≠ []) : strip (esc :: seg).dropLast = strip seg.dropLast := by
  rw [List.dropLast_cons_of_ne_nil hseg, strip_esc]

/-- A character marked is not copied, unless it is the last: then it is left out in place of the last. -/
theorem strip_dropLast_append_esc (seg : CString) {tail : CString} (htail : tail ≠ []) :
    strip (seg ++ esc :: tail).dropLast = strip (seg ++ tail).dropLast := by
  rw [List.dropLast_append_of_ne_nil (List.cons_ne_nil _ _), List.dropLast_append_of_ne_nil htail,
    List.dropLast_cons_of_ne_nil htail]
  simp [strip]

/-- The mark of a backslash that stands right before. -/
def pending (escaped : Bool) : CString := if escaped then [esc] else []

theorem segments_eq (f : Quotes) (quoted : Bool) (seg line : CString) :
    segments f quoted seg line = content (quoted || hasQuote f line) (seg ++ part f line) :: behind f line := by
  induction line generalizing f quoted seg with
  | nil => simp [segments, hasQuote, part, behind]
  | cons c line ih =>
    rw [segments, hasQuote, part, behind]
    split
    · simp
    · rw [ih, Bool.or_assoc, List.append_assoc, List.singleton_append]

theorem part_ne_nil_of_hasQuote {f : Quotes} {line : CString} (h : hasQuote f line = true) : part f line ≠ [] := by
  cases line with
  | nil => cases h
  | cons c line =>
    rw [hasQuote] at h
    rw [part]
    split
    next hends => simp [hends] at h
    next => exact List.cons_ne_nil _ _

/-! ## One character of a part -/

section

variable {f : Quotes} {c : CChar} {l : CString}

/-- A character that a backslash stands before, and that does not end the part. -/
theorem part_of_escaped (hf : f.escaped = true) (hends : f.ends c = false) :
    part f (c :: l) = c :: part { f with escaped := false } l ∧ hasQuote f (c :: l) = hasQuote { f with escaped := false } l ∧
      behind f (c :: l) = behind { f with escaped := false } l := by
  simp [part, hasQuote, behind, hends, mark_of_escaped hf, next_of_escaped hf, quotes_eq, hf]

/-- A backslash. -/
theorem part_backslash (hf : f.escaped = false) :
    part f (backslash :: l) = esc :: part { f with escaped := true } l ∧
      hasQuote f (backslash :: l) = hasQuote { f with escaped := true } l ∧
      behind f (backslash :: l) = behind { f with escaped := true } l := by
  have hends : f.ends backslash = false := ends_eq_false_of_isspace (by decide)
  simp [part, hasQuote, behind, hends, mark_backslash hf, next_backslash hf, quotes_eq, show isquote backslash = false by decide]

/-- A quote. -/
theorem part_quote (hf : f.escaped = false) (hc : isquote c = true) :
    part f (c :: l) = c :: part (f.next c) l ∧ hasQuote f (c :: l) = true ∧ behind f (c :: l) = behind (f.next c) l := by
  have hends : f.ends c = false := ends_eq_false_of_isspace (isspace_of_isquote hc)
  simp [part, hasQuote, behind, hends, mark_of_ne (ne_backslash_of_isquote hc), quotes_eq, hc, hf]

/-- Any other character that does not end the part. -/
theorem part_plain (hf : f.escaped = false) (hends : f.ends c = false) (hb : c ≠ backslash) (hc : isquote c = false) :
    part f (c :: l) = c :: part f l ∧ hasQuote f (c :: l) = hasQuote f l ∧ behind f (c :: l) = behind f l := by
  simp [part, hasQuote, behind, hends, mark_of_ne hb, next_of_ne hf hc hb, quotes_eq, hc]

/-- White space that ends the part. -/
theorem part_ends (hends : f.ends c = true) :
    part f (c :: l) = [] ∧ hasQuote f (c :: l) = false ∧ behind f (c :: l) = segments f false [] l := by
  simp [part, hasQuote, behind, hends]

theorem inside_next_of_isspace (h : isspace c = true) : (f.next c).inside = f.inside := by
  have hd : c ≠ dquot := by
    rintro rfl
    revert h
    decide
  have hq : c ≠ quot := by
    rintro rfl
    revert h
    decide
  simp [Quotes.next, hd, hq, ne_backslash_of_isspace h, Quotes.inside]

theorem escaped_next_of_isquote (hf : f.escaped = false) (hc : isquote c = true) : (f.next c).escaped = false := by
  rcases isquote_iff.mp hc with rfl | rfl <;> simp [Quotes.next, hf, show quot ≠ dquot by decide]

end

/-! ## Behind the second quote -/

/-- What is copied begins with the first quote that is due. -/
theorem copy_eq_cons {p tail word : CString} {c : CChar} (hne : p ≠ []) (hp : ∀ k ∈ p, isquote k = true)
    (h : strip (p ++ tail).dropLast = c :: word) : ∃ p', p = c :: p' ∧ strip (p' ++ tail).dropLast = word := by
  obtain ⟨k, p, rfl⟩ := List.exists_cons_of_ne_nil hne
  rw [List.cons_append] at h
  rcases eq_or_ne (p ++ tail) [] with hnil | hnil
  · rw [hnil] at h
    cases h
  · rw [strip_dropLast_cons (ne_esc_of_isquote (hp k List.mem_cons_self)) hnil] at h
    obtain ⟨rfl, htail⟩ := List.cons.inj h
    exact ⟨p, rfl, htail⟩

/-- Nothing is copied only if there is nothing behind one quote. -/
theorem copy_eq_nil {p tail : CString} (hne : p ≠ []) (hp : ∀ k ∈ p, isquote k = true) (h : strip (p ++ tail).dropLast = []) :
    tail = [] ∧ ∃ k, p = [k] := by
  obtain ⟨k, p, rfl⟩ := List.exists_cons_of_ne_nil hne
  rw [List.cons_append] at h
  rcases eq_or_ne (p ++ tail) [] with hnil | hnil
  · obtain ⟨rfl, rfl⟩ := List.append_eq_nil_iff.mp hnil
    exact ⟨rfl, k, rfl⟩
  · rw [strip_dropLast_cons (ne_esc_of_isquote (hp k List.mem_cons_self)) hnil] at h
    cases h

section

variable {q : Option CChar} {escaped : Bool} {line word : CString} {ws : List CString} {f : Quotes}

theorem forall_isquote_concat {p : CString} {c : CChar} (hp : ∀ k ∈ p, isquote k = true) (hc : isquote c = true) :
    ∀ k ∈ p ++ [c], isquote k = true := by
  intro k hk
  rcases List.mem_append.mp hk with hk | hk
  · exact hp k hk
  · rwa [List.mem_singleton.mp hk]

/-- With the quotes `p` still to be copied, and the last character of the part to be left out, `split_cmd` only gets the word that the
grammar reads if `p` is one quote, and if no others than this follow in the word. -/
theorem late (h : Reads q escaped line word ws) (hf : f.escaped = escaped) {p : CString} (hne : p ≠ [])
    (hp : ∀ k ∈ p, isquote k = true) (hword : strip (p ++ (pending escaped ++ part f line)).dropLast = word) :
    q = none ∧ ∃ k, p = [k] ∧ (behind f line = ws → Simple (.closed k f.inside escaped) line = true) := by
  induction h generalizing f p with
  | done =>
    obtain ⟨htail, k, rfl⟩ := copy_eq_nil hne hp hword
    refine ⟨rfl, k, rfl, fun _ => ?_⟩
    cases hf
    cases hesc : f.escaped with
    | false => rfl
    | true => simp [pending, hesc] at htail
  | @space c line ws hspace hsettled =>
    obtain ⟨htail, k, rfl⟩ := copy_eq_nil hne hp hword
    have hends : f.ends c = true := by
      by_contra hends
      simp [pending, part, hends] at htail
    have hin : f.inside = false := (Quotes.ends_iff.mp hends).2
    refine ⟨rfl, k, rfl, fun hbehind => ?_⟩
    rw [(part_ends hends).2.2, eq_off_of_inside hf hin] at hbehind
    simp [Simple, ne_backslash_of_isspace hspace, hspace, hin, hsettled.mp hbehind]
  | @literal q c line word ws hc _ ih =>
    obtain ⟨p, rfl, hcopy⟩ := copy_eq_cons hne hp hword
    rw [List.forall_mem_cons] at hp
    obtain ⟨hpart, -, hbehind⟩ := part_of_escaped (l := line) hf (ends_eq_false_of_isspace (isspace_of_isquote hp.1))
    rw [hpart, pending, if_pos rfl, List.singleton_append, strip_dropLast_append_esc _ (List.cons_ne_nil _ _)] at hcopy
    obtain ⟨rfl, k, hk, hsimple⟩ := ih (f := { f with escaped := false }) rfl (p := p ++ [c]) (by simp) (forall_isquote_concat hp.2 hp.1)
      (by rw [List.append_assoc]; exact hcopy)
    obtain ⟨rfl, rfl⟩ : p = [] ∧ c = k := by simpa using List.append_eq_singleton_iff.mp hk
    refine ⟨rfl, c, rfl, fun h => ?_⟩
    rw [hbehind] at h
    simp only [Simple, if_true, decide_true, Bool.true_and]
    exact hsimple h
  | @backslash q line word ws _ ih =>
    obtain ⟨hpart, -, hbehind⟩ := part_backslash (l := line) hf
    rw [hpart] at hword
    obtain ⟨rfl, k, rfl, hsimple⟩ := ih (f := { f with escaped := true }) rfl hne hp hword
    refine ⟨rfl, k, rfl, fun h => ?_⟩
    rw [hbehind] at h
    simp only [Simple, Bool.false_eq_true, if_false, if_true]
    exact hsimple h
  | @opens c line word ws hc _ ih =>
    obtain ⟨hnone, -⟩ := ih (escaped_next_of_isquote hf hc) (p := p ++ [c]) (by simp) (forall_isquote_concat hp hc)
      (by rw [List.append_assoc, ← hword, (part_quote hf hc).1]; rfl)
    cases hnone
  | @closes k line word ws hk _ ih =>
    -- The second quote must be copied as well, and nothing can be copied in its place.
    obtain ⟨-, k', hk', -⟩ := ih (escaped_next_of_isquote hf hk) (p := p ++ [k]) (by simp) (forall_isquote_concat hp hk)
      (by rw [List.append_assoc, ← hword, (part_quote hf hk).1]; rfl)
    exact absurd (List.append_eq_singleton_iff.mp hk') (by simp [hne])
  | @quoted k c line word ws hc hb hk _ ih =>
    obtain ⟨p, rfl, hcopy⟩ := copy_eq_cons hne hp hword
    rw [List.forall_mem_cons] at hp
    obtain ⟨hpart, -, -⟩ := part_quote (l := line) hf hp.1
    rw [hpart] at hcopy
    obtain ⟨hnone, -⟩ := ih (escaped_next_of_isquote hf hp.1) (p := p ++ [c]) (by simp) (forall_isquote_concat hp.2 hp.1)
      (by rw [List.append_assoc]; exact hcopy)
    cases hnone
  | @plain c line word ws hc hb hq hs _ ih =>
    obtain ⟨p, rfl, -⟩ := copy_eq_cons hne hp hword
    rw [hp c List.mem_cons_self] at hq
    cases hq

theorem copy_of_closed {k : CChar} (h : Reads q escaped line word ws) (hq : q = none) (hf : f.escaped = escaped) (hk : isquote k = true)
    (hs : Simple (.closed k f.inside escaped) line = true) :
    strip (k :: (pending escaped ++ part f line)).dropLast = word ∧ behind f line = ws := by
  induction h generalizing f with
  | done =>
    cases hf
    simp only [Simple, Bool.not_eq_true'] at hs
    simp [hs, pending, part, behind, strip]
  | @space c line ws hspace hsettled =>
    simp only [Simple, Bool.false_eq_true, if_false, ne_backslash_of_isspace hspace, Bool.and_eq_true, Bool.not_eq_true'] at hs
    obtain ⟨hpart, -, hbehind⟩ := part_ends (l := line) (Quotes.ends_iff.mpr ⟨hspace, hs.1.2⟩)
    rw [hpart, hbehind, eq_off_of_inside hf hs.1.2]
    exact ⟨rfl, hsettled.mpr hs.2⟩
  | @literal q c line word ws hc _ ih =>
    simp only [Simple, if_true, Bool.and_eq_true, decide_eq_true_eq] at hs
    obtain ⟨rfl, hs⟩ := hs
    obtain ⟨hpart, -, hbehind⟩ := part_of_escaped (l := line) hf (ends_eq_false_of_isspace (isspace_of_isquote hk))
    obtain ⟨hword, hws⟩ := ih (f := { f with escaped := false }) hq rfl hs
    rw [hpart, hbehind, strip_dropLast_cons hc (by simp [pending])]
    exact ⟨congrArg _ ((strip_dropLast_esc (List.cons_ne_nil _ _)).trans hword), hws⟩
  | @backslash q line word ws _ ih =>
    simp only [Simple, Bool.false_eq_true, if_false, if_true] at hs
    obtain ⟨hpart, -, hbehind⟩ := part_backslash (l := line) hf
    rw [hpart, hbehind]
    exact ih (f := { f with escaped := true }) hq rfl hs
  | opens hc _ _ => simp [Simple, ne_backslash_of_isquote hc, isspace_of_isquote hc] at hs
  | closes => cases hq
  | quoted => cases hq
  | plain _ hb _ hspace _ _ => simp [Simple, hb, hspace] at hs

/-- Behind the second quote of a word. -/
theorem closed_iff {k : CChar} (h : Reads none escaped line word ws) (hf : f.escaped = escaped) (hk : isquote k = true) :
    strip (k :: (pending escaped ++ part f line)).dropLast = word ∧ behind f line = ws ↔
      Simple (.closed k f.inside escaped) line = true := by
  refine ⟨fun ⟨hword, hws⟩ => ?_, copy_of_closed h rfl hf hk⟩
  obtain ⟨-, k', hk', hsimple⟩ := late h hf (List.cons_ne_nil k []) (by simpa using hk) hword
  obtain rfl : k = k' := by simpa using hk'
  exact hsimple hws

/-! ## Between the quotes -/

/-- The flags behind a quote `k`. -/
def within (k : CChar) (odd escaped : Bool) : Quotes := if k = quot then ⟨true, odd, escaped⟩ else ⟨odd, true, escaped⟩

section

variable {k c : CChar} {odd : Bool}

theorem inside_within : (within k odd escaped).inside = true := by
  unfold within
  split <;> simp [Quotes.inside]

theorem escaped_within : (within k odd escaped).escaped = escaped := by
  unfold within
  split <;> rfl

theorem within_with_escaped (b : Bool) : { within k odd escaped with escaped := b } = within k odd b := by
  unfold within
  split <;> rfl

/-- The second quote. -/
theorem inside_next_within (hk : isquote k = true) : ((within k odd false).next k).inside = odd := by
  rcases isquote_iff.mp hk with rfl | rfl <;> simp [within, Quotes.next, Quotes.inside, show dquot ≠ quot by decide, show quot ≠ dquot by decide]

/-- The other quote. -/
theorem next_within (hk : isquote k = true) (hc : isquote c = true) (hne : c ≠ k) : (within k odd false).next c = within k (!odd) false := by
  rcases isquote_iff.mp hk with rfl | rfl <;> rcases isquote_iff.mp hc with rfl | rfl
  · exact absurd rfl hne
  · simp [within, Quotes.next, show dquot ≠ quot by decide, show quot ≠ dquot by decide]
  · simp [within, Quotes.next]
  · exact absurd rfl hne

/-- A quote that is open is closed in the same part. -/
theorem part_ne_nil (h : Reads (some k) escaped line word ws) (hin : f.inside = true) : part f line ≠ [] := by
  cases h <;> simp [part, ends_eq_false_of_inside hin]

/-- In a word that begins with a quote, up to the second. -/
theorem quoted_iff (h : Reads q escaped line word ws) (hq : q = some k) (hk : isquote k = true) (hf : f = within k odd escaped) :
    strip (pending escaped ++ part f line).dropLast = word ∧ behind f line = ws ↔ Simple (.quoted k odd escaped) line = true := by
  induction h generalizing f odd with
  | done => cases hq
  | space => cases hq
  | opens => cases hq
  | plain => cases hq
  | @literal q c line word ws hc h ih =>
    subst hq hf
    obtain ⟨hpart, -, hbehind⟩ := part_of_escaped (f := within k odd true) (c := c) (l := line) escaped_within
      (ends_eq_false_of_inside inside_within)
    rw [within_with_escaped] at hpart hbehind
    have hne := part_ne_nil h (show (within k odd false).inside = true from inside_within)
    rw [hpart, hbehind, pending, if_pos rfl, List.singleton_append, strip_dropLast_esc (List.cons_ne_nil _ _), strip_dropLast_cons hc hne,
      Simple, if_pos rfl, List.cons.injEq]
    simpa [pending] using ih rfl rfl
  | @backslash q line word ws h ih =>
    subst hq hf
    obtain ⟨hpart, -, hbehind⟩ := part_backslash (f := within k odd false) (l := line) escaped_within
    rw [within_with_escaped] at hpart hbehind
    rw [hpart, hbehind, Simple, if_neg (by decide), if_pos rfl]
    exact ih rfl rfl
  | @closes k' line word ws _ h ih =>
    obtain rfl : k' = k := by simpa using hq
    subst hf
    obtain ⟨hpart, -, hbehind⟩ := part_quote (f := within k' odd false) (l := line) escaped_within hk
    have hclosed := closed_iff h (escaped_next_of_isquote (f := within k' odd false) escaped_within hk) hk
    rw [inside_next_within hk] at hclosed
    rw [hpart, hbehind, Simple, if_neg (by decide), if_neg (ne_backslash_of_isquote hk), if_pos rfl]
    exact hclosed
  | @quoted k' c line word ws hc hb hne h ih =>
    obtain rfl : k' = k := by simpa using hq
    subst hf
    rw [Simple, if_neg (by decide), if_neg hb, if_neg hne]
    cases hcq : isquote c with
    | true =>
      obtain ⟨hpart, -, hbehind⟩ := part_quote (f := within k' odd false) (l := line) escaped_within hcq
      rw [next_within hk hcq hne] at hpart hbehind
      rw [hpart, hbehind, pending, if_neg (by decide), List.nil_append, strip_dropLast_cons hc (part_ne_nil h inside_within),
        List.cons.injEq]
      simpa [pending] using ih (f := within k' (!odd) false) rfl rfl
    | false =>
      obtain ⟨hpart, -, hbehind⟩ := part_plain (f := within k' odd false) (l := line) escaped_within
        (ends_eq_false_of_inside inside_within) hb hcq
      rw [hpart, hbehind, pending, if_neg (by decide), List.nil_append, strip_dropLast_cons hc (part_ne_nil h inside_within),
        List.cons.injEq]
      simpa [pending] using ih (f := within k' odd false) rfl rfl

end

/-! ## Words that do not begin with a quote -/

/-- The flags outside of quotes. -/
def outside (escaped : Bool) : Quotes := ⟨false, false, escaped⟩

section

theorem ends_outside (c : CChar) : (outside escaped).ends c = isspace c := by simp [Quotes.ends, Quotes.inside, outside]

/-- A word without quotes. -/
theorem bare_iff (h : Reads q escaped line word ws) (hq : q = none) :
    strip (part (outside escaped) line) = word ∧ hasQuote (outside escaped) line = false ∧ behind (outside escaped) line = ws ↔
      Simple (.bare escaped) line = true := by
  induction h with
  | done => simp [part, hasQuote, behind, Simple, strip]
  | @space c line ws hspace hsettled =>
    obtain ⟨hpart, hquote, hbehind⟩ := part_ends (f := outside false) (l := line) ((ends_outside c).trans hspace)
    rw [hpart, hquote, hbehind, Simple, if_pos hspace]
    exact ⟨fun ⟨_, _, hws⟩ => hsettled.mp hws, fun hs => ⟨rfl, rfl, hsettled.mpr hs⟩⟩
  | @literal q c line word ws hc h ih =>
    cases hspace : isspace c with
    | true =>
      obtain ⟨hpart, -, -⟩ := part_ends (f := outside true) (l := line) ((ends_outside c).trans hspace)
      simp [hpart, Simple, hspace, strip]
    | false =>
      obtain ⟨hpart, hquote, hbehind⟩ := part_of_escaped (f := outside true) (l := line) rfl ((ends_outside c).trans hspace)
      rw [hpart, hquote, hbehind, Simple, hspace, strip_cons hc, List.cons.injEq]
      simp only [true_and, Bool.false_eq_true, if_false, Bool.not_true, Bool.and_false]
      exact ih hq
  | @backslash q line word ws h ih =>
    obtain ⟨hpart, hquote, hbehind⟩ := part_backslash (f := outside false) (l := line) rfl
    rw [hpart, hquote, hbehind, strip_esc, Simple]
    exact ih hq
  | @opens c line word ws hc h ih =>
    obtain ⟨-, hquote, -⟩ := part_quote (f := outside false) (l := line) rfl hc
    simp [hquote, Simple, isspace_of_isquote hc, hc]
  | closes => cases hq
  | quoted => cases hq
  | @plain c line word ws hc hb hcq hspace h ih =>
    obtain ⟨hpart, hquote, hbehind⟩ := part_plain (f := outside false) (l := line) rfl ((ends_outside c).trans hspace) hb hcq
    rw [hpart, hquote, hbehind, strip_cons hc, List.cons.injEq, Simple, hspace, hcq]
    simpa [hb] using ih hq

/-- One more character is copied: it is the next of those that `split_cmd` still lacks, or one that both read. -/
theorem lead_of_copy {c : CChar} {seg lead : CString} (hc : c ≠ esc) (hseg : seg ≠ []) (hlead : ∀ x ∈ lead, isquote x = false)
    (h : strip (c :: seg).dropLast = lead ++ c :: word) : ∃ lead', (∀ x ∈ lead', isquote x = false) ∧ strip seg.dropLast = lead' ++ word := by
  rw [strip_dropLast_cons hc hseg] at h
  cases lead with
  | nil => exact ⟨[], hlead, (List.cons.inj h).2⟩
  | cons x lead =>
    rw [List.cons_append] at h
    obtain ⟨rfl, htail⟩ := List.cons.inj h
    rw [List.forall_mem_cons] at hlead
    refine ⟨lead ++ [c], fun x hx => ?_, by rw [htail, List.append_assoc, List.singleton_append]⟩
    rcases List.mem_append.mp hx with hx | hx
    · exact hlead.2 x hx
    · rw [List.mem_singleton.mp hx, hlead.1]

/-- A word with a quote in it that begins with something else: the first character is left out in place of the quote. Up to the quote,
`split_cmd` lacks the characters `lead`, and there it copies the quote. -/
theorem copy_ne (h : Reads q escaped line word ws) (hq : q = none) (hquote : hasQuote (outside escaped) line = true) {lead : CString}
    (hlead : ∀ x ∈ lead, isquote x = false) : strip (part (outside escaped) line).dropLast ≠ lead ++ word := by
  induction h generalizing lead with
  | done => cases hquote
  | @space c line ws hspace hsettled =>
    rw [(part_ends ((ends_outside c).trans hspace)).2.1] at hquote
    cases hquote
  | @literal q c line word ws hc h ih =>
    cases hspace : isspace c with
    | true =>
      rw [(part_ends ((ends_outside c).trans hspace)).2.1] at hquote
      cases hquote
    | false =>
      obtain ⟨hpart, hquote', -⟩ := part_of_escaped (f := outside true) (l := line) rfl ((ends_outside c).trans hspace)
      rw [hquote'] at hquote
      intro hcopy
      rw [hpart] at hcopy
      obtain ⟨lead', hlead', hcopy'⟩ := lead_of_copy hc (part_ne_nil_of_hasQuote hquote) hlead hcopy
      exact ih hq hquote hlead' hcopy'
  | @backslash q line word ws h ih =>
    obtain ⟨hpart, hquote', -⟩ := part_backslash (f := outside false) (l := line) rfl
    rw [hquote'] at hquote
    rw [hpart, strip_dropLast_esc (part_ne_nil_of_hasQuote hquote)]
    exact ih hq hquote hlead
  | @opens c line word ws hc h ih =>
    intro hcopy
    rw [(part_quote rfl hc).1] at hcopy
    cases lead with
    | nil =>
      obtain ⟨hnone, -⟩ := late h (escaped_next_of_isquote rfl hc) (List.cons_ne_nil c []) (by simpa using hc) hcopy
      cases hnone
    | cons x lead =>
      obtain ⟨p, hp, -⟩ := copy_eq_cons (List.cons_ne_nil c []) (by simpa using hc) hcopy
      have hx := hlead x List.mem_cons_self
      rw [← (List.cons.inj hp).1, hc] at hx
      cases hx
  | closes => cases hq
  | quoted => cases hq
  | @plain c line word ws hc hb hcq hspace h ih =>
    obtain ⟨hpart, hquote', -⟩ := part_plain (f := outside false) (l := line) rfl ((ends_outside c).trans hspace) hb hcq
    rw [hquote'] at hquote
    intro hcopy
    rw [hpart] at hcopy
    obtain ⟨lead', hlead', hcopy'⟩ := lead_of_copy hc (part_ne_nil_of_hasQuote hquote) hlead hcopy
    exact ih hq hquote hlead' hcopy'

/-- A word that begins with something else than a quote, `x` as it stands in the line and `lead` as it is copied. -/
theorem start_iff (h : Reads none escaped line word ws) {x : CChar} {lead : CString} (hx : strip [x] = lead)
    (hlead : ∀ c ∈ lead, isquote c = false) :
    content (hasQuote (outside escaped) line) (x :: part (outside escaped) line) = lead ++ word ∧ behind (outside escaped) line = ws ↔
      Simple (.bare escaped) line = true := by
  rw [← bare_iff h rfl]
  cases hquote : hasQuote (outside escaped) line with
  | true =>
    rw [content_true_cons]
    exact ⟨fun ⟨hcopy, _⟩ => absurd hcopy (copy_ne h rfl hquote hlead), fun ⟨_, hfalse, _⟩ => by cases hfalse⟩
  | false =>
    have hcons : strip (x :: part (outside escaped) line) = lead ++ strip (part (outside escaped) line) := by
      rw [← hx, strip, strip, strip, ← List.filter_append, List.singleton_append]
    rw [content_false, hcons, List.append_right_inj]
    simp

end

end

/-! ## Counting white space

Neither `split_cmd` nor the grammar drops a white space character inside an argument. `split_cmd` makes an argument of each of the
others, and the grammar does so only for the first of several. -/

/-- The arguments and the white space in them. -/
def spaces (args : List CString) : Nat := (args.map (·.countP (isspace ·) + 1)).sum

theorem isspace_mark (f : Quotes) (c : CChar) : isspace (f.mark c) = isspace c := by
  unfold Quotes.mark
  split
  next h =>
    rw [h.1]
    decide
  next => rfl

theorem countP_strip (seg : CString) : (strip seg).countP (isspace ·) = seg.countP (isspace ·) := by
  rw [strip, List.countP_filter]
  refine List.countP_congr fun c _ => ?_
  simp only [Bool.and_eq_true, decide_eq_true_eq, ne_eq]
  exact ⟨fun h => h.1, fun h => ⟨h, ne_esc_of_isspace h⟩⟩

/-- The characters of a part, with white space neither at its beginning nor at its end. -/
structure Trimmed (f : Quotes) (seg : CString) : Prop where
  first : ∀ c, seg.head? = some c → isspace c = false
  last : ∀ c, seg.getLast? = some c → isspace c = true → f.inside = true
  fresh : seg = [] → f.inside = false

theorem countP_content {seg : CString} (quoted : Bool) (hfirst : ∀ c, seg.head? = some c → isspace c = false)
    (hlast : ∀ c, seg.getLast? = some c → isspace c = false) : (content quoted seg).countP (isspace ·) = seg.countP (isspace ·) := by
  cases quoted with
  | false => exact countP_strip seg
  | true =>
    cases seg with
    | nil => rfl
    | cons x seg =>
      rw [content_true_cons, countP_strip, List.countP_cons, hfirst x rfl]
      rcases eq_or_ne seg [] with rfl | hseg
      · rfl
      · have hlast : isspace (seg.getLast hseg) = false := hlast _ (by
          rw [List.getLast?_cons_of_ne_nil hseg, List.getLast?_eq_getLast_of_ne_nil hseg])
        conv_rhs => rw [← List.dropLast_concat_getLast hseg]
        simp [hlast]

theorem Trimmed.next {f : Quotes} {seg : CString} (h : Trimmed f seg) {c : CChar} (hends : f.ends c = false) :
    Trimmed (f.next c) (seg ++ [f.mark c]) where
  first := fun x hx => by
    cases seg with
    | nil =>
      obtain rfl : f.mark c = x := by simpa using hx
      simpa [Quotes.ends, h.fresh rfl, isspace_mark] using hends
    | cons y seg => exact h.first x hx
  last := fun x hx hspace => by
    obtain rfl : f.mark c = x := by simpa using hx
    rw [isspace_mark] at hspace
    rw [inside_next_of_isspace hspace]
    simpa [Quotes.ends, hspace] using hends
  fresh := fun hnil => by simp at hnil

theorem spaces_cons (arg : CString) (args : List CString) : spaces (arg :: args) = arg.countP (isspace ·) + 1 + spaces args := by
  simp [spaces]

theorem spaces_segments {f : Quotes} {quoted : Bool} {seg line : CString} (h : Trimmed f seg)
    (hlast : ∀ c, (seg ++ line).getLast? = some c → isspace c = false) :
    spaces (segments f quoted seg line) = seg.countP (isspace ·) + line.countP (isspace ·) + 1 := by
  induction line generalizing f quoted seg with
  | nil =>
    rw [List.append_nil] at hlast
    rw [segments, spaces_cons, countP_content quoted h.first hlast]
    simp [spaces]
  | cons c line ih =>
    have htail : ∀ x, line.getLast? = some x → isspace x = false := by
      intro x hx
      refine hlast x ?_
      rw [List.getLast?_append, List.getLast?_cons, hx]
      rfl
    rw [segments, List.countP_cons]
    split
    next hends =>
      obtain ⟨hspace, hout⟩ := Quotes.ends_iff.mp hends
      have hseg : ∀ x, seg.getLast? = some x → isspace x = false := by
        intro x hx
        by_contra hne
        simp [h.last x hx (by simpa using hne)] at hout
      have hnil : Trimmed f [] := ⟨fun x hx => (by cases hx), fun x hx => (by cases hx), fun _ => hout⟩
      rw [spaces_cons, countP_content quoted h.first hseg, ih hnil htail, hspace]
      simp
      omega
    next hends =>
      rw [ih (h.next (by simpa using hends)) ?_]
      · rw [List.countP_append, List.countP_singleton, isspace_mark]
        omega
      · intro x hx
        rcases eq_or_ne line [] with rfl | hline
        · obtain rfl : f.mark c = x := by simpa using hx
          rw [isspace_mark]
          exact hlast c (by simp)
        · refine htail x ?_
          rwa [List.getLast?_append_of_ne_nil _ hline] at hx

theorem countP_append_singleton (word line : CString) (c : CChar) :
    (word ++ [c]).countP (isspace ·) + 1 + line.countP (isspace ·) = word.countP (isspace ·) + 1 + (c :: line).countP (isspace ·) := by
  rw [List.countP_append, List.countP_singleton, List.countP_cons]
  omega

section

variable {q : Option CChar} {escaped : Bool} {word : Option CString} {line : CString} {ws : List CString}

theorem spaces_lex (h : lex q escaped word line = some ws) :
    spaces ws ≤ (word.getD []).countP (isspace ·) + 1 + line.countP (isspace ·) := by
  fun_induction lex q escaped word line generalizing ws with
  | case1 escaped word =>
    cases h
    cases word <;> simp [spaces]
  | case2 => cases h
  | case3 q word c line ih => exact (ih h).trans_eq (countP_append_singleton _ _ _)
  | case4 q escaped word line _ ih =>
    have := ih h
    rw [List.countP_cons]
    omega
  | case5 escaped word line _ k _ ih =>
    have := ih h
    rw [List.countP_cons]
    omega
  | case6 escaped word c line _ _ k _ ih => exact (ih h).trans_eq (countP_append_singleton _ _ _)
  | case7 escaped word c line _ _ _ ih =>
    have := ih h
    rw [List.countP_cons]
    simp only [Option.getD_some] at this
    omega
  | case8 escaped word c line _ _ _ hspace ih =>
    obtain ⟨ws', hws', rfl⟩ := Option.map_eq_some_iff.mp h
    have := ih hws'
    rw [List.countP_cons, if_pos hspace]
    cases word with
    | none =>
      simp only [Option.toList_none, List.nil_append]
      omega
    | some word =>
      rw [Option.toList_some, List.singleton_append, spaces_cons]
      simp only [Option.getD_none, List.countP_nil, Option.getD_some] at this ⊢
      omega
  | case9 escaped word c line _ _ _ _ ih => exact (ih h).trans_eq (countP_append_singleton _ _ _)

/-! ## Words with `ESC` in them -/

theorem esc_mem_lex (h : lex q escaped word line = some ws) (hq : ∀ k, q = some k → isquote k = true)
    (hesc : esc ∈ word.getD [] ∨ esc ∈ line) : ∃ w ∈ ws, esc ∈ w := by
  have hcons {word line : CString} {c : CChar} (h : esc ∈ word ∨ esc ∈ c :: line) : esc ∈ word ++ [c] ∨ esc ∈ line := by
    simp only [List.mem_cons, List.mem_append, List.not_mem_nil, or_false] at h ⊢
    tauto
  have hskip {word line : CString} {c : CChar} (hc : c ≠ esc) (h : esc ∈ word ∨ esc ∈ c :: line) : esc ∈ word ∨ esc ∈ line := by
    simpa [Ne.symm hc] using h
  fun_induction lex q escaped word line generalizing ws with
  | case1 escaped word =>
    cases h
    cases word with
    | none => simp at hesc
    | some word => exact ⟨word, by simp, by simpa using hesc⟩
  | case2 => cases h
  | case3 q word c line ih => exact ih h hq (hcons hesc)
  | case4 q escaped word line _ ih => exact ih h hq (hskip (by decide) hesc)
  | case5 escaped word line _ k _ ih =>
    exact ih h (fun k hk => by cases hk) (hskip (ne_esc_of_isquote (hq k rfl)) hesc)
  | case6 escaped word c line _ _ k _ ih => exact ih h hq (hcons hesc)
  | case7 escaped word c line _ _ hc ih =>
    exact ih h (fun k hk => by cases hk; exact hc) (hskip (ne_esc_of_isquote hc) hesc)
  | case8 escaped word c line _ _ _ hspace ih =>
    obtain ⟨ws', hws', rfl⟩ := Option.map_eq_some_iff.mp h
    rcases hskip (ne_esc_of_isspace hspace) hesc with hword | hline
    · cases word with
      | none => cases hword
      | some word => exact ⟨word, by simp, hword⟩
    · obtain ⟨w, hw, hmem⟩ := ih hws' (fun k hk => by cases hk) (.inr hline)
      exact ⟨w, List.mem_append_right _ hw, hmem⟩
  | case9 escaped word c line _ _ _ _ ih => exact ih h hq (hcons hesc)

theorem esc_not_mem_segments (f : Quotes) (quoted : Bool) (seg line : CString) : ∀ arg ∈ segments f quoted seg line, esc ∉ arg := by
  have hcontent (quoted : Bool) (seg : CString) : esc ∉ content quoted seg := by simp [content]
  induction line generalizing f quoted seg with
  | nil => simpa [segments] using hcontent quoted seg
  | cons c line ih =>
    rw [segments]
    split
    · rw [List.forall_mem_cons]
      exact ⟨hcontent quoted seg, ih _ _ _⟩
    · exact ih _ _ _

/-! ## The whole line -/

/-- A line without `ESC` and with no white space at its end. -/
structure Clean (line : CString) : Prop where
  esc : esc ∉ line
  last : ∀ c, line.getLast? = some c → isspace c = false

theorem Clean.tail {c : CChar} (h : Clean (c :: line)) : Clean line where
  esc := fun hesc => h.esc (List.mem_cons_of_mem _ hesc)
  last := fun x hx => h.last x (by rw [List.getLast?_cons, hx]; rfl)

theorem Clean.head_ne {c : CChar} (h : Clean (c :: line)) : c ≠ CChar.esc := fun hc => h.esc (hc ▸ List.mem_cons_self)

/-- Shorter lines are settled. -/
def SettledBelow (n : Nat) : Prop := ∀ line ws, line.length < n → Clean line → words line = some ws → Settled line ws

/-- The grammar reads a word that has begun to its end. -/
theorem reads_of_lex {n : Nat} (hsettled : SettledBelow n) (h : lex q escaped word line = some ws) (hn : line.length ≤ n)
    (hclean : Clean line) (hq : ∀ k, q = some k → isquote k = true) {begun : CString} (hword : word = some begun) :
    ∃ word ws', ws = (begun ++ word) :: ws' ∧ Reads q escaped line word ws' := by
  fun_induction lex q escaped word line generalizing ws begun with
  | case1 escaped word =>
    subst hword
    cases h
    exact ⟨[], [], by simp, .done⟩
  | case2 => cases h
  | case3 q word c line ih =>
    subst hword
    obtain ⟨word, ws', rfl, hreads⟩ := ih h (Nat.le_of_succ_le hn) hclean.tail hq rfl
    exact ⟨c :: word, ws', by simp, .literal hclean.head_ne hreads⟩
  | case4 q escaped word line hesc ih =>
    obtain rfl : escaped = false := by simpa using hesc
    obtain ⟨word', ws', rfl, hreads⟩ := ih h (Nat.le_of_succ_le hn) hclean.tail hq hword
    exact ⟨word', ws', rfl, .backslash hreads⟩
  | case5 escaped word line hesc k _ ih =>
    obtain rfl : escaped = false := by simpa using hesc
    obtain ⟨word', ws', rfl, hreads⟩ := ih h (Nat.le_of_succ_le hn) hclean.tail (fun k hk => by cases hk) hword
    exact ⟨word', ws', rfl, .closes (hq k rfl) hreads⟩
  | case6 escaped word c line hesc hb k hne ih =>
    obtain rfl : escaped = false := by simpa using hesc
    subst hword
    obtain ⟨word, ws', rfl, hreads⟩ := ih h (Nat.le_of_succ_le hn) hclean.tail hq rfl
    exact ⟨c :: word, ws', by simp, .quoted hclean.head_ne hb hne hreads⟩
  | case7 escaped word c line hesc _ hc ih =>
    obtain rfl : escaped = false := by simpa using hesc
    subst hword
    obtain ⟨word, ws', rfl, hreads⟩ := ih h (Nat.le_of_succ_le hn) hclean.tail (fun k hk => by cases hk; exact hc) rfl
    exact ⟨word, ws', rfl, .opens hc hreads⟩
  | case8 escaped word c line hesc _ _ hspace ih =>
    obtain rfl : escaped = false := by simpa using hesc
    subst hword
    obtain ⟨ws', hws', rfl⟩ := Option.map_eq_some_iff.mp h
    exact ⟨[], ws', by simp, .space hspace (hsettled line ws' hn hclean.tail hws')⟩
  | case9 escaped word c line hesc hb hc hspace ih =>
    obtain rfl : escaped = false := by simpa using hesc
    subst hword
    obtain ⟨word, ws', rfl, hreads⟩ := ih h (Nat.le_of_succ_le hn) hclean.tail hq rfl
    exact ⟨c :: word, ws', by simp, .plain hclean.head_ne hb (by simpa using hc) (by simpa using hspace) hreads⟩

theorem off_next_of_isquote {c : CChar} (h : isquote c = true) : Quotes.off.next c = within c false false := by
  rcases isquote_iff.mp h with rfl | rfl <;> rfl

/-- White space where a word should begin: the grammar goes on to the next word, and `split_cmd` has an empty argument before it. -/
theorem segments_ne_of_isspace {c : CChar} (hclean : Clean (c :: line)) (h : words (c :: line) = some ws) (hc : isspace c = true) :
    segments .off false [] (c :: line) ≠ ws := by
  have hq : isquote c = false := by
    by_contra hq
    simp [isspace_of_isquote (by simpa using hq)] at hc
  have hlex : lex none false none line = some ws := by
    simpa [words, lex, ne_backslash_of_isspace hc, hq, hc] using h
  have hle := spaces_lex hlex
  have heq : spaces (segments .off false [] (c :: line)) = [].countP (isspace ·) + (c :: line).countP (isspace ·) + 1 :=
    spaces_segments ⟨fun x hx => (by cases hx), fun x hx => (by cases hx), fun _ => rfl⟩ hclean.last
  rw [List.countP_cons, if_pos hc] at heq
  rintro rfl
  simp only [Option.getD_none, List.countP_nil] at hle heq
  omega

/-! The first word of a line, by its first character. -/

theorem settled_quote {c : CChar} (hsettled : SettledBelow (line.length + 1)) (hclean : Clean (c :: line))
    (h : words (c :: line) = some ws) (hc : isquote c = true) : Settled (c :: line) ws := by
  have hlex : lex (some c) false (some []) line = some ws := by
    simpa [words, lex, ne_backslash_of_isquote hc, hc] using h
  obtain ⟨word, ws', rfl, hreads⟩ := reads_of_lex hsettled hlex (Nat.le_succ _) hclean.tail (fun k hk => by cases hk; exact hc) rfl
  obtain ⟨hpart, hhas, hbehind⟩ := part_quote (f := .off) (l := line) rfl hc
  rw [off_next_of_isquote hc] at hpart hbehind
  rw [Settled, segments_eq, Bool.false_or, List.nil_append, hpart, hhas, hbehind, content_true_cons, List.cons.injEq, List.nil_append,
    Simple, if_neg (by simp [isspace_of_isquote hc]), if_pos hc]
  exact quoted_iff hreads rfl hc rfl

theorem settled_backslash (hsettled : SettledBelow (line.length + 1)) (hclean : Clean (backslash :: line))
    (h : words (backslash :: line) = some ws) : Settled (backslash :: line) ws := by
  obtain ⟨hpart, hhas, hbehind⟩ := part_backslash (f := .off) (l := line) rfl
  rw [Settled, segments_eq, Bool.false_or, List.nil_append, hpart, hhas, hbehind, Simple, if_neg (by decide), if_neg (by decide), if_pos rfl]
  cases line with
  | nil =>
    -- The grammar has no word here, and `split_cmd` an empty one.
    cases h
    simp
  | cons c line =>
    have hlex : lex none true (some []) (c :: line) = some ws := h
    obtain ⟨word, ws', rfl, hreads⟩ := reads_of_lex hsettled hlex (Nat.le_succ _) hclean.tail (fun k hk => by cases hk) rfl
    rw [List.cons.injEq]
    simp only [ne_eq, reduceCtorEq, not_false_eq_true, decide_true, Bool.true_and]
    exact start_iff hreads rfl (fun c hc => by cases hc)

theorem settled_plain {c : CChar} (hsettled : SettledBelow (line.length + 1)) (hclean : Clean (c :: line))
    (h : words (c :: line) = some ws) (hspace : isspace c = false) (hquote : isquote c = false) (hback : c ≠ backslash) :
    Settled (c :: line) ws := by
  have hlex : lex none false (some [c]) line = some ws := by
    simpa [words, lex, hback, hquote, hspace] using h
  obtain ⟨word, ws', rfl, hreads⟩ := reads_of_lex hsettled hlex (Nat.le_succ _) hclean.tail (fun k hk => by cases hk) rfl
  obtain ⟨hpart, hhas, hbehind⟩ := part_plain (f := .off) (l := line) rfl (ends_eq_false_of_isspace hspace) hback hquote
  rw [Settled, segments_eq, Bool.false_or, List.nil_append, hpart, hhas, hbehind, List.cons.injEq, Simple, if_neg (by simp [hspace]),
    if_neg (by simp [hquote]), if_neg hback]
  exact start_iff hreads (strip_cons hclean.head_ne []) (by simpa using hquote)

theorem settled {line : CString} {ws : List CString} (hclean : Clean line) (h : words line = some ws) : Settled line ws := by
  induction hn : line.length using Nat.strong_induction_on generalizing line ws with
  | _ n ih =>
    subst hn
    cases line with
    | nil =>
      cases h
      simp [Settled, segments, Simple]
    | cons c line =>
      have hsettled : SettledBelow (line.length + 1) := fun _ _ hlt hclean' h' => ih _ hlt hclean' h' rfl
      by_cases hspace : isspace c = true
      · simp [Settled, segments_ne_of_isspace hclean h hspace, Simple, hspace]
      by_cases hquote : isquote c = true
      · exact settled_quote hsettled hclean h hquote
      by_cases hback : c = backslash
      · subst hback
        exact settled_backslash hsettled hclean h
      · exact settled_plain hsettled hclean h (by simpa using hspace) (by simpa using hquote) hback

end

end ShellAux

end Kos
