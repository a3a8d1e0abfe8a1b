import Kos.Params

/-!
# The parameters of a command line

`parse_params` cuts the buffer that it still reads. It does what calling the handlers for the tokens of the unchanged string, one after
the other, does (`parseParams_calls`).
-/

namespace Kos

open CChar

/-- `'='`. -/
def CChar.equals : CChar := ⟨61, by decide⟩

/-- The maximal runs of characters that are not blanks. -/
def tokens (cmdline : CString) : List CString := (cmdline.splitOnP (· = space)).filter (· ≠ [])

/-- The part of a token before its first `'='` that is not its first character. -/
def tokenName : CString → CString
  | [] => []
  | c :: token => c :: token.takeWhile (· ≠ equals)

/-- Everything after that `'='`, if there is one. -/
def tokenValue : CString → Option CString
  | [] => none
  | _ :: token => if equals ∈ token then some (token.dropWhile (· ≠ equals)).tail else none

variable {σ : Type}

/-- The handler of a token: that of the first parameter with its name. -/
def callToken (params : List (Parameter σ)) (token : CString) (s : σ) : Int × σ :=
  match params.find? (·.name = tokenName token) with
  | some p => p.func (tokenValue token) s
  | none => (-enoent, s)

/-- The handlers of tokens are called one after the other, up to the first error if errors count. -/
def callTokens (params : List (Parameter σ)) (noerror : Bool) : List CString → σ → Int × σ
  | [], s => (0, s)
  | token :: rest, s =>
    let (err, s) := callToken params token s
    if err ≠ 0 ∧ noerror then (err, s) else callTokens params noerror rest s

/-- The bytes of a string, without its NUL. -/
def CString.bytes (s : CString) : List UInt8 := s.map fun c => c.1

@[simp] theorem CString.bytes_append (s t : CString) : CString.bytes (s ++ t) = s.bytes ++ t.bytes := List.map_append

@[simp] theorem CString.bytes_cons (c : CChar) (s : CString) : CString.bytes (c :: s) = c.1 :: s.bytes := rfl

@[simp] theorem CString.length_bytes (s : CString) : s.bytes.length = s.length := List.length_map ..

namespace ParamsAux

/-! ## Tokens -/

theorem tokens_blank (s : CString) : tokens (space :: s) = tokens s := by
  have hsplit : ([] ++ space :: s).splitOnP (· = space) = [] :: s.splitOnP (· = space) :=
    List.splitOnP_append_cons_of_forall_mem (by simp) space (by simp) s
  rw [tokens, tokens, ← List.nil_append (space :: s), hsplit]
  rfl

theorem not_blank {t : CString} (h : space ∉ t) : ∀ c ∈ t, decide (c = space) = false := by
  intro c hc
  exact decide_eq_false fun hblank => h (hblank ▸ hc)

theorem tokens_token {t : CString} (hne : t ≠ []) (ht : space ∉ t) (s : CString) : tokens (t ++ space :: s) = t :: tokens s := by
  rw [tokens, List.splitOnP_append_cons_of_forall_mem (not_blank ht) space (by simp) s, List.filter_cons_of_pos (by simpa using hne)]
  rfl

theorem tokens_last {t : CString} (hne : t ≠ []) (ht : space ∉ t) : tokens t = [t] := by
  rw [tokens, List.splitOnP_eq_singleton (not_blank ht), List.filter_cons_of_pos (by simpa using hne)]
  rfl

theorem tokens_dropWhile (s : CString) : tokens (s.dropWhile (· = space)) = tokens s := by
  induction s with
  | nil => rfl
  | cons c s ih =>
    by_cases hc : c = space
    · rw [List.dropWhile_cons_of_pos (by simpa using hc), ih, hc, tokens_blank]
    · rw [List.dropWhile_cons_of_neg (by simpa using hc)]

/-- A token, and what follows it: nothing, or a blank. -/
theorem tokens_append {t s : CString} (hne : t ≠ []) (ht : space ∉ t) (hs : ∀ c ∈ s.head?, c = space) :
    tokens (t ++ s) = t :: tokens (s.dropWhile (· = space)) := by
  rw [tokens_dropWhile]
  cases s with
  | nil =>
    rw [List.append_nil, tokens_last hne ht]
    rfl
  | cons c s =>
    obtain rfl : c = space := hs c rfl
    rw [tokens_token hne ht, tokens_blank]

/-- The handler of a token is the one that `exec` finds. -/
theorem execParam_eq (params : List (Parameter σ)) (token : CString) (s : σ) :
    execParam (tokenName token) (tokenValue token) params s = callToken params token s := by
  unfold callToken
  induction params with
  | nil => rfl
  | cons p params ih =>
    by_cases h : p.name = tokenName token
    · rw [execParam, if_pos h.symm, List.find?_cons_of_pos (by simpa using h)]
    · rw [execParam, if_neg (Ne.symm h), List.find?_cons_of_neg (by simpa using h)]
      exact ih

/-! ## The buffer -/

theorem stringOf_bytes (s : CString) (post : List UInt8) : stringOf (s.bytes ++ 0 :: post) = some s := by
  induction s with
  | nil => rfl
  | cons c s ih =>
    rw [CString.bytes_cons, List.cons_append, stringOf, dif_neg c.2, ih]
    rfl

variable {buf pre post : List UInt8} {p : Nat}

theorem drop_add (pre : List UInt8) (h : buf.drop p = pre ++ post) : buf.drop (p + pre.length) = post := by
  rw [← List.drop_drop, h, List.drop_left]

theorem getElem?_of_drop {c : UInt8} (h : buf.drop p = c :: post) : buf[p]? = some c := by
  rw [← List.head?_drop, h]
  rfl

/-- A byte behind the bytes at `p` is changed. -/
theorem drop_set {c : UInt8} (c' : UInt8) (h : buf.drop p = pre ++ c :: post) : (buf.set (p + pre.length) c').drop p = pre ++ c' :: post := by
  rw [List.drop_set, if_neg (by omega), h, Nat.add_sub_cancel_left, List.set_append_right _ _ (Nat.le_refl _), Nat.sub_self]
  rfl

/-! ## The loops of `next` -/

/-- The end of a token: the end of the string, or a blank. -/
def IsEnd (d : UInt8) : Prop := d = 0 ∨ d = 32

theorem scanParam_end {d : UInt8} (hd : IsEnd d) (i v : Nat) (post : List UInt8) : scanParam (d :: post) i v = some (i, v) := by
  rcases hd with rfl | rfl <;> rfl

theorem byte_ne_blank {c : CChar} (h : c ≠ space) : c.1 ≠ 32 := fun hc => h (Subtype.ext hc)

/-- After the `'='` only the end of the token counts. -/
theorem scanParam_value {t : CString} {d : UInt8} (ht : space ∉ t) (hd : IsEnd d) (i v : Nat) (hv : v ≠ 0) :
    scanParam (t.bytes ++ d :: post) i v = some (i + t.length, v) := by
  induction t generalizing i with
  | nil => exact scanParam_end hd i v post
  | cons c t ih =>
    rw [List.mem_cons, not_or] at ht
    rw [CString.bytes_cons, List.cons_append, scanParam, if_neg c.2, if_neg (byte_ne_blank (Ne.symm ht.1)),
      if_neg fun h => hv h.1, ih ht.2, List.length_cons]
    congr 2
    omega

/-- Before it, behind the first character. -/
theorem scanParam_name {t : CString} {d : UInt8} (ht : space ∉ t) (hd : IsEnd d) (i : Nat) (hi : i ≠ 0) :
    scanParam (t.bytes ++ d :: post) i 0 =
      some (i + t.length, if equals ∈ t then i + (t.takeWhile (· ≠ equals)).length else 0) := by
  induction t generalizing i with
  | nil => exact scanParam_end hd i 0 post
  | cons c t ih =>
    rw [List.mem_cons, not_or] at ht
    rw [CString.bytes_cons, List.cons_append, scanParam, if_neg c.2, if_neg (byte_ne_blank (Ne.symm ht.1))]
    by_cases hc : c = equals
    · rw [if_pos ⟨rfl, by rw [hc]; rfl⟩, scanParam_value ht.2 hd _ i hi, if_pos (by rw [hc]; exact List.mem_cons_self ..),
        List.takeWhile_cons_of_neg (by simpa using hc), List.length_cons]
      congr 2
      omega
    · rw [if_neg fun h => hc (Subtype.ext h.2), ih ht.2 (i + 1) (Nat.succ_ne_zero i),
        List.takeWhile_cons_of_pos (by simpa using hc)]
      simp only [List.mem_cons, Ne.symm hc, false_or, List.length_cons]
      congr 2
      · omega
      · split <;> omega

theorem skipBlanks_spec (s : CString) (post : List UInt8) (p : Nat) :
    skipBlanks (s.bytes ++ 0 :: post) p = some (p + (s.takeWhile (· = space)).length) := by
  induction s generalizing p with
  | nil => rfl
  | cons c s ih =>
    by_cases hc : c = space
    · rw [CString.bytes_cons, List.cons_append, skipBlanks, if_pos (by rw [hc]; rfl), ih,
        List.takeWhile_cons_of_pos (by simpa using hc), List.length_cons]
      congr 1
      omega
    · rw [CString.bytes_cons, List.cons_append, skipBlanks, if_neg (byte_ne_blank hc),
        List.takeWhile_cons_of_neg (by simpa using hc)]
      rfl

/-- Where the blanks end. -/
theorem drop_blanks {s : CString} (h : buf.drop p = s.bytes ++ 0 :: post) :
    buf.drop (p + (s.takeWhile (· = space)).length) = CString.bytes (s.dropWhile (· = space)) ++ 0 :: post := by
  rw [← List.takeWhile_append_dropWhile (p := (· = space)) (l := s), CString.bytes_append, List.append_assoc] at h
  have hdrop := drop_add _ h
  rwa [CString.length_bytes] at hdrop

/-! ## One parameter -/

/-- A token without an `'='` behind its first character is a name, and the others are a name and a value. -/
theorem token_cases (c : CChar) (t : CString) :
    (tokenValue (c :: t) = none ∧ equals ∉ t ∧ tokenName (c :: t) = c :: t) ∨
      ∃ value, tokenValue (c :: t) = some value ∧ equals ∈ t ∧ c :: t = tokenName (c :: t) ++ equals :: value ∧
        (tokenName (c :: t)).length = 1 + (t.takeWhile (· ≠ equals)).length := by
  by_cases heq : equals ∈ t
  · obtain ⟨name, value, rfl, hname⟩ := List.eq_append_cons_of_mem heq
    have hall : ∀ x ∈ name, decide (x ≠ equals) = true := by
      intro x hx
      exact decide_eq_true fun hx' => hname (hx' ▸ hx)
    have htake : (name ++ equals :: value).takeWhile (· ≠ equals) = name := by
      rw [List.takeWhile_append_of_pos hall, List.takeWhile_cons_of_neg (by simp), List.append_nil]
    have hdrop : (name ++ equals :: value).dropWhile (· ≠ equals) = equals :: value := by
      rw [List.dropWhile_append_of_pos hall, List.dropWhile_cons_of_neg (by simp)]
    refine .inr ⟨value, ?_, heq, ?_, ?_⟩
    · rw [tokenValue, if_pos heq, hdrop]
      rfl
    · rw [tokenName, htake]
      rfl
    · rw [tokenName, List.length_cons, Nat.add_comm]
  · refine .inl ⟨?_, heq, ?_⟩
    · rw [tokenValue, if_neg heq]
    · have hall : ∀ x ∈ t, decide (x ≠ equals) = true := by
        intro x hx
        exact decide_eq_true fun hx' => heq (hx' ▸ hx)
      have htake : (t ++ []).takeWhile (· ≠ equals) = t ++ [].takeWhile (· ≠ equals) := List.takeWhile_append_of_pos hall
      rw [List.append_nil, List.takeWhile_nil, List.append_nil] at htake
      rw [tokenName, htake]

/-- The first loop of `next` finds the end of the token. If the `'='` is replaced then, what stands at the token is its name and, behind
it, its value, once the token itself has a NUL at its end. -/
theorem scan_token {t : CString} {d : UInt8} (hne : t ≠ []) (ht : space ∉ t) (hd : IsEnd d) (h : buf.drop p = t.bytes ++ d :: post) :
    ∃ v val buf₁ cut, scanParam (buf.drop p) 0 0 = some (t.length, v) ∧
      (if v = 0 then (buf, none) else (buf.set (p + v) 0, some (p + v + 1))) = (buf₁, val) ∧
      List.length cut = t.length ∧ buf₁.drop p = cut ++ d :: post ∧
      ∀ buf₂ post₂, buf₂.drop p = cut ++ 0 :: post₂ →
        stringOf (buf₂.drop p) = some (tokenName t) ∧ valueAt buf₂ val = some (tokenValue t) := by
  obtain ⟨c, t, rfl⟩ := List.exists_cons_of_ne_nil hne
  rw [List.mem_cons, not_or] at ht
  have hscan : scanParam (buf.drop p) 0 0 = some ((c :: t).length, if equals ∈ t then 1 + (t.takeWhile (· ≠ equals)).length else 0) := by
    rw [h, CString.bytes_cons, List.cons_append, scanParam, if_neg c.2, if_neg (byte_ne_blank (Ne.symm ht.1)), ite_self,
      scanParam_name ht.2 hd (0 + 1) (by decide), List.length_cons, Nat.zero_add, Nat.add_comm 1 t.length]
  rcases token_cases c t with ⟨hvalue, heq, hname⟩ | ⟨value, hvalue, heq, htoken, hlen⟩
  · rw [if_neg heq] at hscan
    refine ⟨0, none, buf, CString.bytes (c :: t), hscan, rfl, CString.length_bytes _, h, ?_⟩
    intro buf₂ post₂ h₂
    rw [h₂, stringOf_bytes, hname, hvalue]
    exact ⟨rfl, rfl⟩
  · rw [if_pos heq, ← hlen] at hscan
    generalize hn : tokenName (c :: t) = name at hscan htoken hlen
    have hpos : name.length ≠ 0 := by omega
    rw [htoken, CString.bytes_append, CString.bytes_cons, List.append_assoc, List.cons_append] at h
    have hset := drop_set 0 h
    rw [CString.length_bytes] at hset
    refine ⟨name.length, some (p + name.length + 1), buf.set (p + name.length) 0, name.bytes ++ 0 :: value.bytes, hscan,
      if_neg hpos, ?_, ?_, ?_⟩
    · rw [htoken]
      simp
    · rw [hset, List.append_assoc]
      rfl
    · intro buf₂ post₂ h₂
      rw [List.append_assoc, List.cons_append] at h₂
      have hval : buf₂.drop (p + (name.bytes ++ [0]).length) = value.bytes ++ 0 :: post₂ :=
        drop_add _ (by rw [h₂, List.append_assoc]; rfl)
      rw [List.length_append, CString.length_bytes, List.length_singleton, ← Nat.add_assoc] at hval
      rw [h₂, stringOf_bytes, valueAt, hval, stringOf_bytes, hvalue]
      exact ⟨rfl, rfl⟩

/-- What `next` makes of a token that is followed by `s`. -/
theorem nextParam_spec {t s : CString} (hne : t ≠ []) (ht : space ∉ t) (hs : ∀ c ∈ s.head?, c = space)
    (h : buf.drop p = t.bytes ++ (s.bytes ++ 0 :: post)) :
    ∃ r, nextParam buf p = some r ∧ stringOf (r.buf.drop r.cmd) = some (tokenName t) ∧ valueAt r.buf r.val = some (tokenValue t) ∧
      r.buf.drop r.next = CString.bytes (s.dropWhile (· = space)) ++ 0 :: post := by
  cases s with
  | nil =>
    obtain ⟨v, val, buf₁, cut, hscan, hcut, hlen, hbuf₁, hread⟩ := scan_token hne ht (.inl rfl) h
    obtain ⟨hcmd, hval⟩ := hread buf₁ _ hbuf₁
    have hend := drop_add _ hbuf₁
    rw [hlen] at hend
    refine ⟨⟨p, val, p + t.length, buf₁⟩, ?_, hcmd, hval, hend⟩
    simp [nextParam, hscan, hcut, getElem?_of_drop hend, hend, skipBlanks]
  | cons c s =>
    obtain rfl : c = space := hs c rfl
    have h' : buf.drop p = t.bytes ++ 32 :: (CString.bytes s ++ 0 :: post) := h
    obtain ⟨v, val, buf₁, cut, hscan, hcut, hlen, hbuf₁, hread⟩ := scan_token hne ht (.inr rfl) h'
    have hend := drop_add _ hbuf₁
    have hbuf₂ := drop_set 0 hbuf₁
    obtain ⟨hcmd, hval⟩ := hread _ _ hbuf₂
    have hrest : (buf₁.set (p + cut.length) 0).drop (p + (cut ++ [0]).length) = CString.bytes s ++ 0 :: post :=
      drop_add _ (by rw [hbuf₂, List.append_assoc]; rfl)
    rw [hlen] at hend hcmd hval hrest
    rw [List.length_append, List.length_singleton, hlen, ← Nat.add_assoc] at hrest
    have hskip := skipBlanks_spec s post (p + t.length + 1)
    rw [← hrest] at hskip
    refine ⟨⟨p, val, p + t.length + 1 + (List.takeWhile (· = space) s).length, buf₁.set (p + t.length) 0⟩, ?_, hcmd, hval,
      drop_blanks hrest⟩
    simp [nextParam, hscan, hcut, getElem?_of_drop hend, hskip]

/-! ## All parameters -/

/-- A string that does not begin with a blank begins with a token. -/
theorem exists_token {s : CString} (hne : s ≠ []) (hs : space ∉ s.head?) :
    ∃ t s', s = t ++ s' ∧ t ≠ [] ∧ space ∉ t ∧ ∀ c ∈ s'.head?, c = space := by
  refine ⟨s.takeWhile (· ≠ space), s.dropWhile (· ≠ space), List.takeWhile_append_dropWhile.symm, ?_, ?_, ?_⟩
  · obtain ⟨c, s, rfl⟩ := List.exists_cons_of_ne_nil hne
    have hc : c ≠ space := fun hc => hs (by rw [hc]; rfl)
    rw [List.takeWhile_cons_of_pos (by simpa using hc)]
    exact List.cons_ne_nil _ _
  · intro hmem
    simpa using List.all_eq_true.mp List.all_takeWhile space hmem
  · intro c hc
    have hhead := List.head?_dropWhile_not (· ≠ space) s
    rw [Option.mem_def.mp hc] at hhead
    simpa using hhead

theorem head?_dropWhile_blank (s : CString) : space ∉ (s.dropWhile (· = space)).head? := by
  intro hmem
  have hhead := List.head?_dropWhile_not (· = space) s
  rw [Option.mem_def.mp hmem] at hhead
  simp at hhead

theorem parseFrom_spec (params : List (Parameter σ)) (noerror : Bool) (n : Nat) {s : CString} (hn : s.length < n)
    (hs : space ∉ s.head?) (h : buf.drop p = s.bytes ++ 0 :: post) (st : σ) :
    ∃ buf', parseFrom params noerror n buf p st =
      some ((callTokens params noerror (tokens s) st).1, (callTokens params noerror (tokens s) st).2, buf') := by
  induction n generalizing s buf p st with
  | zero => exact absurd hn (Nat.not_lt_zero _)
  | succ n ih =>
    by_cases hnil : s = []
    · subst hnil
      have hend : buf[p]? = some 0 := getElem?_of_drop h
      exact ⟨buf, by simp [parseFrom, hend, tokens, callTokens]⟩
    · have hfirst : ∃ c : CChar, buf[p]? = some c.1 := by
        obtain ⟨c, s, rfl⟩ := List.exists_cons_of_ne_nil hnil
        exact ⟨c, getElem?_of_drop h⟩
      obtain ⟨c, hc⟩ := hfirst
      obtain ⟨t, s', rfl, hne, ht, hs'⟩ := exists_token hnil hs
      rw [CString.bytes_append, List.append_assoc] at h
      obtain ⟨r, hnext, hcmd, hval, hrest⟩ := nextParam_spec hne ht hs' h
      have hstep : parseFrom params noerror (n + 1) buf p st =
          if (callToken params t st).1 ≠ 0 ∧ noerror then some ((callToken params t st).1, (callToken params t st).2, r.buf)
          else parseFrom params noerror n r.buf r.next (callToken params t st).2 := by
        simp only [parseFrom, hc, hnext, hcmd, hval, Option.bind_eq_bind, Option.bind_some, if_neg c.2, execParam_eq]
      have hcalls : callTokens params noerror (tokens (t ++ s')) st =
          if (callToken params t st).1 ≠ 0 ∧ noerror then callToken params t st
          else callTokens params noerror (tokens (s'.dropWhile (· = space))) (callToken params t st).2 := by
        rw [tokens_append hne ht hs']
        rfl
      rw [hstep, hcalls]
      by_cases hstop : (callToken params t st).1 ≠ 0 ∧ noerror
      · rw [if_pos hstop, if_pos hstop]
        exact ⟨r.buf, rfl⟩
      · rw [if_neg hstop, if_neg hstop]
        have hshort : (s'.dropWhile (· = space)).length ≤ s'.length := (List.dropWhile_sublist _).length_le
        have hlen : (t ++ s').length = t.length + s'.length := List.length_append
        have hpos := List.length_pos_iff.mpr hne
        exact ih (by omega) (head?_dropWhile_blank s') hrest _

end ParamsAux

open ParamsAux

/-- For every command line (with any bytes behind its NUL), every table and every handler: `parse_params` ends, and it returns what
calling the handlers of the tokens of the string, in their order, returns and leaves. Any number of rounds that is greater than the
length of the string is enough. -/
theorem parseParams_calls (cmdline : CString) (post : List UInt8) (params : List (Parameter σ)) (noerror : Bool) (s : σ)
    (rounds : Nat) (hrounds : cmdline.length < rounds) :
    (parseParams (cmdline.bytes ++ 0 :: post) params noerror s rounds).map (fun r => (r.1, r.2.1)) =
      some (callTokens params noerror (tokens cmdline) s) := by
  have hstart := drop_blanks (show (cmdline.bytes ++ 0 :: post).drop 0 = cmdline.bytes ++ 0 :: post from rfl)
  have hshort : (List.dropWhile (· = space) cmdline).length ≤ cmdline.length := (List.dropWhile_sublist _).length_le
  obtain ⟨buf', hparse⟩ := parseFrom_spec params noerror rounds (by omega) (head?_dropWhile_blank cmdline) hstart s
  rw [tokens_dropWhile] at hparse
  simp only [parseParams, skipBlanks_spec, Option.bind_eq_bind, Option.bind_some, hparse, Option.map_some]

/-- A table whose handlers note their calls. -/
def notingParams : List (Parameter (List (CString × Option CString))) :=
  [⟨[a], fun val log => (0, log ++ [([a], val)])⟩, ⟨[b], fun val log => (0, log ++ [([b], val)])⟩]

/-- `" a=b=a  b =a a"`: the third token has no `'='` behind its first character, and is not in the table. -/
theorem parseParams_noted :
    (parseParams (CString.bytes [space, a, equals, b, equals, a, space, space, b, space, equals, a, space, a] ++ [0])
      notingParams true [] 15).map (fun r => (r.1, r.2.1)) = some (-2, [([a], some [b, equals, a]), ([b], none)]) :=
  (parseParams_calls [space, a, equals, b, equals, a, space, space, b, space, equals, a, space, a] [] notingParams true [] 15
    (by decide)).trans (by decide)

end Kos
