import Mathlib.Data.List.Basic
import Kos.Tty.Input

/-!
# What keys and reads do to the input buffer

The first `incount` bytes of `inbuf` are a list (`Tty.content`). A key edits its end, a read takes bytes from its front. In the normal
mode `eotcount` is the number of NULs in it, so that a read that is answered finds the end of a line.
-/

namespace Kos

/-- What is in the input buffer. -/
def Tty.content (tty : Tty) : List UInt8 := tty.bytes tty.incount

/-- What a key that is stored makes of the contents. -/
def edited (raw : Bool) (l : List UInt8) (c : UInt8) : List UInt8 :=
  if raw = true then l ++ [c]
  else if c = 10 then l ++ [10, 0]
  else if c = eot then l ++ [0]
  else if c = 8 then l.dropLast
  else l ++ [c]

/-- What holds of a terminal in every state. -/
structure InputOk (tty : Tty) : Prop where
  count : tty.incount ≤ ttyInbufSize
  eots : tty.isRaw = false → tty.eotcount = tty.content.count 0

/-- The answer to a read in the normal mode: a line, with the NUL at its end. -/
def Answer.IsLine (a : Answer) : Prop := ∃ line, a.data = line ++ [0] ∧ 0 ∉ line ∧ a.result = line.length

/-- The first of the reads were answered with the first of the bytes, and the others are left in a terminal. -/
structure Delivers (rqs : List Request) (bytes : List UInt8) (as : List Answer) (tty : Tty) : Prop where
  requests : rqs = as.map Answer.request ++ tty.requests
  bytes : bytes = as.flatMap Answer.data ++ tty.content

/-- The key is not a `'\n'` for which `inbuf` has only one place left. -/
def LineFits (tty : Tty) (c : UInt8) : Prop := ¬(c = 10 ∧ tty.isRaw = false ∧ tty.incount = ttyInbufSize - 1)

instance (tty : Tty) (c : UInt8) : Decidable (LineFits tty c) := inferInstanceAs (Decidable ¬_)

namespace TtyAux

variable {tty tty' : Tty} {c : UInt8}

@[simp] theorem length_bytes (tty : Tty) (n : Nat) : (tty.bytes n).length = n := by simp [Tty.bytes]

@[simp] theorem length_content (tty : Tty) : tty.content.length = tty.incount := length_bytes tty _

theorem bytes_succ (tty : Tty) (n : Nat) : tty.bytes (n + 1) = tty.bytes n ++ [tty.inbuf n] := by
  simp [Tty.bytes, List.range_succ]

theorem bytes_congr {n : Nat} (h : ∀ i < n, tty'.inbuf i = tty.inbuf i) : tty'.bytes n = tty.bytes n := by
  unfold Tty.bytes
  refine List.map_congr_left ?_
  intro i hi
  exact h i (List.mem_range.mp hi)

theorem isRaw_congr (h : tty'.flags = tty.flags) : tty'.isRaw = tty.isRaw := by
  unfold Tty.isRaw
  rw [h]

/-- The lines are not more than the bytes. -/
theorem eotcount_le (h : InputOk tty) (hraw : tty.isRaw = false) : tty.eotcount ≤ tty.incount := by
  rw [h.eots hraw, ← length_content tty]
  exact List.count_le_length

theorem count_zero_singleton (hc : c ≠ 0) : [c].count 0 = 0 := List.count_eq_zero.mpr (by simpa using Ne.symm hc)

/-- Bytes were added that fit. -/
theorem inputOk_append {bs : List UInt8} (h : InputOk tty) (hcontent : tty'.content = tty.content ++ bs)
    (hfit : tty.incount + bs.length ≤ ttyInbufSize) (hflags : tty'.flags = tty.flags)
    (heot : tty.isRaw = false → tty'.eotcount = tty.eotcount + bs.count 0) : InputOk tty' := by
  refine ⟨?_, ?_⟩
  · rw [← length_content, hcontent, List.length_append, length_content]
    exact hfit
  · intro hraw
    rw [isRaw_congr hflags] at hraw
    rw [heot hraw, h.eots hraw, hcontent, List.count_append]

/-! ## Keys -/

theorem store_spec (tty : Tty) (c : UInt8) (h : tty.incount < ttyInbufSize) :
    ∃ tty', tty.store c = .ok tty' ∧ tty'.content = tty.content ++ [c] ∧ tty'.incount = tty.incount + 1 ∧
      tty'.eotcount = tty.eotcount ∧ tty'.flags = tty.flags ∧ tty'.requests = tty.requests := by
  have hnext : w32 (tty.incount + 1) = tty.incount + 1 := w32_of_lt (by simp only [ttyInbufSize] at h; omega)
  refine ⟨_, if_pos h, ?_, hnext, rfl, rfl, rfl⟩
  show Tty.bytes _ (w32 (tty.incount + 1)) = _
  rw [hnext, bytes_succ]
  congr 1
  · refine bytes_congr ?_
    intro i hi
    exact Function.update_of_ne (Nat.ne_of_lt hi) ..
  · simp

theorem store_full (tty : Tty) (c : UInt8) (h : tty.incount = ttyInbufSize) : tty.store c = .error (.store ttyInbufSize) := by
  rw [Tty.store, if_neg (by rw [h]; exact Nat.lt_irrefl _), h]

/-- An ordinary character. -/
theorem addInput_spec (c : UInt8) (h : tty.incount < ttyInbufSize) :
    ∃ tty', addInput tty c = .ok tty' ∧ tty'.content = tty.content ++ [c] ∧ tty'.eotcount = tty.eotcount ∧
      tty'.flags = tty.flags ∧ tty'.requests = tty.requests := by
  unfold addInput
  split_ifs
  · obtain ⟨tty', hstore, hcontent, -, heot, hflags, hrequests⟩ :=
      store_spec { tty with screen := (tty.screen.putc c).scrollToBottom } c h
    exact ⟨tty', hstore, hcontent, heot, hflags, hrequests⟩
  · obtain ⟨tty', hstore, hcontent, -, heot, hflags, hrequests⟩ := store_spec tty c h
    exact ⟨tty', hstore, hcontent, heot, hflags, hrequests⟩

/-- The end of a line. -/
theorem endLine_spec (h : tty.incount < ttyInbufSize) (heot : tty.eotcount ≤ ttyInbufSize) :
    ∃ tty', endLine tty = .ok tty' ∧ tty'.content = tty.content ++ [0] ∧ tty'.eotcount = tty.eotcount + 1 ∧
      tty'.flags = tty.flags ∧ tty'.requests = tty.requests := by
  obtain ⟨tty', hstore, hcontent, -, heot', hflags, hrequests⟩ :=
    store_spec { tty with eotcount := w32 (tty.eotcount + 1) } 0 h
  refine ⟨tty', hstore, hcontent, heot'.trans ?_, hflags, hrequests⟩
  exact w32_of_lt (by simp only [ttyInbufSize] at heot; omega)

/-- The last byte is erased, which may be the end of a line. -/
theorem erase_spec (h : InputOk tty) (hraw : tty.isRaw = false) (hcount : 0 < tty.incount) :
    ∃ tty', handleCbreakInput tty 8 = .ok (some tty') ∧ tty'.content = tty.content.dropLast ∧ InputOk tty' ∧
      tty'.flags = tty.flags ∧ tty'.requests = tty.requests := by
  have hlast : tty.incount - 1 < ttyInbufSize := Nat.lt_of_lt_of_le (Nat.sub_lt hcount Nat.one_pos) h.count
  have hcontent : tty.content = tty.bytes (tty.incount - 1) ++ [tty.inbuf (tty.incount - 1)] := by
    rw [← bytes_succ, Nat.sub_add_cancel hcount]
    rfl
  refine ⟨{ tty.putc 8 with
      eotcount := if tty.inbuf (tty.incount - 1) = 0 then sub32 tty.eotcount 1 else tty.eotcount
      incount := tty.incount - 1 }, ?_, ?_, ⟨Nat.le_of_lt hlast, ?_⟩, rfl, rfl⟩
  · rw [handleCbreakInput, if_neg (by decide), if_neg (by decide), if_pos rfl, if_pos hcount, if_pos hlast]
    rfl
  · rw [hcontent, List.dropLast_concat]
    rfl
  · intro _
    have heots := h.eots hraw
    have hle := eotcount_le h hraw
    have hsize := h.count
    rw [hcontent, List.count_append] at heots
    show (if tty.inbuf (tty.incount - 1) = 0 then sub32 tty.eotcount 1 else tty.eotcount) = (tty.bytes (tty.incount - 1)).count 0
    split_ifs with hzero
    · rw [hzero, List.count_singleton_self] at heots
      rw [sub32_of_le (by omega) (by simp only [ttyInbufSize] at hsize; omega), heots, Nat.add_sub_cancel]
    · rw [count_zero_singleton hzero] at heots
      exact heots

/-- A line that fits. -/
theorem line_spec (h : InputOk tty) (hraw : tty.isRaw = false) (hfit : tty.incount + 2 ≤ ttyInbufSize) :
    ∃ tty', handleCbreakInput tty 10 = .ok (some tty') ∧ tty'.content = tty.content ++ [10, 0] ∧ InputOk tty' ∧
      tty'.flags = tty.flags ∧ tty'.requests = tty.requests := by
  have hle := eotcount_le h hraw
  obtain ⟨tty₁, hstore, hcontent₁, hcount₁, heot₁, hflags₁, hrequests₁⟩ := store_spec (tty.putc 10) 10 (Nat.lt_of_succ_lt hfit)
  have heot₁' : tty₁.eotcount = tty.eotcount := heot₁
  have hcount₁' : tty₁.incount = tty.incount + 1 := hcount₁
  have hlt₁ : tty₁.incount < ttyInbufSize := by omega
  obtain ⟨tty₂, hend, hcontent₂, heot₂, hflags₂, hrequests₂⟩ := endLine_spec hlt₁ (by omega)
  have hcontent : tty₂.content = tty.content ++ [10, 0] := by
    rw [hcontent₂, hcontent₁, List.append_assoc]
    rfl
  have hflags : tty₂.flags = tty.flags := hflags₂.trans hflags₁
  refine ⟨tty₂, ?_, hcontent, inputOk_append h hcontent hfit hflags ?_, hflags, hrequests₂.trans hrequests₁⟩
  · rw [handleCbreakInput, if_pos rfl, hstore]
    show ((endLine tty₁).bind fun tty => .ok (some tty)) = _
    rw [hend]
    rfl
  · intro _
    rw [heot₂, heot₁']
    rfl

/-- The NUL of a line that ends at the last place of the buffer is stored behind it. -/
theorem line_full (h : tty.incount = ttyInbufSize - 1) : handleCbreakInput tty 10 = .error (.store ttyInbufSize) := by
  obtain ⟨tty₁, hstore, -, hcount₁, -⟩ := store_spec (tty.putc 10) 10 (by rw [Tty.putc, h]; decide)
  have hfault : endLine tty₁ = .error (.store ttyInbufSize) :=
    store_full { tty₁ with eotcount := w32 (tty₁.eotcount + 1) } 0 (hcount₁.trans (by rw [Tty.putc, h]; rfl))
  rw [handleCbreakInput, if_pos rfl, hstore]
  show ((endLine tty₁).bind fun tty => .ok (some tty)) = _
  rw [hfault]
  rfl

/-- What a key does in the normal mode, if it is not a line that ends at the last place of the buffer. -/
theorem editInput_normal (h : InputOk tty) (hraw : tty.isRaw = false) (hc : c ≠ 0) (hfull : tty.incount < ttyInbufSize)
    (hline : LineFits tty c) :
    ∃ tty', editInput tty c = .ok tty' ∧ tty'.content = edited false tty.content c ∧ InputOk tty' ∧ tty'.flags = tty.flags ∧
      tty'.requests = tty.requests := by
  have hle := eotcount_le h hraw
  have hdone : ∀ {tty'}, handleCbreakInput tty c = .ok (some tty') → editInput tty c = .ok tty' := by
    intro tty' hcbreak
    rw [editInput, if_neg (by rw [hraw]; decide), hcbreak]
    rfl
  by_cases h10 : c = 10
  · subst h10
    have hfit : tty.incount + 2 ≤ ttyInbufSize := by
      simp only [LineFits, hraw, ttyInbufSize, true_and] at hfull hline ⊢
      omega
    obtain ⟨tty', hcbreak, hrest⟩ := line_spec h hraw hfit
    exact ⟨tty', hdone hcbreak, hrest⟩
  by_cases heot : c = eot
  · subst heot
    obtain ⟨tty', hend, hcontent, heot', hflags, hrequests⟩ := endLine_spec hfull (by omega)
    refine ⟨tty', hdone ?_, hcontent, inputOk_append h hcontent hfull hflags fun _ => heot', hflags, hrequests⟩
    rw [handleCbreakInput, if_neg h10, if_pos rfl, hend]
    rfl
  by_cases h8 : c = 8
  · subst h8
    by_cases hcount : 0 < tty.incount
    · obtain ⟨tty', hcbreak, hrest⟩ := erase_spec h hraw hcount
      exact ⟨tty', hdone hcbreak, hrest⟩
    · have hnil : tty.content = [] := List.length_eq_zero_iff.mp (by rw [length_content]; omega)
      refine ⟨tty, hdone ?_, ?_, h, rfl, rfl⟩
      · rw [handleCbreakInput, if_neg h10, if_neg heot, if_pos rfl, if_neg hcount]
      · rw [hnil]
        rfl
  · obtain ⟨tty', hadd, hcontent, heot', hflags, hrequests⟩ := addInput_spec c hfull
    refine ⟨tty', ?_, ?_, inputOk_append h hcontent hfull hflags fun _ => ?_, hflags, hrequests⟩
    · rw [editInput, if_neg (by rw [hraw]; decide), handleCbreakInput, if_neg h10, if_neg heot, if_neg h8]
      exact hadd
    · simp only [edited, h10, heot, h8, if_false, hcontent, Bool.false_eq_true]
    · rw [heot', count_zero_singleton hc]
      rfl

/-- In the raw mode every key is stored. -/
theorem editInput_raw (h : InputOk tty) (hraw : tty.isRaw = true) (hfull : tty.incount < ttyInbufSize) :
    ∃ tty', editInput tty c = .ok tty' ∧ tty'.content = edited true tty.content c ∧ InputOk tty' ∧ tty'.flags = tty.flags ∧
      tty'.requests = tty.requests := by
  obtain ⟨tty', hadd, hcontent, heot', hflags, hrequests⟩ := addInput_spec c hfull
  refine ⟨tty', ?_, hcontent, inputOk_append h hcontent hfull hflags ?_, hflags, hrequests⟩
  · rw [editInput, if_pos hraw]
    exact hadd
  · intro hnormal
    cases hraw.symm.trans hnormal

theorem editInput_spec (h : InputOk tty) (hc : c ≠ 0) (hfull : tty.incount < ttyInbufSize) (hline : LineFits tty c) :
    ∃ tty', editInput tty c = .ok tty' ∧ tty'.content = edited tty.isRaw tty.content c ∧ InputOk tty' ∧ tty'.flags = tty.flags ∧
      tty'.requests = tty.requests := by
  cases hraw : tty.isRaw with
  | true => exact editInput_raw h hraw hfull
  | false => exact editInput_normal h hraw hc hfull hline

/-! ## Reads -/

/-- The bytes in front are removed, and the others keep their order. -/
theorem removeData_spec (count : Nat) {n : Nat} (h : tty.incount ≤ ttyInbufSize) (hn : (if tty.isRaw then count else count + 1) = n)
    (hle : n ≤ tty.incount) :
    ∃ tty', removeData tty count = .ok tty' ∧ tty'.content = tty.content.drop n ∧ tty'.incount = tty.incount - n ∧
      tty'.eotcount = (if tty.isRaw then tty.eotcount else sub32 tty.eotcount 1) ∧ tty'.flags = tty.flags ∧
      tty'.requests = tty.requests := by
  have hsub : sub32 tty.incount n = tty.incount - n := sub32_of_le hle (by simp only [ttyInbufSize] at h; omega)
  rw [removeData, hn, if_pos (Nat.le_trans hle h)]
  refine ⟨_, rfl, ?_, hsub, rfl, rfl, rfl⟩
  show Tty.bytes _ (sub32 tty.incount n) = _
  rw [hsub]
  refine List.ext_getElem (by simp) ?_
  intro i hi _
  rw [length_bytes] at hi
  simp only [Tty.bytes, Tty.content, List.getElem_map, List.getElem_range, List.getElem_drop]
  rw [if_pos (by omega), Nat.add_comm]

theorem bytes_eq_take {n : Nat} (h : n ≤ tty.incount) : tty.bytes n = tty.content.take n := by
  refine List.ext_getElem (by simp [h]) ?_
  intro i _ _
  simp [Tty.bytes, Tty.content]

theorem inbuf_eq_getElem {i : Nat} (h : i < tty.content.length) : tty.inbuf i = tty.content[i] := by
  simp [Tty.bytes, Tty.content]

/-- The first line ends at the first NUL. -/
theorem strlen_spec {line rest : List UInt8} (h : tty.incount ≤ ttyInbufSize) (hcontent : tty.content = line ++ 0 :: rest)
    (hline : 0 ∉ line) : tty.strlen = .ok line.length := by
  have hlength : tty.content.length = line.length + (rest.length + 1) := by
    rw [hcontent, List.length_append, List.length_cons]
  have hcount := length_content tty
  have hend : tty.inbuf line.length = 0 := by
    rw [inbuf_eq_getElem (by omega)]
    simp [hcontent]
  have hbefore : ∀ j < line.length, tty.inbuf j ≠ 0 := by
    intro j hj hzero
    rw [inbuf_eq_getElem (by omega)] at hzero
    simp only [hcontent, List.getElem_append_left hj] at hzero
    exact hline (hzero ▸ List.getElem_mem hj)
  have hfind : (List.range ttyInbufSize).find? (fun i => tty.inbuf i == 0) = some line.length := by
    refine List.find?_range_eq_some.mpr ⟨?_, List.mem_range.mpr (by omega), ?_⟩
    · rw [hend]
      rfl
    · intro j hj
      rw [beq_false_of_ne (hbefore j hj)]
      rfl
  rw [Tty.strlen, hfind]

/-- A read that can be answered in the normal mode gets the first line. -/
theorem answer_normal (h : InputOk tty) (hraw : tty.isRaw = false) (rq : Request) (hlines : 0 < tty.eotcount) :
    ∃ a tty', answer tty rq = .ok (a, tty') ∧ a.request = rq ∧ tty.content = a.data ++ tty'.content ∧ InputOk tty' ∧
      tty'.flags = tty.flags ∧ tty'.requests = tty.requests ∧ a.IsLine := by
  have heots := h.eots hraw
  have hsize := h.count
  have hle := eotcount_le h hraw
  obtain ⟨line, rest, hcontent, hline⟩ := List.eq_append_cons_of_mem (List.count_pos_iff.mp (heots ▸ hlines))
  have hlength : tty.incount = line.length + (rest.length + 1) := by
    rw [← length_content, hcontent, List.length_append, List.length_cons]
  have hbytes : tty.bytes line.length = line := by
    rw [bytes_eq_take (by omega), hcontent, List.take_left]
  have hcopy : copyData tty rq.buflen = .ok (line.length, line ++ [0]) := by
    rw [copyData, if_neg (by rw [hraw]; decide), strlen_spec h.count hcontent hline]
    show Except.ok (line.length, tty.bytes line.length ++ [0]) = _
    rw [hbytes]
  obtain ⟨tty', hremove, hcontent', hcount', heot', hflags, hrequests⟩ :=
    removeData_spec line.length (n := line.length + 1) h.count (by rw [hraw]; rfl) (by omega)
  have hrest : tty'.content = rest := by
    rw [hcontent', hcontent, ← List.drop_drop, List.drop_left]
    rfl
  have heots' : tty'.eotcount = rest.count 0 := by
    rw [hcontent, List.count_append, List.count_cons_self, List.count_eq_zero.mpr hline] at heots
    rw [heot', hraw, if_neg (by decide), sub32_of_le hlines (by simp only [ttyInbufSize] at hsize; omega)]
    omega
  refine ⟨⟨rq, line.length, line ++ [0]⟩, tty', ?_, rfl, ?_, ⟨by omega, fun _ => ?_⟩, hflags, hrequests, line, rfl, hline, rfl⟩
  · rw [answer, hcopy]
    show ((removeData tty line.length).bind fun tty => _) = _
    rw [hremove]
    rfl
  · rw [hcontent, hrest, List.append_assoc]
    rfl
  · rw [heots', hrest]

/-- In the raw mode it gets as many bytes as it wants. -/
theorem answer_raw (h : InputOk tty) (hraw : tty.isRaw = true) (rq : Request) (hwanted : rq.buflen ≤ tty.incount) :
    ∃ a tty', answer tty rq = .ok (a, tty') ∧ a.request = rq ∧ tty.content = a.data ++ tty'.content ∧ InputOk tty' ∧
      tty'.flags = tty.flags ∧ tty'.requests = tty.requests := by
  have hsize := h.count
  have hcopy : copyData tty rq.buflen = .ok (rq.buflen, tty.bytes rq.buflen) := by
    rw [copyData, if_pos hraw, if_pos (Nat.le_trans hwanted h.count)]
  obtain ⟨tty', hremove, hcontent', hcount', -, hflags, hrequests⟩ :=
    removeData_spec rq.buflen (n := rq.buflen) h.count (by rw [hraw]; rfl) hwanted
  refine ⟨⟨rq, rq.buflen, tty.bytes rq.buflen⟩, tty', ?_, rfl, ?_, ⟨by omega, ?_⟩, hflags, hrequests⟩
  · rw [answer, hcopy]
    show ((removeData tty rq.buflen).bind fun tty => _) = _
    rw [hremove]
    rfl
  · rw [bytes_eq_take hwanted, hcontent', List.take_append_drop]
  · intro hnormal
    rw [isRaw_congr hflags, hraw] at hnormal
    cases hnormal

theorem answer_spec (h : InputOk tty) (rq : Request) (henough : enoughData tty rq.buflen = true) :
    ∃ a tty', answer tty rq = .ok (a, tty') ∧ a.request = rq ∧ tty.content = a.data ++ tty'.content ∧ InputOk tty' ∧
      tty'.flags = tty.flags ∧ tty'.requests = tty.requests ∧ (tty.isRaw = false → a.IsLine) := by
  unfold enoughData at henough
  cases hraw : tty.isRaw with
  | true =>
    rw [hraw, if_pos rfl] at henough
    obtain ⟨a, tty', hanswer, hrq, hcontent, hok, hflags, hrequests⟩ := answer_raw h hraw rq (of_decide_eq_true henough)
    exact ⟨a, tty', hanswer, hrq, hcontent, hok, hflags, hrequests, nofun⟩
  | false =>
    rw [hraw, if_neg (by decide)] at henough
    obtain ⟨a, tty', hanswer, hrq, hcontent, hok, hflags, hrequests, hline⟩ := answer_normal h hraw rq (of_decide_eq_true henough)
    exact ⟨a, tty', hanswer, hrq, hcontent, hok, hflags, hrequests, fun _ => hline⟩

/-- The reads that are waiting are answered in order, as long as there is enough for the next one. -/
theorem answerRequests_spec (h : InputOk tty) (rqs : List Request) :
    ∃ as tty', answerRequests tty rqs = .ok (as, tty') ∧ Delivers rqs tty.content as tty' ∧ InputOk tty' ∧ tty'.flags = tty.flags ∧
      (tty.isRaw = false → (∀ a ∈ as, a.IsLine) ∧ (tty'.requests ≠ [] → tty'.eotcount = 0)) := by
  induction rqs generalizing tty with
  | nil => exact ⟨[], { tty with requests := [] }, rfl, ⟨rfl, rfl⟩, ⟨h.count, h.eots⟩, rfl, fun _ => ⟨nofun, fun hne => absurd rfl hne⟩⟩
  | cons rq rqs ih =>
    by_cases henough : enoughData tty rq.buflen = true
    · obtain ⟨a, tty₁, hanswer, hrq, hcontent₁, hok₁, hflags₁, -, hline⟩ := answer_spec h rq henough
      obtain ⟨as, tty₂, hrest, hdelivers, hok₂, hflags₂, hlines⟩ := ih hok₁
      refine ⟨a :: as, tty₂, ?_, ⟨?_, ?_⟩, hok₂, hflags₂.trans hflags₁, ?_⟩
      · rw [answerRequests, if_pos henough, hanswer]
        show ((answerRequests tty₁ rqs).bind fun r => _) = _
        rw [hrest]
        rfl
      · rw [List.map_cons, List.cons_append, ← hdelivers.requests, hrq]
      · rw [hcontent₁, hdelivers.bytes, List.flatMap_cons, List.append_assoc]
      · intro hraw
        obtain ⟨hall, hpending⟩ := hlines ((isRaw_congr hflags₁).trans hraw)
        exact ⟨List.forall_mem_cons.mpr ⟨hline hraw, hall⟩, hpending⟩
    · refine ⟨[], { tty with requests := rq :: rqs }, ?_, ⟨rfl, rfl⟩, ⟨h.count, h.eots⟩, rfl, ?_⟩
      · rw [answerRequests, if_neg henough]
      · intro hraw
        refine ⟨nofun, fun _ => ?_⟩
        rw [enoughData, hraw, if_neg (by decide), decide_eq_true_eq] at henough
        show tty.eotcount = 0
        omega

/-! ## Calls -/

/-- A key that is stored. -/
theorem handleInput_spec (h : InputOk tty) (hc : c ≠ 0) (hfull : tty.incount < ttyInbufSize) (heot : ¬(tty.isRaw = true ∧ c = eot))
    (hline : LineFits tty c) :
    ∃ as tty', handleInput tty c = .ok (as, tty') ∧ Delivers tty.requests (edited tty.isRaw tty.content c) as tty' ∧ InputOk tty' ∧
      tty'.flags = tty.flags ∧ (tty.isRaw = false → (∀ a ∈ as, a.IsLine) ∧ (tty'.requests ≠ [] → tty'.eotcount = 0)) := by
  obtain ⟨tty₁, hedit, hcontent, hok₁, hflags₁, hrequests⟩ := editInput_spec h hc hfull hline
  obtain ⟨as, tty', hanswers, hdelivers, hok', hflags', hlines⟩ := answerRequests_spec hok₁ tty₁.requests
  rw [isRaw_congr hflags₁] at hlines
  rw [hrequests, hcontent] at hdelivers
  refine ⟨as, tty', ?_, hdelivers, hok', hflags'.trans hflags₁, hlines⟩
  rw [handleInput, if_neg hc, if_neg (Nat.ne_of_lt hfull), if_neg heot, hedit]
  exact hanswers

/-- A key is handled without a fault, if it is not a line that ends at the last place of the buffer. -/
theorem handleInput_ok (h : InputOk tty) (hline : LineFits tty c) :
    ∃ as tty', handleInput tty c = .ok (as, tty') ∧ InputOk tty' ∧ tty'.flags = tty.flags := by
  by_cases hc : c = 0
  · exact ⟨[], tty, if_pos hc, h, rfl⟩
  by_cases hfull : tty.incount = ttyInbufSize
  · exact ⟨[], tty, by rw [handleInput, if_neg hc, if_pos hfull], h, rfl⟩
  by_cases heot : tty.isRaw = true ∧ c = eot
  · exact ⟨[], tty, by rw [handleInput, if_neg hc, if_neg hfull, if_pos heot], h, rfl⟩
  obtain ⟨as, tty', hinput, -, hok, hflags, -⟩ := handleInput_spec h hc (Nat.lt_of_le_of_ne h.count hfull) heot hline
  exact ⟨as, tty', hinput, hok, hflags⟩

/-- And if it is one, there is a fault. -/
theorem handleInput_fault (h : ¬LineFits tty c) : handleInput tty c = .error (.store ttyInbufSize) := by
  obtain ⟨rfl, hraw, hcount⟩ := not_not.mp h
  have hne : tty.incount ≠ ttyInbufSize := by
    rw [hcount]
    decide
  rw [handleInput, if_neg (by decide), if_neg hne, if_neg (by rw [hraw]; nofun), editInput, if_neg (by rw [hraw]; decide),
    line_full hcount]
  rfl

/-- A read is answered at once, or it waits. -/
theorem ttyRead_spec (h : InputOk tty) (rq : Request) :
    ∃ a tty', ttyRead tty rq = .ok (a, tty') ∧ InputOk tty' ∧ tty'.flags = tty.flags ∧
      (tty.isRaw = false → (tty.requests ≠ [] → tty.eotcount = 0) →
        Delivers (tty.requests ++ [rq]) tty.content a.toList tty' ∧ (∀ b ∈ a, b.IsLine) ∧
          (tty'.requests ≠ [] → tty'.eotcount = 0)) := by
  by_cases henough : enoughData tty rq.buflen = true
  · obtain ⟨a, tty', hanswer, hrq, hcontent, hok, hflags, hrequests, hline⟩ := answer_spec h rq henough
    refine ⟨some a, tty', ?_, hok, hflags, ?_⟩
    · rw [ttyRead, if_pos henough, hanswer]
      rfl
    · intro hraw hpending
      -- a line is there, so nobody waits
      rw [enoughData, hraw, if_neg (by decide), decide_eq_true_eq] at henough
      have hnil : tty.requests = [] := by
        by_contra hne
        exact absurd (hpending hne) (Nat.ne_of_gt henough)
      rw [hnil] at hrequests ⊢
      refine ⟨⟨?_, ?_⟩, ?_, fun hne => absurd hrequests hne⟩
      · simp [hrequests, hrq]
      · simp [hcontent]
      · rintro b ⟨⟩
        exact hline hraw
  · refine ⟨none, _, if_neg henough, ⟨h.count, h.eots⟩, rfl, ?_⟩
    intro hraw _
    rw [enoughData, hraw, if_neg (by decide), decide_eq_true_eq] at henough
    exact ⟨⟨rfl, rfl⟩, nofun, fun _ => Nat.eq_zero_of_not_pos henough⟩

/-- One call after others. -/
theorem delivers_append {rqs more : List Request} {bytes bs : List UInt8} {as as' : List Answer} (h : Delivers rqs bytes as tty)
    (h' : Delivers (tty.requests ++ more) bs as' tty') : Delivers (rqs ++ more) (as.flatMap Answer.data ++ bs) (as ++ as') tty' := by
  refine ⟨?_, ?_⟩
  · rw [h.requests, List.append_assoc, h'.requests, List.map_append, List.append_assoc]
  · rw [h'.bytes, List.flatMap_append, List.append_assoc]

/-! ## The requests, in any state -/

theorem bind_eq_ok {α β : Type} {x : Except TtyFault α} {f : α → Except TtyFault β} {b : β} (h : x.bind f = .ok b) :
    ∃ a, x = .ok a ∧ f a = .ok b := by
  cases x with
  | error e => cases h
  | ok a => exact ⟨a, rfl, h⟩

theorem copyData_le {size count : Nat} {data : List UInt8} (h : copyData tty size = .ok (count, data)) : count ≤ ttyInbufSize := by
  unfold copyData at h
  split at h
  · split at h
    · rename_i hsize
      cases h
      exact hsize
    · cases h
  · obtain ⟨n, hlen, h⟩ := bind_eq_ok h
    cases h
    unfold Tty.strlen at hlen
    split at hlen
    · rename_i m hfind
      cases hlen
      exact Nat.le_of_lt (List.mem_range.mp (List.mem_of_find?_eq_some hfind))
    · cases hlen

theorem removeData_requests {count : Nat} (h : removeData tty count = .ok tty') : tty'.requests = tty.requests := by
  by_cases hle : (if tty.isRaw then count else count + 1) ≤ ttyInbufSize
  · rw [removeData, if_pos hle] at h
    cases h
    rfl
  · rw [removeData, if_neg hle] at h
    cases h

/-- A read that is answered returns at most the size of the input buffer, and the reads that wait stay. -/
theorem answer_requests {rq : Request} {a : Answer} (h : answer tty rq = .ok (a, tty')) :
    a.result ≤ ttyInbufSize ∧ tty'.requests = tty.requests := by
  obtain ⟨r, hcopy, h⟩ := bind_eq_ok h
  obtain ⟨tty₁, hremove, h⟩ := bind_eq_ok h
  cases h
  exact ⟨copyData_le hcopy, removeData_requests hremove⟩

theorem store_requests (h : tty.store c = .ok tty') : tty'.requests = tty.requests := by
  unfold Tty.store at h
  split at h
  · cases h
    rfl
  · cases h

theorem addInput_requests (h : addInput tty c = .ok tty') : tty'.requests = tty.requests := by
  unfold addInput at h
  simp only at h
  split at h
  · have hstore := store_requests h
    exact hstore
  · exact store_requests h

theorem endLine_requests (h : endLine tty = .ok tty') : tty'.requests = tty.requests := by
  have hstore := store_requests h
  exact hstore

theorem handleCbreakInput_requests (h : handleCbreakInput tty c = .ok (some tty')) : tty'.requests = tty.requests := by
  unfold handleCbreakInput at h
  split at h
  · obtain ⟨tty₁, hstore, h⟩ := bind_eq_ok h
    obtain ⟨tty₂, hend, h⟩ := bind_eq_ok h
    cases h
    have hrequests := store_requests hstore
    exact (endLine_requests hend).trans hrequests
  · split at h
    · obtain ⟨tty₁, hend, h⟩ := bind_eq_ok h
      cases h
      exact endLine_requests hend
    · split at h
      · split at h
        · split at h
          · cases h
            rfl
          · cases h
        · cases h
          rfl
      · cases h

theorem editInput_requests (h : editInput tty c = .ok tty') : tty'.requests = tty.requests := by
  unfold editInput at h
  split at h
  · exact addInput_requests h
  · obtain ⟨done, hcbreak, h⟩ := bind_eq_ok h
    cases done with
    | none => exact addInput_requests h
    | some tty₁ =>
      cases h
      exact handleCbreakInput_requests hcbreak

/-- A key makes no request, and where there is none it answers none. -/
theorem handleInput_requests {as : List Answer} (hno : tty.requests = []) (h : handleInput tty c = .ok (as, tty')) :
    as = [] ∧ tty'.requests = [] := by
  unfold handleInput at h
  split at h
  · cases h
    exact ⟨rfl, hno⟩
  · split at h
    · cases h
      exact ⟨rfl, hno⟩
    · split at h
      · cases h
        exact ⟨rfl, hno⟩
      · obtain ⟨tty₁, hedit, h⟩ := bind_eq_ok h
        rw [editInput_requests hedit, hno] at h
        cases h
        exact ⟨rfl, rfl⟩

end TtyAux

end Kos
