import Kos.Lemmas.Virt

/-!
# A page directory as a map

The pages of a page directory are a partial map from page numbers to frames and flags (`pageMap`). If the tables of the directory are
in different frames, mapping a page changes this map at that page only (`doMap_pageMap`).
-/

namespace Kos

/-- The entry of a page, if it is present. -/
def pageEntry (s : Vm) (pdir page : Nat) : Option Entry :=
  let pde := s.tabs pdir (page / 1024)
  let pte := s.tabs (getaddr pde) (page % 1024)
  if present pde && present pte then some pte else none

/-- The frame and the flags of a page. -/
def pageMap (s : Vm) (pdir page : Nat) : Option (Nat × Entry) :=
  (pageEntry s pdir page).map fun pte => (getaddr pte, getflags pte)

/-- Without the bits that the processor sets. -/
def clean (m : Option (Nat × Entry)) : Option (Nat × Entry) :=
  m.map fun (frame, flags) => (frame, flags &&& ~~~(peAccessed ||| ptDirty))

/-- What mapping with these arguments makes of a page. -/
def given (paddr : Nat) (flags : Entry) : Option (Nat × Entry) := if present flags then some (paddr, flags) else none

/-- The physical address for an address on a page. -/
def resolved (m : Option (Nat × Entry)) (vaddr : Nat) : Nat :=
  match m with
  | some (frame, _) => frame + vaddr % pageSize
  | none => 0

/-- A page directory in use whose tables are in different frames. -/
structure PdirOk (s : Vm) (pdir : Nat) : Prop extends PdirWf s pdir where
  distinct : ∀ i < 1024, ∀ j < 1024, present (s.tabs pdir i) = true → present (s.tabs pdir j) = true →
    getaddr (s.tabs pdir i) = getaddr (s.tabs pdir j) → i = j

theorem PdirOk.congr {s s' : Vm} {pdir : Nat} (h : PdirOk s pdir) (hmm : s'.mm = s.mm) (hdir : s'.tabs pdir = s.tabs pdir) :
    PdirOk s' pdir := by
  refine ⟨h.toPdirWf.congr hmm hdir, ?_⟩
  rw [hdir]
  exact h.distinct

/-- `f` is the frame of a page table of the directory. -/
def IsTable (s : Vm) (pdir f : Nat) : Prop := ∃ i < 1024, present (s.tabs pdir i) = true ∧ getaddr (s.tabs pdir i) = f

/-- What happens to a directory: it gets tables from free pages, and only frames that are its tables or were free are written. -/
structure Widens (s s' : Vm) (pdir : Nat) : Prop where
  used : ∀ f, isFree s.mm.mmap f = false → isFree s'.mm.mmap f = false
  kept : ∀ i < 1024, present (s.tabs pdir i) = true → s'.tabs pdir i = s.tabs pdir i
  added : ∀ i < 1024, present (s'.tabs pdir i) = true →
    present (s.tabs pdir i) = true ∨ isFree s.mm.mmap (getaddr (s'.tabs pdir i)) = true
  others : ∀ f i, isFree s.mm.mmap f = false → f ≠ pdir → ¬IsTable s pdir f → s'.tabs f i = s.tabs f i

namespace PageMapAux

variable {s s' s₁ : Vm} {pdir paddr v ptab page : Nat} {flags : Entry} {force : Bool}

/-! ## Entries -/

theorem getflags_mkEntry (ha : paddr % 4096 = 0) (hlt : paddr < 4294967296) (hf : flags.toNat < 4096) :
    getflags (mkEntry paddr flags) = flags := by
  apply BitVec.eq_of_toNat_eq
  rw [getflags, BitVec.toNat_and, toNat_mkEntry ha hlt hf]
  show (paddr + flags.toNat) &&& (2 ^ 12 - 1) = _
  rw [Nat.and_two_pow_sub_one_eq_mod]
  omega

/-- A mapping that may be repeated has the given flags, up to the bits of the processor. -/
theorem getflags_of_same {pte : Entry} (ha : paddr % 4096 = 0) (hlt : paddr < 4294967296) (hf : flags.toNat < 4096)
    (h : pte &&& ~~~(peAccessed ||| ptDirty) = mkEntry paddr flags) : getflags pte &&& ~~~(peAccessed ||| ptDirty) = flags := by
  rw [getflags, BitVec.and_assoc, BitVec.and_comm 0xFFF#32, ← BitVec.and_assoc, h]
  exact getflags_mkEntry ha hlt hf

/-- It is the given one. -/
theorem clean_of_same {pte : Entry} (ha : paddr % 4096 = 0) (hlt : paddr < 4294967296) (hf : flags.toNat < 4096)
    (h : pte &&& ~~~(peAccessed ||| ptDirty) = mkEntry paddr flags) :
    clean (some (getaddr pte, getflags pte)) = clean (some (paddr, flags)) := by
  have hflags := getflags_of_same ha hlt hf h
  simp only [clean, Option.map_some, getaddr_of_same ha hlt hf h, hflags]
  rw [← hflags, BitVec.and_assoc, BitVec.and_self]

theorem page_div (v : Nat) : v / 4096 / 1024 = pdirIndex v := rfl

theorem page_mod (v : Nat) : v / 4096 % 1024 = ptabIndex v := rfl

theorem page_eq (hdiv : page / 1024 = pdirIndex v) (hmod : page % 1024 = ptabIndex v) : page = v / 4096 := by
  rw [← Nat.div_add_mod page 1024, hdiv, hmod, ← page_div, ← page_mod, Nat.div_add_mod]

theorem pageEntry_eq_none (h : present (s.tabs pdir (page / 1024)) = false) : pageEntry s pdir page = none := by
  rw [pageEntry, h, Bool.false_and]
  rfl

/-- Only the entry of the directory and the entry of the table matter. -/
theorem pageEntry_congr (hdir : s'.tabs pdir (page / 1024) = s.tabs pdir (page / 1024))
    (htab : present (s.tabs pdir (page / 1024)) = true →
      s'.tabs (getaddr (s.tabs pdir (page / 1024))) (page % 1024) = s.tabs (getaddr (s.tabs pdir (page / 1024))) (page % 1024)) :
    pageEntry s' pdir page = pageEntry s pdir page := by
  cases hp : present (s.tabs pdir (page / 1024)) with
  | true => rw [pageEntry, pageEntry, hdir, htab hp]
  | false => rw [pageEntry_eq_none hp, pageEntry_eq_none (by rw [hdir]; exact hp)]

theorem pageMap_congr (h : pageEntry s' pdir page = pageEntry s pdir page) : pageMap s' pdir page = pageMap s pdir page := by
  rw [pageMap, pageMap, h]

theorem page_div_lt (h : page < 1048576) : page / 1024 < 1024 := by omega

theorem present_of_pageEntry {pte : Entry} (h : pageEntry s pdir page = some pte) : present pte = true := by
  simp only [pageEntry] at h
  split at h
  · rename_i hboth
    cases h
    exact (Bool.and_eq_true_iff.mp hboth).2
  · cases h

theorem getPtabEntry_eq (s : Vm) (pdir v : Nat) : getPtabEntry s pdir v = (pageEntry s pdir (v / 4096)).getD 0#32 := by
  unfold getPtabEntry pageEntry
  simp only [bnotset_eq, page_div, page_mod]
  by_cases hpde : present (s.tabs pdir (pdirIndex v)) = true
  · simp only [hpde, Bool.not_true, Bool.false_eq_true, if_false, Bool.true_and]
    split_ifs <;> rfl
  · simp only [Bool.not_eq_true] at hpde
    simp only [hpde, Bool.not_false, if_true, Bool.false_and, Bool.false_eq_true, if_false]
    rfl

/-- There is no entry for an address if its page is not mapped. -/
theorem getPtabEntry_eq_zero_iff (s : Vm) (pdir v : Nat) : getPtabEntry s pdir v = 0#32 ↔ pageEntry s pdir (v / 4096) = none := by
  rw [getPtabEntry_eq]
  cases hentry : pageEntry s pdir (v / 4096) with
  | none => exact iff_of_true rfl rfl
  | some pte =>
    refine iff_of_false (fun hzero => ?_) (Option.some_ne_none pte)
    have hpresent := present_of_pageEntry hentry
    rw [show pte = 0#32 from hzero] at hpresent
    cases hpresent

/-- The entry for an address is that of its page. -/
theorem pageMap_of_getPtabEntry {v : Nat} (h : getPtabEntry s pdir v ≠ 0#32) :
    pageMap s pdir (v / 4096) = some (getaddr (getPtabEntry s pdir v), getflags (getPtabEntry s pdir v)) := by
  obtain ⟨pte, hentry⟩ := Option.ne_none_iff_exists'.mp (mt (getPtabEntry_eq_zero_iff s pdir v).mpr h)
  rw [getPtabEntry_eq, pageMap, hentry]
  rfl

/-- What the directory says about an address. -/
theorem vmResolveVirt_eq (s : Vm) (pdir v : Nat) : vmResolveVirt s pdir v = resolved (pageMap s pdir (v / 4096)) v := by
  rw [vmResolveVirt, getPtabEntry_eq, pageMap]
  cases hentry : pageEntry s pdir (v / 4096) with
  | none => rfl
  | some pte =>
    have hmod := getaddr_mod pte
    have hlt := getaddr_lt pte
    simp only [Option.getD_some, Option.map_some, bnotset_eq, present_of_pageEntry hentry, Bool.not_true, Bool.false_eq_true, if_false,
      resolved, pageOffset]
    exact w32_of_lt (by simp only [pageSize]; omega)

/-! ## The table for a page -/

/-- What there is when the table for an address was found or created. -/
structure TableOk (s s₁ : Vm) (pdir v ptab : Nat) (flags : Entry) : Prop where
  ok : PdirOk s₁ pdir
  widens : Widens s s₁ pdir
  entry : ∀ page < 1048576, pageEntry s₁ pdir page = pageEntry s pdir page
  ptab_ne : ∀ f, isFree s.mm.mmap f = false → ¬IsTable s pdir f → ptab ≠ f
  table : (present (s₁.tabs pdir (pdirIndex v)) = true ∧ getaddr (s₁.tabs pdir (pdirIndex v)) = ptab) ∨
    (present flags = false ∧ present (s₁.tabs pdir (pdirIndex v)) = false ∧ ¬IsTable s₁ pdir ptab)

theorem Widens.refl (s : Vm) (pdir : Nat) : Widens s s pdir :=
  ⟨fun _ h => h, fun _ _ _ => rfl, fun _ _ h => .inl h, fun _ _ _ _ _ => rfl⟩

theorem not_isTable_of_free (hok : PdirOk s pdir) (hfree : isFree s.mm.mmap ptab = true) : ¬IsTable s pdir ptab := by
  rintro ⟨i, hi, hp, rfl⟩
  rw [hok.tab_used i hi hp] at hfree
  cases hfree

theorem tableFor_found (hok : PdirOk s pdir) (hv : v < 4294967296) (hp : present (s.tabs pdir (pdirIndex v)) = true) :
    TableOk s s pdir v (getaddr (s.tabs pdir (pdirIndex v))) flags := by
  refine ⟨hok, Widens.refl s pdir, fun _ _ => rfl, ?_, .inl ⟨hp, rfl⟩⟩
  intro f _ hnot he
  exact hnot ⟨pdirIndex v, pdirIndex_lt hv, hp, he⟩

section Create

variable (hok : PdirOk s pdir) (hp : present (s.tabs pdir (pdirIndex v)) = false) (ha : ptab % 4096 = 0) (hlt : ptab < 4294967296)
  (hf : flags.toNat < 4096) (hfree : isFree s.mm.mmap ptab = true)
  (hmap : ∀ a, isFree s₁.mm.mmap a = (isFree s.mm.mmap a && !decide (a / 4096 = ptab / 4096)))
  (htabs : ∀ f i, s₁.tabs f i = if f = ptab then 0#32 else if f = pdir ∧ i = pdirIndex v then mkEntry ptab flags else s.tabs f i)

include hfree in
theorem ne_of_used {f : Nat} (hused : isFree s.mm.mmap f = false) : f ≠ ptab := by
  rintro rfl
  rw [hfree] at hused
  cases hused

include hok hfree htabs in
theorem created_dir (i : Nat) : s₁.tabs pdir i = if i = pdirIndex v then mkEntry ptab flags else s.tabs pdir i := by
  rw [htabs, if_neg (ne_of_used hfree hok.dir_used)]
  simp only [true_and]

include hok ha hlt hf hfree hmap htabs in
/-- The directory stays well formed: the new table is in a page that was free. -/
theorem created_ok : PdirOk s₁ pdir := by
  have hdir := created_dir hok hfree htabs
  have hnew : getaddr (mkEntry ptab flags) = ptab := getaddr_mkEntry ha hlt hf
  have hold : ∀ i < 1024, present (s.tabs pdir i) = true → getaddr (s.tabs pdir i) ≠ ptab := fun i hi hpi =>
    ne_of_used hfree (hok.tab_used i hi hpi)
  refine ⟨⟨by simp [hmap, hok.dir_used], ?_, ?_⟩, ?_⟩
  · intro i hi hpi
    rw [hdir] at hpi ⊢
    split_ifs at hpi ⊢ with he
    · simp [hnew, hmap]
    · simp [hmap, hok.tab_used i hi hpi]
  · intro i hi hpi
    rw [hdir] at hpi ⊢
    split_ifs at hpi ⊢ with he
    · rw [hnew]
      exact (ne_of_used hfree hok.dir_used).symm
    · exact hok.tab_ne i hi hpi
  · intro i hi j hj hpi hpj hsame
    rw [hdir] at hpi hpj hsame
    rw [hdir] at hsame
    split_ifs at hpi hpj hsame with hie hje hje
    · rw [hie, hje]
    · rw [hnew] at hsame
      exact absurd hsame.symm (hold j hj hpj)
    · rw [hnew] at hsame
      exact absurd hsame (hold i hi hpi)
    · exact hok.distinct i hi j hj hpi hpj hsame

include hok hp ha hlt hf hfree hmap htabs in
theorem created_widens : Widens s s₁ pdir := by
  have hdir := created_dir hok hfree htabs
  refine ⟨fun f hused => by simp [hmap, hused], ?_, ?_, ?_⟩
  · intro i _ hpi
    rw [hdir, if_neg]
    rintro rfl
    rw [hp] at hpi
    cases hpi
  · intro i _ hpi
    rw [hdir] at hpi ⊢
    split_ifs at hpi ⊢ with he
    · rw [getaddr_mkEntry ha hlt hf]
      exact .inr hfree
    · exact .inl hpi
  · intro f i hused hne _
    rw [htabs, if_neg (ne_of_used hfree hused), if_neg (fun he => hne he.1)]

include hok hp ha hlt hf hfree htabs in
/-- The table is empty, so there are no new pages. -/
theorem created_entry (hpage : page < 1048576) : pageEntry s₁ pdir page = pageEntry s pdir page := by
  have hdir := created_dir hok hfree htabs
  by_cases hpdi : page / 1024 = pdirIndex v
  · rw [pageEntry_eq_none (s := s) (by rw [hpdi]; exact hp), pageEntry, hdir, if_pos hpdi]
    rw [getaddr_mkEntry ha hlt hf, htabs, if_pos rfl]
    have hempty : present 0#32 = false := rfl
    rw [hempty, Bool.and_false]
    rfl
  · refine pageEntry_congr (by rw [hdir, if_neg hpdi]) ?_
    intro hpi
    have hi := page_div_lt hpage
    rw [htabs, if_neg (ne_of_used hfree (hok.tab_used _ hi hpi)), if_neg (fun he => hok.tab_ne _ hi hpi he.1)]

end Create

theorem tableFor_spec (hok : PdirOk s pdir) (hv : v < 4294967296) (hf : flags.toNat < 4096)
    (h : tableFor s pdir v flags = some (ptab, s₁)) : TableOk s s₁ pdir v ptab flags := by
  rcases tableFor_cases h with ⟨hp, rfl, rfl⟩ | ⟨hp, ha, hlt, hfree, hmap, -, htabs⟩
  · exact tableFor_found hok hv hp
  · have hok₁ := created_ok hok ha hlt hf hfree hmap htabs
    have hdir := created_dir hok hfree htabs
    have hpde : s₁.tabs pdir (pdirIndex v) = mkEntry ptab flags := by rw [hdir, if_pos rfl]
    refine ⟨hok₁, created_widens hok hp ha hlt hf hfree hmap htabs, fun _ hpage => created_entry hok hp ha hlt hf hfree htabs hpage, ?_, ?_⟩
    · intro f hused _
      exact (ne_of_used hfree hused).symm
    · rw [hpde, present_mkEntry ha, getaddr_mkEntry ha hlt hf]
      cases hflags : present flags with
      | true => exact .inl ⟨rfl, rfl⟩
      | false =>
        -- the entry of the directory is not present either, and nothing refers to the new table
        refine .inr ⟨rfl, rfl, ?_⟩
        rintro ⟨i, hi, hpi, hsame⟩
        rw [hdir] at hpi hsame
        split_ifs at hpi hsame with he
        · rw [present_mkEntry ha, hflags] at hpi
          cases hpi
        · exact not_isTable_of_free hok hfree ⟨i, hi, hpi, hsame⟩

/-! ## The entry of a page -/

section Write

variable {e : Entry} (hok : PdirOk s pdir) (hv : v < 4294967296) (hf : flags.toNat < 4096) (ht : TableOk s s₁ pdir v ptab flags)
  (htabs : ∀ f i, s'.tabs f i = if f = ptab ∧ i = ptabIndex v then e else s₁.tabs f i)

include hok ht in
theorem ptab_ne_dir : ptab ≠ pdir :=
  ht.ptab_ne pdir hok.dir_used fun ⟨i, hi, hp, he⟩ => hok.tab_ne i hi hp he

include hok ht htabs in
theorem written_dir (i : Nat) : s'.tabs pdir i = s₁.tabs pdir i := by
  rw [htabs, if_neg (fun he => ptab_ne_dir hok ht he.1.symm)]

include hok hv ht htabs in
/-- The other pages. -/
theorem written_other (hpage : page < 1048576) (hne : page ≠ v / 4096) : pageEntry s' pdir page = pageEntry s pdir page := by
  rw [← ht.entry page hpage]
  refine pageEntry_congr (written_dir hok ht htabs _) ?_
  intro hp
  rw [htabs, if_neg]
  rintro ⟨hsame, hpti⟩
  have hi := page_div_lt hpage
  rcases ht.table with ⟨hpv, rfl⟩ | ⟨-, -, hnot⟩
  · exact hne (page_eq (ht.ok.distinct _ hi _ (pdirIndex_lt hv) hp hpv hsame) hpti)
  · exact hnot ⟨_, hi, hp, hsame⟩

include hok ht htabs in
/-- The page itself, if its table is there. -/
theorem written_self (hpv : present (s₁.tabs pdir (pdirIndex v)) = true) (haddr : getaddr (s₁.tabs pdir (pdirIndex v)) = ptab) :
    pageEntry s' pdir (v / 4096) = if present e then some e else none := by
  have hpte : s'.tabs ptab (ptabIndex v) = e := by rw [htabs, if_pos ⟨rfl, rfl⟩]
  rw [pageEntry, page_div, page_mod, written_dir hok ht htabs, haddr, hpte, hpv, Bool.true_and]

include hok ht htabs in
theorem written_ok (hmm : s'.mm = s₁.mm) : PdirOk s' pdir := ht.ok.congr hmm (funext (written_dir hok ht htabs))

include hok ht htabs in
theorem written_widens (hmm : s'.mm = s₁.mm) : Widens s s' pdir := by
  have hdir := written_dir hok ht htabs
  refine ⟨?_, ?_, ?_, ?_⟩
  · rw [hmm]
    exact ht.widens.used
  · intro i hi hp
    rw [hdir]
    exact ht.widens.kept i hi hp
  · intro i hi hp
    rw [hdir] at hp ⊢
    exact ht.widens.added i hi hp
  · intro f i hused hne hnot
    rw [htabs, if_neg (fun he => ht.ptab_ne f hused hnot he.1.symm)]
    exact ht.widens.others f i hused hne hnot

end Write

/-- The map at the page whose entry is written. -/
theorem written_pageMap (hok : PdirOk s pdir) (hf : flags.toNat < 4096) (ht : TableOk s s₁ pdir v ptab flags)
    (htabs : ∀ f i, s'.tabs f i = if f = ptab ∧ i = ptabIndex v then mkEntry paddr flags else s₁.tabs f i) (ha : paddr % 4096 = 0)
    (hp : paddr < 4294967296) : pageMap s' pdir (v / 4096) = given paddr flags := by
  rcases ht.table with ⟨hpde, haddr⟩ | ⟨hno, hpde, -⟩
  · rw [pageMap, written_self hok ht htabs hpde haddr, present_mkEntry ha, given]
    cases present flags with
    | true => simp only [if_true, Option.map_some, getaddr_mkEntry ha hp hf, getflags_mkEntry ha hp hf]
    | false => rfl
  · have hentry : pageEntry s' pdir (v / 4096) = none :=
      pageEntry_eq_none (by rw [page_div, written_dir hok ht htabs]; exact hpde)
    rw [pageMap, hentry, given, hno]
    rfl

/-- What mapping a page makes of the map: the page is as given, up to the bits of the processor, and the other pages stay. -/
theorem doMap_pageMap (hok : PdirOk s pdir) (hv : v < 4294967296) (hp : paddr < 4294967296) (hf : flags.toNat < 4096)
    (h : doMap s pdir paddr v flags force = some s') :
    PdirOk s' pdir ∧ Widens s s' pdir ∧ clean (pageMap s' pdir (v / 4096)) = clean (given paddr flags) ∧
      ∀ page < 1048576, page ≠ v / 4096 → pageMap s' pdir page = pageMap s pdir page := by
  obtain ⟨-, ha, ptab, s₁, htable, hcases⟩ := doMap_cases h
  have ht := tableFor_spec hok hv hf htable
  rcases hcases with ⟨-, hpte, hflags, hsame, rfl⟩ | ⟨-, hmm, -, htabs⟩
  · refine ⟨ht.ok, ht.widens, ?_, fun page hpage _ => pageMap_congr (ht.entry page hpage)⟩
    rcases ht.table with ⟨hpde, rfl⟩ | ⟨hno, -⟩
    · rw [pageMap, pageEntry, page_div, page_mod, hpde, hpte, given, hflags]
      exact clean_of_same ha hp hf hsame
    · rw [hflags] at hno
      cases hno
  · refine ⟨written_ok hok ht htabs hmm, written_widens hok ht htabs hmm, ?_, ?_⟩
    · rw [written_pageMap hok hf ht htabs ha hp]
    · intro page hpage hne
      exact pageMap_congr (written_other hok hv ht htabs hpage hne)

/-- By force, the page is mapped just as it is given. -/
theorem doMap_force_pageMap (hok : PdirOk s pdir) (hv : v < 4294967296) (hp : paddr < 4294967296) (hf : flags.toNat < 4096)
    (h : doMap s pdir paddr v flags true = some s') : pageMap s' pdir (v / 4096) = given paddr flags := by
  obtain ⟨-, ha, ptab, s₁, htable, hcases⟩ := doMap_cases h
  rcases hcases with ⟨hno, -⟩ | ⟨-, -, -, htabs⟩
  · cases hno
  · exact written_pageMap hok hf (tableFor_spec hok hv hf htable) htabs ha hp

end PageMapAux

end Kos
