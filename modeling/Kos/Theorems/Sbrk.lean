import Kos.Lemmas.SpacePages
import Kos.Theorems.UserFrames

/-!
# The heap of a process

`sys_sbrk` moves the end of the heap, and maps pages when there is not enough room on the last one. The number of pages is computed from
a signed number of bytes: rounding up an increment that is less than a page below `2 ^ 31` gives a negative number of pages, no page is
mapped, and the end of the heap moves all the same.
-/

namespace Kos

/-- A call of `sys_sbrk` of the process `p`, with what the kernel does for itself meanwhile. -/
def sbrkStep (p : Nat) (m : Machine) (call : Int × List (List KernelAction)) : Option Machine :=
  (sysSbrk { m with work := call.2 } p call.1).map (·.2)

/-- The pages of the heap from `start` on are mapped for the user to read and write. The bits that the processor sets are left out. -/
def BrkMapped (start p : Nat) (m : Machine) : Prop :=
  ∀ n, start ≤ n * pageSize → n * pageSize < (m.procs p).brkPage →
    ∃ f, clean (pageMap m.vm (m.procs p).pdir n) = some (f, vmUserFlags)

/-- The heap ends on its last page or right behind it, and its pages are mapped. -/
structure BrkOk (start p : Nat) (m : Machine) : Prop where
  brk : (m.procs p).memBrk ≤ (m.procs p).brkPage
  mapped : BrkMapped start p m

/-- What a call that returns `r` is to do. -/
structure SbrkDone (start p : Nat) (m m' : Machine) (incr : Int) (r : Nat) : Prop where
  heap : BrkOk start p m'
  grown : 0 < incr → r ≠ 4294967295 →
    r = (m.procs p).memBrk ∧ ∀ a : Nat, (m.procs p).memBrk ≤ a → a < (m.procs p).memBrk + incr → a < (m'.procs p).brkPage
  failed : r = 4294967295 → (m'.procs p).memBrk = (m.procs p).memBrk

/-- The increment is a 32-bit number, the addresses do not wrap in the call, and the kernel maps no page for itself that is in the heap:
this it could only do if the heap were below user space. -/
structure SbrkCall (start p : Nat) (m : Machine) (call : Int × List (List KernelAction)) : Prop where
  low : -2147483648 ≤ call.1
  high : call.1 < 2147483648
  noWrap : ∀ r m', sysSbrk { m with work := call.2 } p call.1 = some (r, m') →
    (m.procs p).brkPage ≤ (m'.procs p).brkPage ∧ (m.procs p).memBrk ≤ (m'.procs p).memBrk
  spares : ∀ actions ∈ call.2, ∀ action ∈ actions, ∀ n, start ≤ n * pageSize → action.Spares n

/-- There is room on the last page, or the increment can be rounded up to pages. -/
def SbrkFits (p : Nat) (m : Machine) (incr : Int) : Prop :=
  incr ≤ (m.procs p).brkPage - (m.procs p).memBrk ∨ incr + 4095 < 2147483648

instance (p : Nat) (m : Machine) (incr : Int) : Decidable (SbrkFits p m incr) := inferInstanceAs (Decidable (_ ∨ _))

namespace SbrkAux

/-! ## The number of pages -/

theorem numPagesInt_of_lt {incr : Int} (hpos : 0 < incr) (h : incr + 4095 < 2147483648) :
    incr ≤ (numPagesInt incr).toNat * 4096 ∧ (numPagesInt incr).toNat ≤ 524288 := by
  have hmod : (incr + 4095).bmod 4294967296 = incr + 4095 := by
    rw [Int.bmod_eq_of_le] <;> omega
  rw [numPagesInt, hmod]
  omega

/-- The rounding overflows. -/
theorem numPagesInt_of_ge {incr : Int} (hhigh : incr < 2147483648) (h : 2147483648 ≤ incr + 4095) : (numPagesInt incr).toNat = 0 := by
  have hmod : (incr + 4095).bmod 4294967296 = incr + 4095 - 4294967296 := by
    rw [Int.bmod_def]
    omega
  rw [numPagesInt, hmod]
  omega

/-! ## The pages of the heap -/

variable {own : Owners} {start p : Nat} {m m' : Machine}

theorem setProc_procs (m : Machine) (p : Nat) (f : ProcSpace → ProcSpace) : (m.setProc p f).procs p = f (m.procs p) :=
  Function.update_self ..

/-- One page more, or none. -/
theorem newPage_heap {r : Option Nat} (h : SpaceInv own m) (hp : (m.procs p).live = true)
    (hal : (m.procs p).brkPage % 4096 = 0) (hspare : ∀ n, start ≤ n * pageSize → m.Spares n) (hheap : BrkMapped start p m)
    (hn : newPage m (m.procs p).pdir (m.procs p).brkPage vmUserFlags false = some (r, m')) (hprocs : m'.procs = m.procs) :
    BrkMapped start p m' ∧ (r.isSome = true →
      BrkMapped start p (m'.setProc p fun proc => { proc with brkPage := w32 (proc.brkPage + pageSize) })) := by
  have hold := h.holds p hp
  have hbrk := hold.brk
  have hpage {n : Nat} (hs : start ≤ n * pageSize) (hlt : n < 1048576) :=
    newPage_pageMap h.kernelOk hold.space hbrk present_vmUserFlags vmUserFlags_lt (by nofun) hn hlt (.inl (hspare n hs))
  have hsame : BrkMapped start p m' := by
    intro n hs hlt
    rw [hprocs] at hlt ⊢
    simp only [pageSize] at hlt
    rw [(hpage hs (by omega)).1 (.inl (by omega))]
    exact hheap n hs hlt
  refine ⟨hsame, fun hr n hs hlt => ?_⟩
  obtain ⟨page, rfl⟩ := Option.isSome_iff_exists.mp hr
  rw [setProc_procs] at hlt ⊢
  rw [hprocs] at hlt ⊢
  by_cases hold : n * pageSize < (m.procs p).brkPage
  · have := hsame n hs (by rw [hprocs]; exact hold)
    rwa [hprocs] at this
  · -- the page that is mapped now is the only one between the old and the new end
    simp only [pageSize, w32] at hlt hold
    obtain ⟨hself, -⟩ := (hpage hs (by omega)).2 page rfl (by omega)
    exact ⟨page, hself.trans rfl⟩

/-- What becomes of the process when its heap grows by up to so many pages; all of them, if the loop ends well. -/
structure Grows (start p : Nat) (m m' : Machine) (pages : Nat) (ok : Bool) : Prop where
  mapped : BrkMapped start p m'
  memBrk : (m'.procs p).memBrk = (m.procs p).memBrk
  live : (m'.procs p).live = true
  brkPage : ∃ k ≤ pages, (ok = true → k = pages) ∧ (m'.procs p).brkPage = w32 ((m.procs p).brkPage + k * 4096)

/-- What the loop of `increase_heap` does: it maps pages until there are enough or there is none left. -/
theorem growHeap_heap {pages : Nat} {ok : Bool} (h : SpaceInv own m) (hp : (m.procs p).live = true)
    (hal : (m.procs p).brkPage % 4096 = 0) (hspare : ∀ n, start ≤ n * pageSize → m.Spares n) (hheap : BrkMapped start p m)
    (hg : growHeap p pages m = some (ok, m')) : Grows start p m m' pages ok := by
  have hbrk := (h.holds p hp).brk
  induction pages generalizing own m with
  | zero =>
    cases hg
    exact ⟨hheap, rfl, hp, 0, Nat.le_refl 0, fun _ => rfl, (w32_of_lt hbrk).symm⟩
  | succ pages ih =>
    rw [growHeap] at hg
    obtain ⟨⟨r, m₁⟩, hnew, hg⟩ := Option.bind_eq_some_iff.mp hg
    obtain ⟨own₁, hinv₁, hprocs₁, -⟩ := newPage_inv h hp hbrk hnew
    obtain ⟨hheap₁, hheap₂⟩ := newPage_heap h hp hal hspare hheap hnew hprocs₁
    have hp₁ : (m₁.procs p).live = true := by rw [hprocs₁]; exact hp
    simp only at hg
    split at hg
    · rename_i hr
      have hset := hinv₁.setProc (p := p) (f := fun proc => { proc with brkPage := w32 (proc.brkPage + pageSize) }) fun _ =>
        (hinv₁.holds p hp₁).setBrk _ (w32_lt _)
      have hspare₁ : ∀ n, start ≤ n * pageSize → m₁.Spares n := fun n hs => newPage_spares hnew (hspare n hs)
      obtain ⟨hheap', hmem', hp', k, hk, hok, hbrk'⟩ := ih hset (by rw [setProc_procs]; exact hp₁)
        (by rw [setProc_procs]; simp only [hprocs₁, pageSize, w32]; omega) hspare₁ (hheap₂ hr) hg (by rw [setProc_procs]; exact w32_lt _)
      rw [setProc_procs] at hmem' hbrk'
      simp only [hprocs₁, pageSize, w32_add_left] at hmem' hbrk'
      refine ⟨hheap', hmem', hp', k + 1, by omega, fun h => by rw [hok h], ?_⟩
      rw [hbrk', show (m.procs p).brkPage + (k + 1) * 4096 = (m.procs p).brkPage + 4096 + k * 4096 by omega]
    · obtain ⟨rfl, rfl⟩ := Prod.mk.inj (Option.some.inj hg)
      refine ⟨hheap₁, by rw [hprocs₁], hp₁, 0, Nat.zero_le _, fun h => absurd h Bool.false_ne_true, ?_⟩
      rw [hprocs₁, Nat.zero_mul, Nat.add_zero, w32_of_lt hbrk]

/-! ## A call -/

/-- What a call does. -/
theorem sysSbrk_cases {incr : Int} {r : Nat} (h : sysSbrk m p incr = some (r, m')) :
    (incr ≤ 0 ∧ r = (m.procs p).memBrk ∧ m' = m) ∨
    (0 < incr ∧ incr ≤ sub32 (m.procs p).brkPage (m.procs p).memBrk ∧ r = (m.procs p).memBrk ∧ m' = m.moveBrk p incr) ∨
    (0 < incr ∧ sub32 (m.procs p).brkPage (m.procs p).memBrk < incr ∧ ∃ ok m₁,
      growHeap p (numPagesInt incr).toNat m = some (ok, m₁) ∧
        ((ok = true ∧ r = (m.procs p).memBrk ∧ m' = m₁.moveBrk p incr) ∨ (ok = false ∧ r = 4294967295 ∧ m' = m₁))) := by
  unfold sysSbrk at h
  simp only at h
  split at h
  · rename_i hle
    cases h
    exact .inl ⟨hle, rfl, rfl⟩
  · rename_i hle
    split at h
    · rename_i hrest
      obtain ⟨⟨ok, m₁⟩, hheap, heq⟩ := Option.map_eq_some_iff.mp h
      unfold increaseHeap at hheap
      split at hheap
      · refine .inr (.inr ⟨by omega, hrest, ok, m₁, hheap, ?_⟩)
        cases ok with
        | true =>
          obtain ⟨rfl, rfl⟩ := Prod.mk.inj heq
          exact .inl ⟨rfl, rfl, rfl⟩
        | false =>
          obtain ⟨rfl, rfl⟩ := Prod.mk.inj heq
          exact .inr ⟨rfl, rfl, rfl⟩
      · cases hheap
    · rename_i hrest
      cases h
      exact .inr (.inl ⟨by omega, by omega, rfl, rfl⟩)

theorem moveBrk_procs (m : Machine) (p : Nat) (incr : Int) :
    (m.moveBrk p incr).procs p = { m.procs p with memBrk := w32 ((m.procs p).memBrk + incr.toNat) } :=
  Function.update_self ..

/-- The pages stay mapped when only the end of the heap moves. -/
theorem brkMapped_moveBrk (h : BrkMapped start p m) (incr : Int) : BrkMapped start p (m.moveBrk p incr) := by
  intro n hs hlt
  rw [moveBrk_procs] at hlt ⊢
  exact h n hs hlt

/-- What holds of the process between the calls. -/
structure SbrkInv (start p : Nat) (m : Machine) : Prop where
  space : ∃ own, SpaceInv own m
  live : (m.procs p).live = true
  aligned : (m.procs p).brkPage % 4096 = 0
  heap : BrkOk start p m

theorem SbrkInv.withWork {work : List (List KernelAction)} (h : SbrkInv start p m) : SbrkInv start p { m with work := work } := by
  obtain ⟨own, hinv⟩ := h.space
  exact ⟨⟨own, hinv.withWork _⟩, h.live, h.aligned, h.heap.brk, h.heap.mapped⟩

section Call

variable {incr : Int} {r : Nat} (hinv : SbrkInv start p m) (hhigh : incr < 2147483648)
  (hspare : ∀ n, start ≤ n * pageSize → m.Spares n) (h : sysSbrk m p incr = some (r, m'))

include hinv in
theorem brkPage_lt : (m.procs p).brkPage < 4294967296 := by
  obtain ⟨own, hspace⟩ := hinv.space
  exact (hspace.holds p hinv.live).brk

include hinv in
theorem rest_eq : (sub32 (m.procs p).brkPage (m.procs p).memBrk : Int) = (m.procs p).brkPage - (m.procs p).memBrk := by
  rw [sub32_of_le hinv.heap.brk (brkPage_lt hinv)]
  have := hinv.heap.brk
  omega

include hinv hspare h in
/-- The process after a call, whether the increment fits or not; only the end of the heap may be wrong. -/
theorem sysSbrk_keeps : (∃ own, SpaceInv own m') ∧ (m'.procs p).live = true ∧ (m'.procs p).brkPage % 4096 = 0 ∧
    BrkMapped start p m' := by
  obtain ⟨own, hspace⟩ := hinv.space
  refine ⟨sysSbrk_inv hspace hinv.live h, ?_⟩
  rcases sysSbrk_cases h with ⟨-, -, rfl⟩ | ⟨-, -, -, rfl⟩ | ⟨-, -, ok, m₁, hgrow, hor⟩
  · exact ⟨hinv.live, hinv.aligned, hinv.heap.mapped⟩
  · rw [moveBrk_procs]
    exact ⟨hinv.live, hinv.aligned, brkMapped_moveBrk hinv.heap.mapped incr⟩
  · have hg := growHeap_heap hspace hinv.live hinv.aligned hspare hinv.heap.mapped hgrow
    obtain ⟨k, -, -, hbrk⟩ := hg.brkPage
    have hal := hinv.aligned
    have haligned : (m₁.procs p).brkPage % 4096 = 0 := by
      rw [hbrk, w32]
      omega
    rcases hor with ⟨-, -, rfl⟩ | ⟨-, -, rfl⟩
    · rw [moveBrk_procs]
      exact ⟨hg.live, haligned, brkMapped_moveBrk hg.mapped incr⟩
    · exact ⟨hg.live, haligned, hg.mapped⟩

include hinv hspare h in
/-- An increment that fits, if no address wraps. -/
theorem sysSbrk_done (hfits : SbrkFits p m incr) (hbrk : (m.procs p).brkPage ≤ (m'.procs p).brkPage)
    (hmem : (m.procs p).memBrk ≤ (m'.procs p).memBrk) : SbrkDone start p m m' incr r := by
  obtain ⟨-, -, -, hmapped⟩ := sysSbrk_keeps hinv hspare h
  have hlt := brkPage_lt hinv
  have hrest := rest_eq hinv
  have hal := hinv.aligned
  have hle := hinv.heap.brk
  rcases sysSbrk_cases h with ⟨hneg, rfl, rfl⟩ | ⟨hpos, hroom, rfl, rfl⟩ | ⟨hpos, hroom, ok, m₁, hgrow, hor⟩
  · exact ⟨hinv.heap, fun hpos => absurd hpos (by omega), fun _ => rfl⟩
  · rw [hrest] at hroom
    have hnew : ((m.moveBrk p incr).procs p).memBrk = (m.procs p).memBrk + incr.toNat := by
      rw [moveBrk_procs]
      exact w32_of_lt (by omega)
    have hpage : ((m.moveBrk p incr).procs p).brkPage = (m.procs p).brkPage := by rw [moveBrk_procs]
    refine ⟨⟨by omega, hmapped⟩, fun _ _ => ⟨rfl, fun a _ ha => by omega⟩, fun hr => ?_⟩
    omega
  · obtain ⟨own, hspace⟩ := hinv.space
    have hg := growHeap_heap hspace hinv.live hinv.aligned hspare hinv.heap.mapped hgrow
    have hg_mem := hg.memBrk
    obtain ⟨k, hk, hall, hg_brk⟩ := hg.brkPage
    rw [hrest] at hroom
    obtain ⟨henough, hfew⟩ := numPagesInt_of_lt hpos (hfits.resolve_left (by omega))
    rcases hor with ⟨rfl, rfl, rfl⟩ | ⟨rfl, rfl, rfl⟩
    · rw [moveBrk_procs] at hbrk hmem
      simp only at hbrk hmem
      have hkall := hall rfl
      have hnowrap : (m₁.procs p).brkPage = (m.procs p).brkPage + k * 4096 := by
        rw [hg_brk, w32] at hbrk ⊢
        omega
      have hnew : ((m₁.moveBrk p incr).procs p).memBrk = (m.procs p).memBrk + incr.toNat := by
        rw [moveBrk_procs]
        rw [hg_mem, w32] at hmem
        simp only [hg_mem, w32]
        omega
      have hpage : ((m₁.moveBrk p incr).procs p).brkPage = (m₁.procs p).brkPage := by rw [moveBrk_procs]
      refine ⟨⟨by omega, hmapped⟩, fun _ _ => ⟨rfl, fun a _ ha => by omega⟩, fun hr => ?_⟩
      omega
    · exact ⟨⟨by omega, hmapped⟩, fun _ hr => absurd rfl hr, fun _ => hg_mem⟩

include hinv hhigh h in
/-- An increment that does not fit moves the end of the heap behind its pages. -/
theorem sysSbrk_overrun (hfits : ¬SbrkFits p m incr) (hmem : (m.procs p).memBrk ≤ (m'.procs p).memBrk) :
    (m'.procs p).brkPage < (m'.procs p).memBrk := by
  unfold SbrkFits at hfits
  have hrest := rest_eq hinv
  have hle := hinv.heap.brk
  have hlt := brkPage_lt hinv
  rcases sysSbrk_cases h with ⟨hneg, -⟩ | ⟨-, hroom, -⟩ | ⟨hpos, -, ok, m₁, hgrow, hor⟩
  · omega
  · omega
  · rw [numPagesInt_of_ge hhigh (by omega)] at hgrow
    obtain ⟨rfl, rfl⟩ := Prod.mk.inj (Option.some.inj hgrow)
    rcases hor with ⟨-, -, rfl⟩ | ⟨hno, -⟩
    · rw [moveBrk_procs] at hmem ⊢
      simp only [w32] at hmem ⊢
      omega
    · cases hno

end Call

end SbrkAux

open SbrkAux

/-- In every sequence of calls whose increments fit, the heap stays in order; and a call does what it is to do exactly when its increment
fits. -/
theorem sbrk_heap {own : Owners} {p : Nat} {m₀ m : Machine} (h₀ : SpaceInv own m₀) (hp : (m₀.procs p).live = true)
    (hal : (m₀.procs p).brkPage % pageSize = 0) (hb : (m₀.procs p).memBrk ≤ (m₀.procs p).brkPage)
    (h : Reach (sbrkStep p) (fun m call => SbrkCall (m₀.procs p).brkPage p m call ∧ SbrkFits p m call.1) m₀ m) :
    BrkOk (m₀.procs p).brkPage p m ∧
      ∀ incr work r m', SbrkCall (m₀.procs p).brkPage p m (incr, work) → sysSbrk { m with work := work } p incr = some (r, m') →
        (SbrkDone (m₀.procs p).brkPage p m m' incr r ↔ SbrkFits p m incr) := by
  have hdone : ∀ {m} {incr : Int} {work} {r m'}, SbrkInv (m₀.procs p).brkPage p m → SbrkCall (m₀.procs p).brkPage p m (incr, work) →
      sysSbrk { m with work := work } p incr = some (r, m') →
        (SbrkFits p m incr → SbrkInv (m₀.procs p).brkPage p m' ∧ SbrkDone (m₀.procs p).brkPage p m m' incr r) ∧
        (¬SbrkFits p m incr → (m'.procs p).brkPage < (m'.procs p).memBrk) := by
    intro m incr work r m' hinv hc hcall
    have hspare : ∀ n, (m₀.procs p).brkPage ≤ n * pageSize → Machine.Spares { m with work := work } n :=
      fun n hs actions hmem action ha => hc.spares actions hmem action ha n hs
    obtain ⟨hbrk, hmem⟩ := hc.noWrap r m' hcall
    refine ⟨fun hfits => ?_, fun hfits => sysSbrk_overrun hinv.withWork hc.high hcall hfits hmem⟩
    obtain ⟨hspace, hlive, haligned, -⟩ := sysSbrk_keeps hinv.withWork hspare hcall
    have hd := sysSbrk_done hinv.withWork hspare hcall hfits hbrk hmem
    exact ⟨⟨hspace, hlive, haligned, hd.heap⟩, hd.heap, hd.grown, hd.failed⟩
  have hinv : SbrkInv (m₀.procs p).brkPage p m := by
    refine h.inv _ ⟨⟨own, h₀⟩, hp, hal, hb, fun n hs hlt => absurd hlt (by omega)⟩ ?_
    rintro m ⟨incr, work⟩ m' hinv ⟨hc, hfits⟩ hstep
    obtain ⟨⟨r, m''⟩, hcall, rfl⟩ := Option.map_eq_some_iff.mp hstep
    exact ((hdone hinv hc hcall).1 hfits).1
  refine ⟨hinv.heap, fun incr work r m' hc hcall => ⟨fun hd => ?_, fun hfits => ((hdone hinv hc hcall).1 hfits).2⟩⟩
  by_contra hfits
  exact absurd hd.heap.brk (Nat.not_le.mpr ((hdone hinv hc hcall).2 hfits))

/-- One segment of 100 bytes at the start of user space. -/
def smallProgram : SpaceCall × List (List KernelAction) := (.exec [⟨ptLoad, 0x40000000, 100, by decide, by decide⟩], [])

namespace SbrkAux

theorem smallProgram_loaded : ∃ m own, SpaceInv own m ∧ (m.procs 0).live = true ∧ (m.procs 0).memBrk = 0x40000064 ∧
    (m.procs 0).brkPage = 0x40001000 ∧
    (sysSbrk { m with work := [] } 0 4000).map (fun (r, m') => (r, (m'.procs 0).memBrk, (m'.procs 0).brkPage)) =
      some (0x40000064, 0x40001004, 0x40002000) := by
  have hrun : (SpaceCall.perform smallMachine smallProgram).map (fun m => decide ((m.procs 0).live = true ∧
      (m.procs 0).memBrk = 0x40000064 ∧ (m.procs 0).brkPage = 0x40001000 ∧
      (sysSbrk { m with work := [] } 0 4000).map (fun (r, m') => (r, (m'.procs 0).memBrk, (m'.procs 0).brkPage)) =
        some (0x40000064, 0x40001004, 0x40002000))) = some true := by
    decide +kernel
  obtain ⟨m, hm, hfacts⟩ := Option.map_eq_some_iff.mp hrun
  obtain ⟨own, hinv⟩ := UserFramesAux.spaceInv_step ⟨_, UserFramesAux.spaceInv_start booted_smallMachine⟩ hm
  obtain ⟨hp, hmem, hpage, hcall⟩ := of_decide_eq_true hfacts
  exact ⟨m, own, hinv, hp, hmem, hpage, hcall⟩

end SbrkAux

/-- The heap of the program grows by a page. -/
theorem sbrk_heap_one_page : ∃ m r m', SbrkCall 0x40001000 0 m (4000, []) ∧ sysSbrk { m with work := [] } 0 4000 = some (r, m') ∧
    (m'.procs 0).brkPage = 0x40002000 ∧ BrkOk 0x40001000 0 m ∧ SbrkDone 0x40001000 0 m m' 4000 r := by
  obtain ⟨m, own, hinv, hp, hmem, hpage, hcall⟩ := smallProgram_loaded
  obtain ⟨⟨r, m'⟩, hsbrk, heq⟩ := Option.map_eq_some_iff.mp hcall
  simp only [Prod.mk.injEq] at heq
  obtain ⟨-, hmem', hpage'⟩ := heq
  have hc : SbrkCall 0x40001000 0 m (4000, []) := by
    refine ⟨by decide, by decide, fun r₁ m₁ h₁ => ?_, fun a ha => by cases ha⟩
    obtain ⟨rfl, rfl⟩ := Prod.mk.inj (Option.some.inj (hsbrk.symm.trans h₁))
    omega
  have hall := sbrk_heap (p := 0) hinv hp (by rw [hpage]; rfl) (by omega) .init
  rw [hpage] at hall
  exact ⟨m, r, m', hc, hsbrk, hpage', hall.1, (hall.2 4000 [] r m' hc hsbrk).mpr (.inr (by decide))⟩

/-- The largest increment moves the end of the heap by 2 GiB, and no page is mapped. -/
theorem sbrk_overrun : ∃ m own r m', SpaceInv own m ∧ (m.procs 0).live = true ∧ (m.procs 0).brkPage = 0x40001000 ∧
    (m.procs 0).memBrk = 0x40000064 ∧ SbrkCall 0x40001000 0 m (2147483647, []) ∧
    sysSbrk { m with work := [] } 0 2147483647 = some (r, m') ∧ r = 0x40000064 ∧ (m'.procs 0).brkPage = 0x40001000 ∧
    (m'.procs 0).memBrk = 0xC0000063 ∧ ¬SbrkDone 0x40001000 0 m m' 2147483647 r := by
  obtain ⟨m, own, hinv, hp, hmem, hpage, -⟩ := smallProgram_loaded
  let m₁ : Machine := { m with work := [] }
  have hcall : sysSbrk m₁ 0 2147483647 = some (0x40000064, m₁.moveBrk 0 2147483647) := by
    have hrest : sub32 (m₁.procs 0).brkPage (m₁.procs 0).memBrk = 3996 := by rw [show m₁.procs = m.procs from rfl, hmem, hpage]; rfl
    have hal : isPageAligned (m₁.procs 0).brkPage = true := by rw [show m₁.procs = m.procs from rfl, hpage]; rfl
    have hzero : (numPagesInt 2147483647).toNat = 0 := by decide
    simp only [sysSbrk, hrest, increaseHeap, hal, if_true, hzero, growHeap]
    rw [show (m₁.procs 0).memBrk = 0x40000064 from hmem]
    rfl
  have hmem' : ((m₁.moveBrk 0 2147483647).procs 0).memBrk = 0xC0000063 := by
    rw [moveBrk_procs, show m₁.procs = m.procs from rfl, hmem]
    rfl
  have hpage' : ((m₁.moveBrk 0 2147483647).procs 0).brkPage = 0x40001000 := by
    rw [moveBrk_procs]
    exact hpage
  refine ⟨m, own, _, _, hinv, hp, hpage, hmem, ⟨by decide, by decide, fun r₂ m₂ h₂ => ?_, fun a ha => by cases ha⟩, hcall, rfl, hpage', hmem', fun hd => ?_⟩
  · obtain ⟨rfl, rfl⟩ := Prod.mk.inj (Option.some.inj (hcall.symm.trans h₂))
    omega
  · have := hd.heap.brk
    omega

end Kos
