import Kos.Lemmas.SpacePages
import Kos.Pm.Getcmdline
import Kos.Theorems.UserFrames

/-!
# What a process sees of its command line

`sys_getcmdline` knows the frame of the page at `INFO_SPACE_START` only in the call that maps it. Later, and in a process that was
forked, `cmdline_mapped` is set and the frame is `NULL`, so the command line is written to the beginning of the physical memory.
-/

namespace Kos

open InfoSpace

/-- The frame that the process `p` has at `INFO_SPACE_START`. -/
def Machine.infoFrame (m : Machine) (p : Nat) : Option Nat :=
  (pageEntry m.vm (m.procs p).pdir (infoSpaceStart / pageSize)).map getaddr

/-- The page at `INFO_SPACE_START` begins with the command line. -/
def InfoSpace.Shows (s : InfoSpace) (p : Nat) (line : CString) : Prop :=
  ∃ f, s.m.infoFrame p = some f ∧ s.memory.At f (withNul line)

/-- What a call is to do: the command line is on the page, if there is room, and nothing was written elsewhere. -/
structure InfoSpace.CmdlineShown (s : InfoSpace) (p : Nat) (line : CString) : Prop where
  shown : line.length < pageSize → s.Shows p line
  inside : ∀ w ∈ s.written, ∀ a, w.1 ≤ a → a < w.1 + w.2 → ∃ f, s.m.infoFrame p = some f ∧ f ≤ a ∧ a < f + pageSize

/-- The page is yet to be mapped, and there is one that has room for the command line. If there is none, the command line may be at
its place already; and the physical address 0 would be right if it were that of the page. -/
def InfoSpace.CanShow (s : InfoSpace) (p : Nat) (line : CString) : Prop :=
  if (s.lines p).cmdlineMapped then line.length < pageSize ∧ s.m.infoFrame p = some 0
  else if (mmAllocPage s.m.vm.mm).1 ≠ noPage then line.length < pageSize
  else line.length < pageSize → s.Shows p line

namespace GetcmdlineAux

variable {own : Owners} {s s' : InfoSpace} {p : Nat} {line : CString}

theorem length_withNul (line : CString) : (withNul line).length = line.length + 1 := by
  simp [withNul]

theorem infoFrame_mod {m : Machine} {f : Nat} (h : m.infoFrame p = some f) : f % 4096 = 0 := by
  obtain ⟨pte, -, rfl⟩ := Option.map_eq_some_iff.mp h
  exact getaddr_mod pte

/-- The kernel's own work does not change the page, unless it maps it. -/
theorem infoFrame_kernelWork {m m' : Machine} (h : SpaceInv own m) (hp : (m.procs p).live = true)
    (hspare : m.Spares (infoSpaceStart / pageSize)) (hw : m.kernelWork = some m') : m'.infoFrame p = m.infoFrame p := by
  obtain ⟨own', -, hmoves⟩ := h.kernelWork hw
  rw [Machine.infoFrame, Machine.infoFrame, hmoves.procs,
    kernelWork_pageEntry h.kernelOk (h.holds p hp).space (by decide) hspare hw]

/-- After a new page was mapped there, it is the one. -/
theorem infoFrame_newPage {m m' : Machine} {page : Nat} (h : SpaceInv own m) (hp : (m.procs p).live = true)
    (hspare : m.Spares (infoSpaceStart / pageSize))
    (hn : newPage m (m.procs p).pdir infoSpaceStart vmUserFlags false = some (some page, m')) : m'.infoFrame p = some page := by
  obtain ⟨own', -, hprocs, -⟩ := newPage_inv h hp (by decide) hn
  obtain ⟨-, hself⟩ := newPage_pageMap h.kernelOk (h.holds p hp).space (by decide) present_vmUserFlags vmUserFlags_lt (by nofun) hn
    (by decide : infoSpaceStart / pageSize < 1048576) (.inl hspare)
  obtain ⟨hclean, -⟩ := hself page rfl rfl
  rw [← hprocs] at hclean
  rw [Machine.infoFrame]
  cases hentry : pageEntry m'.vm (m'.procs p).pdir (infoSpaceStart / pageSize) with
  | none =>
    rw [pageMap, hentry] at hclean
    cases hclean
  | some pte =>
    rw [pageMap, hentry] at hclean
    exact congrArg some (Prod.mk.inj (Option.some.inj hclean)).1

/-- A command line that is written to a page is right if it is the page at `INFO_SPACE_START` and there is room. -/
theorem shown_iff_of_written {page : Nat} (hw : s'.written = [(page, (withNul line).length)])
    (hmem : s'.memory = s.memory.put page (withNul line).length ((withNul line).getD · 0)) (hpage : page < 4294967296)
    (hmod : page % 4096 = 0) :
    s'.CmdlineShown p line ↔ line.length < pageSize ∧ s'.m.infoFrame p = some page := by
  rw [length_withNul] at hw
  constructor
  · rintro ⟨-, hin⟩
    rw [hw] at hin
    have hinside (k : Nat) (hk : k ≤ line.length) := hin _ List.mem_cons_self (page + k) (Nat.le_add_right _ _) (by dsimp only; omega)
    obtain ⟨f, hf, hle, hlt⟩ := hinside 0 (Nat.zero_le _)
    obtain ⟨f', hf', -, hlt'⟩ := hinside line.length (Nat.le_refl _)
    obtain rfl : f = f' := Option.some.inj (hf.symm.trans hf')
    have hfmod := infoFrame_mod hf
    simp only [pageSize] at hlt hlt' ⊢
    obtain rfl : f = page := by omega
    exact ⟨by omega, hf⟩
  · rintro ⟨hlen, hf⟩
    refine ⟨fun _ => ⟨page, hf, ?_⟩, fun w hmem a hlo hhi => ⟨page, hf, ?_⟩⟩
    · rw [hmem]
      refine Memory.at_put _ ?_
      rw [length_withNul]
      simp only [pageSize] at hlen
      omega
    · rw [hw] at hmem
      cases List.mem_singleton.mp hmem
      exact ⟨hlo, by dsimp only at hhi; omega⟩

/-! ## Runs -/

theorem cpyPv_spec {dst : Nat} {src : List UInt8} (h : s.cpyPv dst src = some s') :
    ∃ m, s.m.kernelWork = some m ∧
      s' = { s with m := m, memory := s.memory.put dst src.length (src.getD · 0), written := (dst, src.length) :: s.written } := by
  obtain ⟨m, hm, rfl⟩ := Option.map_eq_some_iff.mp h
  exact ⟨m, hm, rfl⟩

/-- The outcomes of `sys_getcmdline` for a process that has a command line. -/
theorem sysGetcmdline_cases {r : Nat} (hline : (s.lines p).cmdline = some line) (h : s.sysGetcmdline p = some (r, s')) :
    ((s.lines p).cmdlineMapped = true ∧ s.cpyPv 0 (withNul line) = some s') ∨
    ((s.lines p).cmdlineMapped = false ∧ ∃ m, newPage s.m (s.m.procs p).pdir infoSpaceStart vmUserFlags false = some (none, m) ∧
      s' = { s with m := m }) ∨
    ((s.lines p).cmdlineMapped = false ∧ ∃ page m lines,
      newPage s.m (s.m.procs p).pdir infoSpaceStart vmUserFlags false = some (some page, m) ∧
      cpyPv { s with m := m, lines := lines } page (withNul line) = some s') := by
  simp only [sysGetcmdline, hline] at h
  obtain ⟨⟨page, s₁⟩, hpage, h⟩ := Option.bind_eq_some_iff.mp h
  unfold cmdlinePage at hpage
  split at hpage
  · rename_i hmapped
    cases hpage
    obtain ⟨s₂, hcpy, heq⟩ := Option.map_eq_some_iff.mp h
    cases heq
    exact .inl ⟨hmapped, hcpy⟩
  · rename_i hmapped
    have hmapped := Bool.not_eq_true _ ▸ hmapped
    obtain ⟨⟨page', m⟩, hnew, heq⟩ := Option.map_eq_some_iff.mp hpage
    cases page' with
    | none =>
      cases heq
      cases h
      exact .inr (.inl ⟨hmapped, m, hnew, rfl⟩)
    | some page' =>
      cases heq
      obtain ⟨s₂, hcpy, heq⟩ := Option.map_eq_some_iff.mp h
      cases heq
      exact .inr (.inr ⟨hmapped, page', m, _, hnew, hcpy⟩)

/-- What one call does, when the owners of the frames are known. -/
theorem sysGetcmdline_shown_iff {r : Nat} (h : SpaceInv own s.m) (hp : (s.m.procs p).live = true) (hw : s.written = [])
    (hline : (s.lines p).cmdline = some line) (hspare : s.m.Spares (infoSpaceStart / pageSize))
    (hcall : s.sysGetcmdline p = some (r, s')) : s'.CmdlineShown p line ↔ s.CanShow p line := by
  unfold CanShow
  rcases sysGetcmdline_cases hline hcall with ⟨hmapped, hcpy⟩ | ⟨hmapped, m, hnew, rfl⟩ | ⟨hmapped, page, m, lines, hnew, hcpy⟩
  · -- the command line goes to the physical address 0
    obtain ⟨m, hwork, rfl⟩ := cpyPv_spec hcpy
    rw [if_pos hmapped, shown_iff_of_written (s := s) (by rw [hw]) rfl (by decide) rfl, infoFrame_kernelWork h hp hspare hwork]
  · -- there is no page, and nothing is written
    rcases newPage_returns hnew with ⟨-, mm, hal, rfl⟩ | ⟨page, mm, vm, hr, -⟩
    · rw [if_neg (by rw [hmapped]; decide), if_neg (by rw [hal]; exact fun hne => hne rfl)]
      refine ⟨fun hs => hs.shown, fun hs => ⟨hs, fun w hmem => ?_⟩⟩
      rw [hw] at hmem
      cases hmem
    · cases hr
  · -- the page is new
    obtain ⟨hfree, hmod, hlt, -⟩ := newPage_page hnew
    obtain ⟨own₁, hinv₁, hprocs, -⟩ := newPage_inv h hp (by decide) hnew
    obtain ⟨m₂, hwork, rfl⟩ := cpyPv_spec hcpy
    have hframe : m₂.infoFrame p = some page := by
      rw [infoFrame_kernelWork hinv₁ (by rw [hprocs]; exact hp) (newPage_spares hnew hspare) hwork]
      exact infoFrame_newPage h hp hspare hnew
    rw [if_neg (by rw [hmapped]; decide), if_pos hfree, shown_iff_of_written (s := s) (by rw [hw]) rfl hlt hmod]
    exact ⟨fun hs => hs.1, fun hs => ⟨hs, hframe⟩⟩

theorem perform_getcmdline {work : List (List KernelAction)} (h : InfoCall.perform s (.getcmdline p, work) = some s') :
    (s.m.procs p).live = true ∧ ∃ r, (s.enter work).sysGetcmdline p = some (r, s') := by
  simp only [InfoCall.perform] at h
  split at h
  · rename_i hp
    obtain ⟨⟨r, s₁⟩, hcall, rfl⟩ := Option.map_eq_some_iff.mp h
    exact ⟨hp, r, hcall⟩
  · cases h

/-- Every call keeps the owners. -/
theorem sysGetcmdline_inv {r : Nat} (h : SpaceInv own s.m) (hp : (s.m.procs p).live = true)
    (hcall : s.sysGetcmdline p = some (r, s')) : ∃ own', SpaceInv own' s'.m := by
  cases hline : (s.lines p).cmdline with
  | none =>
    rw [sysGetcmdline, hline] at hcall
    cases hcall
    exact ⟨own, h⟩
  | some line =>
    have hwork {own₁ : Owners} {s₁ : InfoSpace} {dst : Nat} (h₁ : SpaceInv own₁ s₁.m)
        (hcpy : s₁.cpyPv dst (withNul line) = some s') : ∃ own', SpaceInv own' s'.m := by
      obtain ⟨m, hwork, rfl⟩ := cpyPv_spec hcpy
      obtain ⟨own', hinv, -⟩ := h₁.kernelWork hwork
      exact ⟨own', hinv⟩
    rcases sysGetcmdline_cases hline hcall with ⟨-, hcpy⟩ | ⟨-, m, hnew, rfl⟩ | ⟨-, page, m, lines, hnew, hcpy⟩
    · exact hwork h hcpy
    · obtain ⟨own₁, hinv₁, -⟩ := newPage_inv h hp (by decide) hnew
      exact ⟨own₁, hinv₁⟩
    · obtain ⟨own₁, hinv₁, -⟩ := newPage_inv h hp (by decide) hnew
      exact hwork hinv₁ hcpy

theorem perform_inv {call : InfoCall × List (List KernelAction)} (h : ∃ own, SpaceInv own s.m)
    (hs : InfoCall.perform s call = some s') : ∃ own, SpaceInv own s'.m := by
  obtain ⟨call, work⟩ := call
  cases call with
  | space c cmdline =>
    obtain ⟨m, hm, rfl⟩ := Option.map_eq_some_iff.mp hs
    exact UserFramesAux.spaceInv_step (m := (s.enter work).m) (h.imp fun own h => h.withWork work) hm
  | getcmdline p =>
    obtain ⟨own, h⟩ := h
    obtain ⟨hp, r, hcall⟩ := perform_getcmdline hs
    exact sysGetcmdline_inv (s := s.enter work) (h.withWork work) hp hcall
  | store memory =>
    cases hs
    exact h.imp fun own h => h.withWork work

end GetcmdlineAux

open GetcmdlineAux

/-- In every state that the calls reach, and for every process that lives, whether it was created or forked: a call shows the command
line and writes nowhere else if the page is yet to be mapped, there is a page left, and the command line has room on it. -/
theorem getcmdline_shown_iff {s₀ s s' : InfoSpace} {p : Nat} {line : CString} {work : List (List KernelAction)} (h₀ : Booted s₀.m)
    (h : Reach InfoCall.perform (fun _ _ => True) s₀ s) (hline : (s.lines p).cmdline = some line)
    (hspare : ∀ actions ∈ work, ∀ action ∈ actions, action.Spares (infoSpaceStart / pageSize))
    (hcall : InfoCall.perform s (.getcmdline p, work) = some s') : s'.CmdlineShown p line ↔ s.CanShow p line := by
  obtain ⟨own, hinv⟩ := h.inv (fun s => ∃ own, SpaceInv own s.m) ⟨_, UserFramesAux.spaceInv_start h₀⟩
    fun _ _ _ hs _ hstep => perform_inv hs hstep
  obtain ⟨hp, r, hcall⟩ := perform_getcmdline hcall
  exact sysGetcmdline_shown_iff (s := s.enter work) (hinv.withWork work) hp rfl hline hspare hcall

/-- The small machine, before the first process. -/
def infoStart : InfoSpace := ⟨smallMachine, fun _ => ⟨none, false⟩, fun _ => 0, []⟩

/-- The first call of a process that was created with the command line `a`. -/
theorem firstCall_shown : ∃ s s', Reach InfoCall.perform (fun _ _ => True) infoStart s ∧
    InfoCall.perform s (.getcmdline 0, []) = some s' ∧ s'.CmdlineShown 0 [.a] := by
  have hrun : ((InfoCall.perform infoStart (.space .create [.a], [])).map fun s =>
      decide ((s.lines 0).cmdline = some [.a] ∧ (s.lines 0).cmdlineMapped = false ∧ (mmAllocPage s.m.vm.mm).1 ≠ noPage ∧
        (InfoCall.perform s (.getcmdline 0, [])).isSome = true)) = some true := by decide +kernel
  obtain ⟨s, hs, hdecide⟩ := Option.map_eq_some_iff.mp hrun
  obtain ⟨hline, hmapped, hfree, hcall⟩ := of_decide_eq_true hdecide
  obtain ⟨s', hcall⟩ := Option.isSome_iff_exists.mp hcall
  have hreach : Reach InfoCall.perform (fun _ _ => True) infoStart s := .step _ .init trivial hs
  refine ⟨s, s', hreach, hcall, ?_⟩
  refine (getcmdline_shown_iff booted_smallMachine hreach hline (fun _ hmem => by cases hmem) hcall).mpr ?_
  rw [CanShow, if_neg (by rw [hmapped]; decide), if_pos hfree]
  decide

/-- The second call writes two bytes at the physical address 0, and the page is elsewhere. -/
theorem secondCall_not_shown : ∃ s s', Reach InfoCall.perform (fun _ _ => True) infoStart s ∧ (s.lines 0).cmdline = some [.a] ∧
    InfoCall.perform s (.getcmdline 0, []) = some s' ∧ s'.written = [(0, 2)] ∧ s'.m.infoFrame 0 = some 0x93000 ∧
    ¬s'.CmdlineShown 0 [.a] := by
  have hrun : ((InfoCall.perform infoStart (.space .create [.a], [])).bind fun s₁ =>
      (InfoCall.perform s₁ (.getcmdline 0, [])).bind fun s => (InfoCall.perform s (.getcmdline 0, [])).map fun s' =>
        ((s.lines 0).cmdline, s'.written, s'.m.infoFrame 0)) = some (some [.a], [(0, 2)], some 0x93000) := by decide +kernel
  obtain ⟨s₁, hcreate, hrun⟩ := Option.bind_eq_some_iff.mp hrun
  obtain ⟨s, hfirst, hrun⟩ := Option.bind_eq_some_iff.mp hrun
  obtain ⟨s', hsecond, heq⟩ := Option.map_eq_some_iff.mp hrun
  simp only [Prod.mk.injEq] at heq
  obtain ⟨hline, hwritten, hframe⟩ := heq
  refine ⟨s, s', .step _ (.step _ .init trivial hcreate) trivial hfirst, hline, hsecond, hwritten, hframe, fun hshown => ?_⟩
  obtain ⟨f, hf, hle, -⟩ := hshown.inside (0, 2) (by rw [hwritten]; exact List.mem_singleton_self _) 0 (Nat.le_refl 0) (by decide)
  rw [hframe] at hf
  cases hf
  exact absurd hle (by decide)

end Kos
