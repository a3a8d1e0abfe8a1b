import Kos.Lemmas.PageMap
import Kos.Lemmas.ProcSpace

/-!
# The pages of a process as a map

An address space whose frames have their owners is a directory whose tables are in different frames, so what is known of page
directories as maps holds for it. A new page changes the map of its process at one page; the kernel's own work changes it at most at
the pages that the kernel maps, and the steps of other processes leave its user space alone.
-/

namespace Kos

open SpaceAux PageMapAux

theorem Owner.tab_inj {p i j : Nat} (h : Owner.tab p i = Owner.tab p j) : i = j := by
  unfold Owner.tab at h
  split_ifs at h with hi hj hj
  · exact Owner.kernelTab.inj h
  · exact (Owner.table.inj h).2

/-- The tables of an address space are in different frames. -/
theorem Space.pdirOk {own : Owners} {vm : Vm} {p pdir : Nat} (hu : InUse own vm) (hs : Space own vm p pdir) : PdirOk vm pdir := by
  refine ⟨⟨(hu.used pdir _ hs.dir).1, fun i hi hp => (hu.used _ _ (hs.table i hi hp)).1, fun i hi hp he => ?_⟩,
    fun i hi j hj hpi hpj he => ?_⟩
  · have htab := hs.table i hi hp
    rw [he, hs.dir] at htab
    exact Owner.tab_ne_of (o := .pdir p) (.inl rfl) nofun (Option.some.inj htab)
  · have hti := hs.table i hi hpi
    rw [he, hs.table j hj hpj] at hti
    exact (Owner.tab_inj (Option.some.inj hti)).symm

/-- A step of the kernel or of another process leaves the pages of user space alone. -/
theorem Change.pageEntry_eq {own own' : Owners} {vm vm' : Vm} {a : Option Nat} {p pdir n : Nat} (h : Change own own' vm vm' a)
    (hp : a ≠ some p) (hs : Space own vm p pdir) (hn : UserPage n) : pageEntry vm' pdir n = pageEntry vm pdir n := by
  obtain ⟨hge, hlt⟩ := hn
  refine pageEntry_congr (by rw [h.dir_eq hp hs]) fun hpde => ?_
  rw [h.table_eq hp hs (by omega) (by omega) hpde]

/-! ## The kernel's own work -/

/-- The page with the number `n` is not one that the kernel maps. -/
def KernelAction.Spares (n : Nat) : KernelAction → Prop
  | .map _ vaddr _ _ => vaddr / 4096 ≠ n
  | _ => True

/-- Nothing that the kernel will do maps the page. -/
def Machine.Spares (m : Machine) (n : Nat) : Prop := ∀ actions ∈ m.work, ∀ action ∈ actions, action.Spares n

theorem KernelAction.exec_work {m m' : Machine} {action : KernelAction} (h : action.exec m = some m') : m'.work = m.work := by
  rcases KernelAction.exec_cases h with ⟨-, -, -, -, rfl⟩ | ⟨-, -, -, rfl⟩ | ⟨-, -, -, -, -, -, -, -, -, -, -, rfl⟩
  · rfl
  · rfl
  · rfl

/-- A mapping in another directory writes one entry, also in a table that is shared. -/
theorem MapStep.pageEntry_eq {own own' : Owners} {vm vm' : Vm} {dir v paddr ptab q pdir n : Nat} {flags : Entry} {force : Bool}
    {d T : Owner} (hstep : MapStep own own' vm vm' dir v paddr ptab flags force) (hd : own dir = some d) (hptab : own' ptab = some T)
    (hs : Space own vm q pdir) (hn : n < 1048576) (hdir : d ≠ .pdir q) (hdtab : ∀ i, d ≠ .tab q i) (hT : T ≠ .pdir q)
    (hTtab : Owner.tab q (n / 1024) = T → n ≠ v / 4096 ∧ n / 1024 = pdirIndex v) : pageEntry vm' pdir n = pageEntry vm pdir n := by
  have hne : ∀ {f o}, own f = some o → o ≠ d → f ≠ dir := by
    rintro f o hfo hno rfl
    exact hno (Option.some.inj (hfo.symm.trans hd))
  have hdir' : pdir ≠ ptab := by
    rintro rfl
    exact hT (Option.some.inj (hptab.symm.trans (hstep.owner _ _ hs.dir)))
  refine pageEntry_congr (by rw [hstep.tabs_eq hs.dir hdir' (hne hs.dir hdir.symm)]) fun hpde => ?_
  have htab := hs.table (n / 1024) (by omega) hpde
  by_cases he : getaddr (vm.tabs pdir (n / 1024)) = ptab
  · -- the table is shared, and it is the one for the same part of the address space
    rw [he] at htab ⊢
    obtain ⟨hnv, hi⟩ := hTtab (Option.some.inj ((hstep.owner _ _ htab).symm.trans hptab))
    exact hstep.owned_pte_eq htab fun hj => hnv (page_eq hi hj)
  · rw [hstep.tabs_eq htab he (hne htab (hdtab _).symm)]

theorem doMap_kernel_pageEntry {own : Owners} {vm vm' : Vm} {p pdir paddr v n : Nat} {flags : Entry} {force : Bool} (ho : Owned own vm)
    (hs : Space own vm p pdir) (hp : paddr < 4294967296) (hv : v < 4294967296) (hf : flags.toNat < 4096) (hn : n < 1048576)
    (hne : v / 4096 ≠ n) (h : doMap vm vm.kernelPdir paddr v flags force = some vm') :
    pageEntry vm' pdir n = pageEntry vm pdir n := by
  obtain ⟨own', ptab, hstep, hptab⟩ := doMap_step ho.toInUse ho.kernelPdir .kernelTab nofun (fun i hi hpde => (ho.kernelTab i hi hpde).2)
    hv hp hf h
  refine hstep.pageEntry_eq ho.kernelPdir hptab hs hn nofun (fun i => Owner.tab_ne_of (.inr rfl) nofun) nofun fun htab => ⟨hne.symm, ?_⟩
  unfold Owner.tab at htab
  split at htab
  · exact Owner.kernelTab.inj htab
  · cases htab

theorem KernelAction.exec_pageEntry {own : Owners} {m m' : Machine} {p pdir n : Nat} {action : KernelAction} (hk : KernelOk own m)
    (hs : Space own m.vm p pdir) (hn : n < 1048576) (hspare : action.Spares n) (h : action.exec m = some m') :
    pageEntry m'.vm pdir n = pageEntry m.vm pdir n := by
  rcases KernelAction.exec_cases h with ⟨-, -, -, -, rfl⟩ | ⟨-, -, -, rfl⟩ | ⟨paddr, v, flags, force, vm, rfl, hp, -, hv, hf, hmap, rfl⟩
  · rfl
  · rfl
  · simp only [userSpaceStart] at hv
    exact doMap_kernel_pageEntry hk.owned hs hp (by omega) hf hn hspare hmap

theorem kernelWork_work {m m' : Machine} (h : m.kernelWork = some m') : m'.work = m.work.tail := by
  refine kernelWork_induct (P := fun m₁ => m₁.work = m.work.tail) h rfl fun _ _ _ _ m₁ m₂ hm₁ hexec => ?_
  rw [KernelAction.exec_work hexec, hm₁]

theorem Machine.Spares.tail {m m' : Machine} {n : Nat} (h : m.Spares n) (hw : m'.work = m.work.tail) : m'.Spares n := by
  intro actions hmem
  rw [hw] at hmem
  exact h actions (List.mem_of_mem_tail hmem)

/-- What the kernel does for itself leaves the pages alone that it does not map. -/
theorem kernelWork_pageEntry {own : Owners} {m m' : Machine} {p pdir n : Nat} (hk : KernelOk own m) (hs : Space own m.vm p pdir)
    (hn : n < 1048576) (hspare : m.Spares n) (h : m.kernelWork = some m') : pageEntry m'.vm pdir n = pageEntry m.vm pdir n := by
  have hboth : (∃ own', Moves own own' m m' none) ∧ pageEntry m'.vm pdir n = pageEntry m.vm pdir n := by
    refine kernelWork_induct (P := fun m₁ => (∃ own', Moves own own' m m₁ none) ∧ pageEntry m₁.vm pdir n = pageEntry m.vm pdir n) h
      ⟨⟨own, ⟨hk.owned, hk.kernelPages⟩, .refl own m.vm none, rfl⟩, rfl⟩ fun actions hactions action haction m₁ m₂ hm₁ hexec => ?_
    obtain ⟨⟨own₁, hm₁⟩, heq⟩ := hm₁
    obtain ⟨own₂, hm₂⟩ := KernelAction.exec_moves hm₁.kernelOk hexec
    refine ⟨⟨own₂, hm₁.trans hm₂⟩, ?_⟩
    rw [KernelAction.exec_pageEntry hm₁.kernelOk (hm₁.change.space nofun hs) hn (hspare actions hactions action haction) hexec, heq]
  exact hboth.2

/-- It leaves user space alone, too. -/
theorem kernelWork_keeps {own : Owners} {m m' : Machine} {p pdir n : Nat} (hk : KernelOk own m) (hs : Space own m.vm p pdir)
    (hn : n < 1048576) (hspare : m.Spares n ∨ UserPage n) (h : m.kernelWork = some m') :
    pageEntry m'.vm pdir n = pageEntry m.vm pdir n := by
  rcases hspare with hspare | hu
  · exact kernelWork_pageEntry hk hs hn hspare h
  · obtain ⟨own', hmoves⟩ := kernelWork_moves hk h
    exact hmoves.change.pageEntry_eq nofun hs hu

/-! ## A new page -/

section

variable {own : Owners} {m m' : Machine} {p pdir v : Nat} {flags : Entry} {force : Bool} {r : Option Nat}

theorem newPage_work (h : newPage m pdir v flags force = some (r, m')) : m'.work = m.work ∨ m'.work = m.work.tail := by
  rcases newPage_returns h with ⟨-, mm, -, rfl⟩ | ⟨page, mm, vm, -, -, -, -, hwork⟩
  · exact .inl rfl
  · exact .inr (kernelWork_work (m := { m with vm := vm }) hwork)

theorem newPage_spares {n : Nat} (h : newPage m pdir v flags force = some (r, m')) (hspare : m.Spares n) : m'.Spares n := by
  rcases newPage_work h with hw | hw
  · unfold Machine.Spares
    rw [hw]
    exact hspare
  · exact hspare.tail hw

/-- The map of a process after a new page: the page is mapped with these flags, and the others stay. -/
theorem newPage_pageMap (hk : KernelOk own m) (hs : Space own m.vm p pdir) (hv : v < 4294967296) (hpf : present flags = true)
    (hf : flags.toNat < 4096) (hforce : force = true → 4096 ≤ v) (h : newPage m pdir v flags force = some (r, m')) {n : Nat}
    (hn : n < 1048576) (hspare : m.Spares n ∨ UserPage n) :
    (n ≠ v / 4096 ∨ r = none → pageMap m'.vm pdir n = pageMap m.vm pdir n) ∧
      ∀ page, r = some page → n = v / 4096 → clean (pageMap m'.vm pdir n) = clean (some (page, flags)) ∧
        (force = true → pageMap m'.vm pdir n = some (page, flags)) := by
  rcases newPage_cases hk hs hv hpf hf hforce h with ⟨rfl, mm, -, -, -, rfl⟩ | ⟨page, vm₁, own₁, rfl, hnew, hwork⟩
  · exact ⟨fun _ => rfl, nofun⟩
  · obtain ⟨mm, own₂, -, -, hmap, howned, -, hs₁, -⟩ := hnew.step hk hs hv hf
    have hok := hs₁.pdirOk howned.toInUse
    obtain ⟨-, -, hself, hothers⟩ := doMap_pageMap hok hv hnew.lt hf hmap
    have hkeep : pageMap m'.vm pdir n = pageMap vm₁ pdir n :=
      pageMap_congr (kernelWork_keeps hnew.moves.kernelOk hnew.space hn hspare hwork)
    refine ⟨fun hor => ?_, fun page' hr hnv => ?_⟩
    · rw [hkeep]
      exact hothers n hn (hor.resolve_right (Option.some_ne_none _))
    · cases hr
      rw [hkeep, hnv]
      refine ⟨by simpa only [given, hpf, if_true] using hself, ?_⟩
      rintro rfl
      simpa only [given, hpf, if_true] using doMap_force_pageMap hok hv hnew.lt hf hmap

/-- The map of another process after a new page. -/
theorem newPage_pageEntry_other {q dir n : Nat} (hk : KernelOk own m) (hs : Space own m.vm p pdir) (hq : Space own m.vm q dir)
    (hpq : p ≠ q) (hv : v < 4294967296) (hpf : present flags = true) (hf : flags.toNat < 4096) (hforce : force = true → 4096 ≤ v)
    (h : newPage m pdir v flags force = some (r, m')) (hn : n < 1048576) (hnv : n ≠ v / 4096 ∨ UserPage n)
    (hspare : m.Spares n ∨ UserPage n) : pageEntry m'.vm dir n = pageEntry m.vm dir n := by
  by_cases hu : UserPage n
  · obtain ⟨own', hmoves, -⟩ := newPage_moves hk hs hv hpf hf hforce h
    exact hmoves.change.pageEntry_eq (fun he => hpq (Option.some.inj he)) hq hu
  · have hnv := hnv.resolve_right hu
    rcases newPage_cases hk hs hv hpf hf hforce h with ⟨rfl, mm, -, -, -, rfl⟩ | ⟨page, vm₁, own₁, rfl, hnew, hwork⟩
    · rfl
    · obtain ⟨mm, own₂, own₃, ptab, -, -, hchange, hs₁, hstep, hptab⟩ := hnew.step hk hs hv hf
      have hdir : Owner.pdir p ≠ .pdir q := fun he => hpq (Owner.pdir.inj he)
      have hentry : pageEntry vm₁ dir n = pageEntry m.vm dir n := by
        refine hstep.pageEntry_eq hs₁.dir hptab (hchange.space nofun hq) hn hdir ?_ ?_ fun htab => ⟨hnv, ?_⟩
        · intro i
          unfold Owner.tab
          split <;> nofun
        · unfold Owner.tab
          split <;> nofun
        · unfold Owner.tab at htab
          split_ifs at htab
          · exact Owner.kernelTab.inj htab
          · exact (Owner.table.inj htab).2
      rw [kernelWork_keeps hnew.moves.kernelOk (hnew.moves.change.space (fun he => hpq (Option.some.inj he)) hq) hn hspare hwork, hentry]

end

end Kos
