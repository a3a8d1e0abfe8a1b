import Kos.Lib.Bytes
import Kos.Pm.Space

/-!
# The bytes of a copied address space

`vm_clone_addrspace` of `kernel/mm/util.c` with the bytes of the pages. `vm_cpy_pp` copies a frame through two windows that the kernel
maps for itself, so all it does besides is part of the kernel's own work.
-/

namespace Kos

/-- The machine and its physical memory. -/
structure Copier where
  m : Machine
  memory : Memory

namespace Copier

/-- `clone_entry`, with its result. -/
def cloneEntry (s : Copier) (newpd vaddr : Nat) (pte : Entry) : Option (Bool × Copier) :=
  (Kos.cloneEntry s.m newpd vaddr pte).map fun (page, m) =>
    match page with
    | some page => (true, ⟨m, s.memory.copy page (getaddr pte) pageSize⟩)
    | none => (false, ⟨m, s.memory⟩)

/-- The loop of `vm_clone_addrspace`; `false` when there is no page left. -/
def cloneEntries (pdir newpd : Nat) : List Nat → Copier → Option (Bool × Copier)
  | [], s => some (true, s)
  | addr :: rest, s =>
    if getPtabEntry s.m.vm pdir addr = 0#32 then cloneEntries pdir newpd rest s
    else
      (s.cloneEntry newpd addr (getPtabEntry s.m.vm pdir addr)).bind fun (ok, s) =>
        if ok then cloneEntries pdir newpd rest s else some (false, s)

/-- `vm_clone_addrspace`, and whether there was a page for the user stack, too: the function itself does not look at this. -/
def cloneAddrspace (s : Copier) (brkPage pdir : Nat) : Option (Nat × Bool × Copier) :=
  (vmCreateAddrspace s.m).bind fun (newpd, m) =>
    (cloneEntries pdir newpd (clonedPages brkPage) ⟨m, s.memory⟩).bind fun (ok, s) =>
      if !ok then none
      else if getPtabEntry s.m.vm pdir userStackPage = 0#32 then some (newpd, true, s)
      else (s.cloneEntry newpd userStackPage (getPtabEntry s.m.vm pdir userStackPage)).map fun (ok, s) => (newpd, ok, s)

/-! Without the bytes, this is what `Kos.Pm.Space` has. -/

theorem cloneEntry_machine (s : Copier) (newpd vaddr : Nat) (pte : Entry) :
    (s.cloneEntry newpd vaddr pte).map (fun r => (r.1, r.2.m)) =
      (Kos.cloneEntry s.m newpd vaddr pte).map fun r => (r.1.isSome, r.2) := by
  unfold cloneEntry
  rw [Option.map_map]
  congr 1
  funext ⟨page, m⟩
  cases page <;> rfl

theorem cloneEntries_machine (pdir newpd : Nat) (addrs : List Nat) (s : Copier) :
    (cloneEntries pdir newpd addrs s).map (fun r => (r.1, r.2.m)) = Kos.cloneEntries pdir newpd addrs s.m := by
  induction addrs generalizing s with
  | nil => rfl
  | cons addr addrs ih =>
    rw [cloneEntries, Kos.cloneEntries]
    split
    · exact ih s
    · unfold cloneEntry
      rw [Option.map_bind, Option.bind_map]
      congr 1
      funext ⟨page, m⟩
      cases page with
      | some page => exact ih _
      | none => rfl

/-- What `vm_clone_addrspace` does after it has created the address space, for any addresses. -/
theorem cloneRest_machine (s : Copier) (pdir newpd stack : Nat) (addrs : List Nat) :
    ((cloneEntries pdir newpd addrs s).bind fun (ok, s) =>
      if !ok then none
      else if getPtabEntry s.m.vm pdir stack = 0#32 then some (newpd, true, s)
      else (s.cloneEntry newpd stack (getPtabEntry s.m.vm pdir stack)).map fun (ok, s) => (newpd, ok, s)).map
        (fun r => (r.1, r.2.2.m)) =
      (Kos.cloneEntries pdir newpd addrs s.m).bind fun (ok, m) =>
        if !ok then none
        else if getPtabEntry m.vm pdir stack = 0#32 then some (newpd, m)
        else (Kos.cloneEntry m newpd stack (getPtabEntry m.vm pdir stack)).map fun (_, m) => (newpd, m) := by
  rw [← cloneEntries_machine pdir newpd addrs s]
  cases cloneEntries pdir newpd addrs s with
  | none => rfl
  | some r =>
    obtain ⟨ok, s⟩ := r
    cases ok with
    | false => rfl
    | true =>
      simp only [Option.bind_some, Option.map_some, Bool.not_true, Bool.false_eq_true, if_false]
      split
      · rfl
      · have hstack := congrArg (Option.map fun r : Bool × Machine => (newpd, r.2))
          (cloneEntry_machine s newpd stack (getPtabEntry s.m.vm pdir stack))
        rw [Option.map_map, Option.map_map] at hstack
        rw [Option.map_map]
        exact hstack

theorem cloneAddrspace_machine (s : Copier) (brkPage pdir : Nat) :
    (s.cloneAddrspace brkPage pdir).map (fun r => (r.1, r.2.2.m)) = vmCloneAddrspace s.m brkPage pdir := by
  unfold cloneAddrspace vmCloneAddrspace
  cases vmCreateAddrspace s.m with
  | none => rfl
  | some r =>
    obtain ⟨newpd, m⟩ := r
    rw [Option.bind_some, Option.bind_some]
    exact cloneRest_machine ⟨m, s.memory⟩ pdir newpd userStackPage (clonedPages brkPage)

end Copier

end Kos
