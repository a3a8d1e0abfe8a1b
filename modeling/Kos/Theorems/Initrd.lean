import Kos.Lemmas.Initrd

/-!
# The initrd from the calls to the kernel

Any tree of directories and files that is described by well-bracketed calls comes back in the kernel: the image that `id_write`
makes of it is accepted, and the inodes that `parse_dir` makes are those of the tree. The offsets in the image are `int`s for the
one program and 32-bit words for the other one, so it has to be shorter than 2^31 bytes.
-/

namespace Kos

variable {π : Type}

/-- The names in a call have no NUL byte, and the size of a file is the length of what is read from it. -/
def BuildCall.Writable (host : HostFiles π) : BuildCall π → Prop
  | .startDir name => (0 : UInt8) ∉ name
  | .addFile name path => (0 : UInt8) ∉ name ∧ host.size path = (host.data path).length
  | .endDir => True

instance (host : HostFiles π) (call : BuildCall π) : Decidable (call.Writable host) := by
  cases call <;> unfold BuildCall.Writable <;> infer_instance

theorem writable_of_calls {host : HostFiles π} {t : PathTree π} (h : ∀ call ∈ t.calls, call.Writable host) : t.Writable host := by
  induction t with
  | nil => trivial
  | file f rest ih => exact ⟨h _ List.mem_cons_self, ih fun call hc => h call (List.mem_cons_of_mem _ hc)⟩
  | dir name inner rest ih₁ ih₂ =>
    refine ⟨h (.startDir name) List.mem_cons_self, ih₁ fun call hc => ?_, ih₂ fun call hc => ?_⟩
    · exact h call (List.mem_cons_of_mem _ (List.mem_append_left _ hc))
    · exact h call (List.mem_cons_of_mem _ (List.mem_append_right _ (List.mem_cons_of_mem _ hc)))

/-- Well-bracketed calls describe a tree; `id_write` makes an image of it, in which the kernel finds exactly this tree: in every
directory the same entries in the same order, with the same names, and for each file the same length and bytes. -/
theorem initrd_rebuilt (memory : Nat → BuildEntry π) (host : HostFiles π) (junk : Nat → UInt8) (calls : List (BuildCall π))
    (hb : wellBracketed calls = true) (hw : ∀ call ∈ calls, call.Writable host) :
    ∃ name t b img, calls = treeCalls name t ∧ (idInit memory).run calls = some b ∧
      (∀ fuel ≥ 2 * calls.length, idWrite host junk b fuel = some img) ∧
      (img.length < 2147483648 → ∀ (mem : Memory) (disk : Nat), mem.At disk img → disk + img.length ≤ 4294967296 →
        checkImg mem disk = true ∧ ∀ fuel ≥ 2 * calls.length, ∃ ino inodes,
          parseDir mem disk fuel (disk + idHeader.length) = some (ino, inodes) ∧
            ino.Named mem name ∧ ino.length = t.length ∧ Shows mem inodes (t.onDisk host)) := by
  obtain ⟨name, t, rfl⟩ := exists_treeCalls hb
  obtain ⟨b, r, hrun, hroot, rfl, hcount, hnext, lo, hi, hbuilt⟩ := run_treeCalls memory name t
  have hname : (0 : UInt8) ∉ (b.entries r).name := hw (.startDir _) List.mem_cons_self
  have htree : t.Writable host :=
    writable_of_calls fun call hc => hw call (List.mem_cons_of_mem _ (List.mem_append_left _ hc))
  have hrounds : t.rounds < 2 * (treeCalls (b.entries r).name t).length := by
    have := rounds_le t
    simp only [treeCalls, List.length_cons, List.length_append]
    omega
  refine ⟨_, t, b, imageOf (b.entries r).name (t.onDisk host), rfl, hrun, fun fuel hf => ?_, fun hlen mem disk hat hd => ?_⟩
  · exact idWrite_image host junk b hroot hname hcount hnext hbuilt htree (Nat.lt_of_lt_of_le hrounds hf)
  · have hrounds' : ∀ fuel ≥ 2 * (treeCalls (b.entries r).name t).length, (t.onDisk host).rounds < fuel := fun fuel hf => by
      rw [Entries.onDisk, Entries.rounds_mapFiles]
      exact Nat.lt_of_lt_of_le hrounds hf
    have hparse := fun fuel hf => parseDir_image hat (by omega) hd (hrounds' fuel hf)
    refine ⟨(hparse _ (Nat.le_refl _)).1, fun fuel hf => ?_⟩
    obtain ⟨-, ino, inodes, hdir, hnamed, hlen', hshows⟩ := hparse fuel hf
    exact ⟨ino, inodes, hdir, hnamed, by simpa [Entries.onDisk] using hlen', hshows⟩

/-- A directory with a file and an empty directory: its image, at 1 MiB. -/
theorem initrd_rebuilt_small :
    let calls : List (BuildCall Unit) := [.startDir [100], .addFile [97] (), .startDir [98], .endDir, .endDir]
    let host : HostFiles Unit := ⟨fun _ => 3, fun _ => [1, 2, 3]⟩
    let memory : Nat → BuildEntry Unit := fun _ => ⟨[], none, 7, some 3, none, some 4, none⟩
    let mem : List UInt8 → Memory := fun img a => img.getD (a - 1048576) 0
    ∃ name t b img ino inodes, calls = treeCalls name t ∧ (idInit memory).run calls = some b ∧
      idWrite host (fun _ => 0) b 10 = some img ∧ parseDir (mem img) 1048576 10 1048580 = some (ino, inodes) ∧
      Shows (mem img) inodes (t.onDisk host) := by
  intro calls host memory mem
  obtain ⟨name, t, b, img, hcalls, hrun, hwrite, hparse⟩ := initrd_rebuilt memory host (fun _ => 0) calls (by decide) (by decide)
  have himg := hwrite 10 (by decide)
  let expected : List UInt8 := imageOf [100] (.file ([97], [1, 2, 3]) (.dir [98] .nil .nil))
  have hrun' : ((idInit memory).run calls).bind (idWrite host (fun _ => 0) · 10) = some expected := by decide +kernel
  rw [hrun, Option.bind_some, himg, Option.some.injEq] at hrun'
  subst hrun'
  obtain ⟨-, hdir⟩ := hparse (by decide) (mem expected) 1048576 (by decide +kernel) (by decide)
  obtain ⟨ino, inodes, hdir, -, -, hshows⟩ := hdir 10 (by decide)
  exact ⟨name, t, b, _, ino, inodes, hcalls, hrun, himg, hdir, hshows⟩

end Kos
