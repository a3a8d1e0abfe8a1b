import Kos.Theorems.Initrd

/-!
# Two readers of an image

`check_dir` takes as many entries of a directory as the directory's entry counts, `parse_dir` follows the offsets `next` until one is 0.
In every image that `id_write` makes they find the same entries in the same order (`chkid_visits`): the kernel's inodes are made of the
entries that the other program visits, so that in every directory the count is the length of the chain.
-/

namespace Kos

variable {π : Type}

/-- The names in a call are strings. -/
def BuildCall.Strings : BuildCall π → Prop
  | .startDir name => (0 : UInt8) ∉ name
  | .addFile name _ => (0 : UInt8) ∉ name
  | .endDir => True

instance : (call : BuildCall π) → Decidable call.Strings
  | .startDir name => inferInstanceAs (Decidable (0 ∉ name))
  | .addFile name _ => inferInstanceAs (Decidable (0 ∉ name))
  | .endDir => inferInstanceAs (Decidable True)

/-- Every directory counts the entries that are found in it. -/
def CountsEntries : Entries Visit Visit → Prop
  | .nil => True
  | .file _ rest => CountsEntries rest
  | .dir v inner rest => v.entry.count = inner.length ∧ CountsEntries inner ∧ CountsEntries rest

namespace ChkidAux

open InitrdAux

theorem countsEntries_visits (t : DiskTree) (off : Nat) : CountsEntries (t.visits off) := by
  induction t generalizing off with
  | nil => trivial
  | file f rest ih => exact ih _
  | dir name inner rest ih₁ ih₂ => exact ⟨(Entries.length_visits inner _).symm, ih₁ _, ih₂ _⟩

/-! ## What is written of files of any size -/

/-- The files as `write_file` reads them: as many bytes as the size says. -/
def asRead (host : HostFiles π) (junk : Nat → UInt8) : HostFiles π :=
  ⟨host.size, fun path => host.read path junk (host.size path)⟩

theorem length_read (host : HostFiles π) (path : π) (junk : Nat → UInt8) (n : Nat) : (host.read path junk n).length = n := by
  simp [HostFiles.read]

theorem writeFile_asRead (host : HostFiles π) (junk : Nat → UInt8) : writeFile (asRead host junk) junk = writeFile host junk := by
  funext file path out offset
  have hread : (asRead host junk).read path junk (host.size path) = host.read path junk (host.size path) := by
    refine List.ext_getElem (by simp [length_read]) ?_
    intro i hi _
    have hlt : i < host.size path := by simpa [length_read] using hi
    simp [asRead, HostFiles.read, hlt]
  simp only [writeFile, asRead] at hread ⊢
  rw [hread]

theorem write_asRead (host : HostFiles π) (junk : Nat → UInt8) (b : Builder π) (fuel : Nat) :
    writeDir (asRead host junk) junk b fuel = writeDir host junk b fuel ∧
      writeEntries (asRead host junk) junk b fuel = writeEntries host junk b fuel := by
  induction fuel with
  | zero => exact ⟨rfl, rfl⟩
  | succ fuel ih =>
    constructor
    · funext dir out offset
      simp only [writeDir, ih.2]
    · funext p out offs
      cases p with
      | none => rfl
      | some cur => simp only [writeEntries, ih.1, ih.2, writeFile_asRead]

theorem idWrite_asRead (host : HostFiles π) (junk : Nat → UInt8) (b : Builder π) (fuel : Nat) :
    idWrite (asRead host junk) junk b fuel = idWrite host junk b fuel := by
  simp only [idWrite, (write_asRead host junk b fuel).1]

theorem writable_asRead (host : HostFiles π) (junk : Nat → UInt8) {call : BuildCall π} (h : call.Strings) :
    call.Writable (asRead host junk) := by
  cases call with
  | startDir name => exact h
  | addFile name path => exact ⟨h, (length_read host path junk _).symm⟩
  | endDir => trivial

/-! ## The loop of `check_dir` -/

theorem length_mul_le_size (t : DiskTree) : 21 * t.length ≤ t.size := by
  induction t with
  | nil => exact Nat.le_refl _
  | file f rest ih =>
    simp only [Entries.length, Entries.size, headSize, idEntrySize]
    omega
  | dir name inner rest _ ih =>
    simp only [Entries.length, Entries.size, headSize, idEntrySize]
    omega

theorem intRounds_length {t : DiskTree} (h : t.size < 4294967296) : intRounds t.length = t.length := by
  have hsize := length_mul_le_size t
  exact if_pos (by omega)

variable {mem : Memory} {buf : Nat}

/-- `check_dir` visits a directory, if its loop visits its entries. -/
theorem checkDir_layout {off n next : Nat} {name : List UInt8} {t : DiskTree}
    (he : readEntry mem (buf + off) = ⟨idTypeDir, off + idEntrySize, t.length, off + headSize name, next⟩)
    (hd : buf + off < 4294967296) (hs : t.size < 4294967296)
    (hloop : checkEntries mem buf n t.length (off + headSize name) = some (t.visits (off + headSize name))) :
    checkDir mem buf (n + 1) off = some (next, ⟨off, idTypeDir, off + idEntrySize, t.length, off + headSize name, next⟩,
      t.visits (off + headSize name)) := by
  simp only [checkDir, w32_of_lt hd, he, intRounds_length hs, hloop, Option.map_some]

/-- The loop visits the entries of a layout, from wherever it starts if there is none. -/
theorem checkEntries_layout {t : DiskTree} {off offs fuel : Nat} (h : mem.At (buf + off) (t.layout off))
    (hs : off + t.size < 4294967296) (hd : buf + (off + t.size) ≤ 4294967296) (hf : t.rounds ≤ fuel)
    (hoffs : t.length ≠ 0 → offs = off) : checkEntries mem buf fuel t.length offs = some (t.visits off) := by
  induction t generalizing off offs fuel with
  | nil =>
    obtain ⟨n, rfl⟩ := Nat.exists_eq_succ_of_ne_zero (Nat.ne_of_gt hf)
    rfl
  | file f rest ih =>
    obtain ⟨name, data⟩ := f
    obtain rfl := hoffs (Nat.succ_ne_zero _)
    obtain ⟨n, rfl, hn⟩ := Entries.rounds_file_le hf
    obtain ⟨hent, -, -, hrest⟩ := at_file h hs
    simp only [Entries.size] at hs hd
    have hhead := headSize_pos name
    have hloop := ih hrest (by omega) (by omega) hn fun hne => offset_of_length hne _
    simp only [Entries.length, checkEntries, checkFile, w32_of_lt (show buf + offs < 4294967296 by omega), hent, hloop,
      Option.bind_eq_bind, Option.bind_some, if_true]
    rfl
  | dir name inner rest ih₁ ih₂ =>
    obtain rfl := hoffs (Nat.succ_ne_zero _)
    obtain ⟨n, rfl, hn⟩ := Entries.rounds_dir_le hf
    obtain ⟨hent, -, hinner, hrest⟩ := at_dir h hs
    simp only [Entries.size] at hs hd
    have hhead := headSize_pos name
    have hlt : buf + offs < 4294967296 := by omega
    have hdir := checkDir_layout hent hlt (by omega) (ih₁ hinner (by omega) (by omega) hn.1 fun _ => rfl)
    have hloop := ih₂ hrest (by omega) (by omega) hn.2 fun hne => offset_of_length hne _
    simp only [Entries.length, checkEntries, w32_of_lt hlt, hent, hdir, hloop, Option.bind_eq_bind, Option.bind_some, if_true,
      if_neg (show ¬idTypeDir = idTypeFile by decide)]
    rfl

/-- `check_dir` visits the entries of an image. -/
theorem checkDir_visits {name : List UInt8} {t : DiskTree} {fuel : Nat} (h : mem.At buf (imageOf name t))
    (hs : (imageOf name t).length < 4294967296) (hd : buf + (imageOf name t).length ≤ 4294967296) (hf : t.rounds < fuel) :
    checkDir mem buf fuel idHeader.length = some (0, rootVisit name t, t.visits (idHeader.length + headSize name)) := by
  obtain ⟨n, rfl⟩ := Nat.exists_eq_succ_of_ne_zero (Nat.ne_of_gt (Nat.lt_of_le_of_lt (Nat.zero_le _) hf))
  rw [length_imageOf] at hs hd
  have hhead := headSize_pos name
  obtain ⟨hent, -, hinner, -⟩ := at_dir (at_image h) (by simp only [Entries.size]; omega)
  exact checkDir_layout hent (by omega) (by omega)
    (checkEntries_layout hinner (by omega) (by omega) (Nat.le_of_lt_succ hf) fun _ => rfl)

end ChkidAux

open ChkidAux

/-- For every well-bracketed sequence of calls, whatever the files are that are read: `id_write` makes an image, and in the image the
entries that `check_dir` visits are those of which `parse_dir` makes its inodes, in the same order and in the same directories. Every
directory counts as many entries as are found by following the offsets. -/
theorem chkid_visits (memory : Nat → BuildEntry π) (host : HostFiles π) (junk : Nat → UInt8) (calls : List (BuildCall π))
    (hb : wellBracketed calls = true) (hn : ∀ call ∈ calls, call.Strings) :
    ∃ b img, (idInit memory).run calls = some b ∧ (∀ fuel ≥ 2 * calls.length, idWrite host junk b fuel = some img) ∧
      (img.length < 4294967296 → ∀ (mem mem' : Memory) (buf disk : Nat), mem.At buf img → buf + img.length ≤ 4294967296 →
        mem'.At disk img → disk + img.length ≤ 4294967296 →
        ∃ root entries, (∀ fuel ≥ 2 * calls.length,
          checkDir mem buf fuel idHeader.length = some (root.entry.next, root, entries) ∧
            parseDir mem' disk fuel (disk + idHeader.length) = some (newInode root.entry disk, inodesOf disk entries)) ∧
          root.entry.count = entries.length ∧ CountsEntries entries) := by
  obtain ⟨name, t, rfl⟩ := exists_treeCalls hb
  obtain ⟨b, r, hrun, hroot, rfl, hcount, hnext, lo, hi, hbuilt⟩ := run_treeCalls memory name t
  have hw : ∀ call ∈ treeCalls (b.entries r).name t, call.Writable (asRead host junk) :=
    fun call hc => writable_asRead host junk (hn call hc)
  have htree : t.Writable (asRead host junk) :=
    writable_of_calls fun call hc => hw call (List.mem_cons_of_mem _ (List.mem_append_left _ hc))
  have hrounds : ∀ fuel ≥ 2 * (treeCalls (b.entries r).name t).length, t.rounds < fuel := by
    intro fuel hf
    have hle := rounds_le t
    simp only [treeCalls, List.length_cons, List.length_append] at hf
    omega
  refine ⟨b, imageOf (b.entries r).name (t.onDisk (asRead host junk)), hrun, ?_, ?_⟩
  · intro fuel hf
    rw [← idWrite_asRead]
    exact idWrite_image _ junk b hroot (hn (.startDir _) List.mem_cons_self) hcount hnext hbuilt htree (hrounds fuel hf)
  · intro hlen mem mem' buf disk hat hbuf hat' hdisk
    have hrounds' : ∀ fuel ≥ 2 * (treeCalls (b.entries r).name t).length, (t.onDisk (asRead host junk)).rounds < fuel := by
      intro fuel hf
      rw [Entries.onDisk, Entries.rounds_mapFiles]
      exact hrounds fuel hf
    generalize t.onDisk (asRead host junk) = onDisk at *
    refine ⟨rootVisit (b.entries r).name onDisk, onDisk.visits (idHeader.length + headSize (b.entries r).name), ?_, ?_, ?_⟩
    · intro fuel hf
      exact ⟨checkDir_visits hat hlen hbuf (hrounds' fuel hf), parseDir_visits hat' hlen hdisk (hrounds' fuel hf)⟩
    · exact (Entries.length_visits _ _).symm
    · exact countsEntries_visits _ _

/-- A directory with an empty directory in front of a file: its image in the buffer at 4096, and in the kernel's memory at 1 MiB. -/
theorem chkid_visits_small :
    let calls : List (BuildCall Unit) := [.startDir [100], .startDir [98], .endDir, .addFile [97] (), .endDir]
    let host : HostFiles Unit := ⟨fun _ => 3, fun _ => [1, 2]⟩
    let memory : Nat → BuildEntry Unit := fun _ => ⟨[], none, 7, some 3, none, some 4, none⟩
    let mem : Nat → List UInt8 → Memory := fun base img a => img.getD (a - base) 0
    ∃ b img root entries, (idInit memory).run calls = some b ∧ idWrite host (fun _ => 9) b 10 = some img ∧
      checkDir (mem 4096 img) 4096 10 4 = some (root.entry.next, root, entries) ∧
      parseDir (mem 1048576 img) 1048576 10 1048580 = some (newInode root.entry 1048576, inodesOf 1048576 entries) ∧
      root.entry.count = entries.length ∧ CountsEntries entries := by
  intro calls host memory mem
  obtain ⟨b, img, hrun, hwrite, hvisits⟩ := chkid_visits memory host (fun _ => 9) calls (by decide) (by decide)
  have himg := hwrite 10 (by decide)
  let expected : List UInt8 := imageOf [100] (.dir [98] .nil (.file ([97], [1, 2, 9]) .nil))
  have hrun' : ((idInit memory).run calls).bind (idWrite host (fun _ => 9) · 10) = some expected := by decide +kernel
  rw [hrun, Option.bind_some, himg, Option.some.injEq] at hrun'
  subst hrun'
  obtain ⟨root, entries, hboth, hcount, hcounted⟩ := hvisits (by decide) (mem 4096 expected) (mem 1048576 expected) 4096 1048576
    (by decide +kernel) (by decide) (by decide +kernel) (by decide)
  obtain ⟨hcheck, hparse⟩ := hboth 10 (by decide)
  exact ⟨b, _, root, entries, hrun, himg, hcheck, hparse, hcount, hcounted⟩

end Kos
