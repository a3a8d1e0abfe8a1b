import Kos.Theorems.Heap
import Kos.Theorems.StorageWrite

/-!
# The temporary buffer of `dev_read`

`dev_read` releases a buffer that is too large to be kept: it sets `bufsize` to 0, but `tmpbuffer` still points to the block. The next
request that needs a buffer frees it once more, and by then the block may belong to someone else. As long as no such request is made, the
buffer is a block of `dev_read`, and it frees no others (`tmpbuffer_owned`).
-/

namespace Kos

variable {κ : Type}

/-- The heap, the static variables of `dev_read`, and the blocks that it has allocated and not freed yet. -/
structure StorageRun (κ : Type) where
  heap : HeapRun κ
  tmp : StaticBuffer
  mine : Nat → Bool

def storageStart (k : κ) (mem : Memory) : StorageRun κ := ⟨heapStart k mem, ⟨0, 0⟩, fun _ => false⟩

/-- A call of `dev_read`, or a call of the heap by someone else. -/
inductive StorageCall where
  | read (dev : StorageDevice) (disk mem : Memory) (newbuf buffer size offset : Nat)
  | other (call : HeapCall)

/-- The call frees the block at this address. -/
def HeapCall.frees : HeapCall → Nat → Bool
  | .free ptr, p | .realloc ptr _, p => ptr.toNat = p
  | .malloc _, _ | .calloc _ _, _ => false

namespace StorageRun

/-- `dev_read` calls the heap; `kmalloc` returns `newbuf`. -/
def exec (km : KernelMemory κ) (newbuf : Nat) (r : StorageRun κ) : BufferCall → Option (StorageRun κ)
  | .kfree p => (kfree r.heap.heap p).map fun h => { r with heap := ⟨h, r.heap.live.freed p⟩, mine := Function.update r.mine p false }
  | .kmalloc n =>
    (kmalloc km r.heap.heap n).bind fun (p, h) =>
      if p = newbuf then some { r with heap := ⟨h, r.heap.live.returned p n⟩, mine := Function.update r.mine p true } else none

def runCalls (km : KernelMemory κ) (newbuf : Nat) : StorageRun κ → List BufferCall → Option (StorageRun κ)
  | r, [] => some r
  | r, c :: cs => (r.exec km newbuf c).bind fun r => runCalls km newbuf r cs

/-- Every pointer that is passed to `kfree` is null or a block of `dev_read`. -/
def FreesOwn (km : KernelMemory κ) (newbuf : Nat) : StorageRun κ → List BufferCall → Prop
  | _, [] => True
  | r, c :: cs => (∀ p, c = .kfree p → p ≠ 0 → r.mine p = true) ∧ ∀ r', r.exec km newbuf c = some r' → FreesOwn km newbuf r' cs

/-- While `bufsize` is not 0, `tmpbuffer` is a block of `dev_read` that is in use, with at least `bufsize` bytes. -/
def OwnsBuffer (r : StorageRun κ) : Prop :=
  r.tmp.size ≠ 0 → r.mine r.tmp.ptr = true ∧ ∃ n, r.tmp.size ≤ n ∧ r.heap.live r.tmp.ptr = some n ∧
    ∃ used, Links r.heap.heap.next (r.heap.heap.heads .used) used ∧ ∃ a ∈ used, r.heap.heap.block a = ⟨r.tmp.ptr, n⟩

end StorageRun

def storageStep (km : KernelMemory κ) (r : StorageRun κ) : StorageCall → Option (StorageRun κ)
  | .read dev disk mem newbuf buffer size offset =>
    (dev.devRead disk mem r.tmp newbuf buffer size offset).bind fun result =>
      (r.runCalls km newbuf result.calls).map fun r => { r with tmp := result.tmp }
  | .other call =>
    (call.exec km r.heap.heap).map fun (p, h) =>
      { r with heap := ⟨h, call.live r.heap.live p⟩, mine := fun a => r.mine a && a ≠ p && !call.frees a }

/-- The pointers that a call of `dev_read` frees. -/
def FreesOwnOnly (km : KernelMemory κ) (r : StorageRun κ) : StorageCall → Prop
  | .read dev disk mem newbuf buffer size offset =>
    ∀ result, dev.devRead disk mem r.tmp newbuf buffer size offset = some result → r.FreesOwn km newbuf result.calls
  | .other _ => True

/-- The others free no block of `dev_read`. -/
def OthersOk (r : StorageRun κ) : StorageCall → Prop
  | .read .. => True
  | .other call => ∀ p, call.frees p = true → r.mine p = false

/-- A request that needs a buffer is not made while `tmpbuffer` points to a block that was released. -/
def NotReleased (r : StorageRun κ) : StorageCall → Prop
  | .read dev _ _ _ _ size offset => dev.aligned size offset = true ∨ dev.needed size offset = 0 ∨ r.tmp.size ≠ 0 ∨ r.tmp.ptr = 0
  | .other _ => True

namespace StorageAux

open StorageRun HeapRunAux

variable {km : KernelMemory κ} {r r' : StorageRun κ} {newbuf : Nat} {cs cs' : List BufferCall}

/-! ## Lists of calls -/

theorem runCalls_append : r.runCalls km newbuf (cs ++ cs') = (r.runCalls km newbuf cs).bind fun r => r.runCalls km newbuf cs' := by
  induction cs generalizing r with
  | nil => rfl
  | cons c cs ih =>
    rw [List.cons_append, StorageRun.runCalls, StorageRun.runCalls]
    cases r.exec km newbuf c with
    | none => rfl
    | some r₁ => exact ih

theorem freesOwn_append (h : r.FreesOwn km newbuf cs) (h' : ∀ r', r.runCalls km newbuf cs = some r' → r'.FreesOwn km newbuf cs') :
    r.FreesOwn km newbuf (cs ++ cs') := by
  induction cs generalizing r with
  | nil => exact h' r rfl
  | cons c cs ih =>
    refine ⟨h.1, ?_⟩
    intro r₁ hexec
    refine ih (h.2 r₁ hexec) ?_
    intro r₂ hrun
    exact h' r₂ (by rw [StorageRun.runCalls, hexec, Option.bind_some, hrun])

/-- What `dev_read` does with its buffer: it gets one that is large enough, and may release it in the end. -/
theorem devRead_calls {dev : StorageDevice} {disk mem : Memory} {tmp : StaticBuffer} {buffer size offset : Nat}
    {result : StorageDevice.ReadResult} (h : dev.devRead disk mem tmp newbuf buffer size offset = some result) :
    (dev.aligned size offset = true ∧ result.tmp = tmp ∧ result.calls = []) ∨
      (dev.aligned size offset = false ∧ ∃ tmp' calls, tmp.ensure (dev.needed size offset) newbuf = (tmp', calls) ∧
        ((result.tmp = tmp' ∧ result.calls = calls) ∨
          (tmp'.size ≠ 0 ∧ result.tmp = ⟨tmp'.ptr, 0⟩ ∧ result.calls = calls ++ [.kfree tmp'.ptr]))) := by
  unfold StorageDevice.devRead at h
  split at h
  · cases h
  · simp only at h
    split at h
    · rename_i haligned
      refine .inl ⟨haligned, ?_⟩
      split at h
      · cases h
        exact ⟨rfl, rfl⟩
      · obtain ⟨mem', -, rfl⟩ := Option.map_eq_some_iff.mp h
        exact ⟨rfl, rfl⟩
    · rename_i haligned
      refine .inr ⟨Bool.eq_false_iff.mpr haligned, _, _, rfl, ?_⟩
      split at h
      · cases h
        exact .inl ⟨rfl, rfl⟩
      · obtain ⟨mem', -, h⟩ := Option.bind_eq_some_iff.mp h
        unfold StorageDevice.copyOut at h
        simp only at h
        split at h
        · split at h
          · rename_i hlarge
            obtain rfl := Option.some.inj h
            exact .inr ⟨Nat.ne_of_gt (Nat.lt_of_le_of_lt (Nat.zero_le _) hlarge), rfl, rfl⟩
          · obtain rfl := Option.some.inj h
            exact .inl ⟨rfl, rfl⟩
        · cases h

/-! ## The blocks of `dev_read` -/

/-- The heap is as it should be, and the blocks of `dev_read` are in use, with the sizes requested. -/
def Owning (km : KernelMemory κ) (r : StorageRun κ) : Prop :=
  ∃ used free, r.heap.heap.Rep km used free ∧ (r.heap.heap.toHeap km used free).Ok ∧
    ∀ p, r.mine p = true → ∃ n, r.heap.live p = some n ∧ ⟨p, n⟩ ∈ (r.heap.heap.toHeap km used free).used

/-- The static variables: a block of `dev_read` that is large enough, or no block of it. -/
def BufferOk (r : StorageRun κ) (tmp : StaticBuffer) : Prop :=
  (tmp.size ≠ 0 → r.mine tmp.ptr = true ∧ ∃ n, tmp.size ≤ n ∧ r.heap.live tmp.ptr = some n) ∧ (tmp.size = 0 → r.mine tmp.ptr = false)

theorem owning_kfree {p : Nat} (h : Owning km r) (hexec : r.exec km newbuf (.kfree p) = some r') :
    Owning km r' ∧ r'.mine p = false := by
  obtain ⟨used, free, hrep, hok, hmine⟩ := h
  obtain ⟨k, used', free', hfree, hrep', -, hf⟩ := kfree_heap p hrep
  rw [exec, hfree, Option.map_some] at hexec
  obtain rfl := Option.some.inj hexec
  refine ⟨⟨used', free', hrep', hf.ok hok, ?_⟩, Function.update_self ..⟩
  intro q hq
  have hne : q ≠ p := by
    rintro rfl
    simp at hq
  simp only [Function.update_of_ne hne] at hq
  obtain ⟨n, hlive, hmem⟩ := hmine q hq
  exact ⟨n, (Function.update_of_ne hne ..).trans hlive, hf.mem_used hmem hne⟩

theorem returned_other (live : LiveBlocks) {p q : Nat} (hne : q ≠ p) (n : Nat) : live.returned p n q = live q := by
  unfold LiveBlocks.returned
  split
  · rfl
  · exact Function.update_of_ne hne ..

theorem owning_kmalloc {n : Nat} (hn : n ≠ 0) (h : Owning km r) (hexec : r.exec km newbuf (.kmalloc n) = some r') :
    Owning km r' ∧ r'.mine newbuf = true ∧ r'.heap.live newbuf = some n := by
  obtain ⟨used, free, hrep, hok, hmine⟩ := h
  obtain ⟨⟨p, k⟩, hmalloc, hexec⟩ := Option.bind_eq_some_iff.mp hexec
  simp only [Option.ite_none_right_eq_some, Option.some.injEq] at hexec
  obtain ⟨rfl, rfl⟩ := hexec
  obtain ⟨used', free', hrep', -, hm⟩ := kmalloc_heap hrep hok hmalloc
  have ha := hm.alloc_of_pos hn
  have hpos := ha.ptr_pos hok
  have hlive : r.heap.live.returned p n p = some n := by rw [LiveBlocks.returned, if_neg (Nat.ne_of_gt hpos), Function.update_self]
  refine ⟨⟨used', free', hrep', ha.ok (Nat.pos_of_ne_zero hn) hok, ?_⟩, Function.update_self .., hlive⟩
  intro q hq
  rw [ha.used_eq]
  by_cases hqp : q = p
  · subst hqp
    exact ⟨n, hlive, List.mem_cons_self⟩
  · simp only [Function.update_of_ne hqp] at hq
    obtain ⟨n', hlive', hmem⟩ := hmine q hq
    exact ⟨n', (returned_other _ hqp n).trans hlive', List.mem_cons_of_mem _ hmem⟩

/-! ## The calls of others -/

/-- A block in use that a call does not free stays in use, and what the call returns is another one. -/
theorem effect_keeps {h h' : Heap} {c : HeapCall} {p : Nat} {b : Block} (he : HeapEffect h c p h') (hok : h.Ok) (hb : b ∈ h.used)
    (hfrees : c.frees b.ptr = false) : b ∈ h'.used ∧ p ≠ b.ptr := by
  have hpos : 0 ≠ b.ptr := Nat.ne_of_lt (hok.ptr_pos b (List.mem_append_left _ hb))
  have hmalloc : ∀ {n h'}, HeapMalloc h n p h' → b ∈ h'.used ∧ p ≠ b.ptr := by
    intro n h' hm
    cases hm with
    | nothing hsize => exact ⟨hb, hpos⟩
    | alloc hsize ha => exact ⟨ha.used_eq ▸ List.mem_cons_of_mem _ hb, ptr_ne_of_alloc ha hsize hok hb⟩
  cases he with
  | malloc hm => exact hmalloc hm
  | calloc hm => exact hmalloc hm
  | realloc hm =>
    have hne := Ne.symm (of_decide_eq_false hfrees)
    cases hm with
    | nothing hsize hused => exact ⟨hb, hpos⟩
    | alloc hptr hsize ha => exact hmalloc (.alloc hsize ha)
    | free hsize hf => exact ⟨hf.mem_used hb hne, hpos⟩
    | move hsize hb' hptr ha hf => exact ⟨hf.mem_used (ha.used_eq ▸ List.mem_cons_of_mem _ hb) hne, ptr_ne_of_alloc ha hsize hok hb⟩
  | free hf => exact ⟨hf.mem_used hb (Ne.symm (of_decide_eq_false hfrees)), hpos⟩

/-- What a call records of a block that it neither frees nor returns. -/
theorem live_other (c : HeapCall) (live : LiveBlocks) {p q : Nat} (hne : q ≠ p) (hfrees : c.frees q = false) : c.live live p q = live q := by
  cases c with
  | malloc size => exact returned_other live hne _
  | calloc num size => exact returned_other live hne _
  | realloc ptr size =>
    have hptr : q ≠ ptr.toNat := Ne.symm (of_decide_eq_false hfrees)
    have hfreed : live.freed ptr.toNat q = live q := Function.update_of_ne hptr ..
    simp only [HeapCall.live]
    split
    · exact hfreed
    · split
      · rfl
      · rw [returned_other _ hne, hfreed]
  | free ptr =>
    have hptr : q ≠ ptr.toNat := Ne.symm (of_decide_eq_false hfrees)
    exact Function.update_of_ne hptr ..

theorem owning_other {c : HeapCall} (h : Owning km r) (hothers : ∀ p, c.frees p = true → r.mine p = false)
    (hstep : storageStep km r (.other c) = some r') :
    Owning km r' ∧ r'.mine = r.mine ∧ (∀ p, r.mine p = true → r'.heap.live p = r.heap.live p) ∧ r'.tmp = r.tmp := by
  obtain ⟨used, free, hrep, hok, hmine⟩ := h
  obtain ⟨⟨p, k⟩, hexec, rfl⟩ := Option.map_eq_some_iff.mp hstep
  obtain ⟨used', free', hrep', he⟩ := exec_heap hrep hok hexec
  have hfrees : ∀ q, r.mine q = true → c.frees q = false := by
    intro q hq
    by_contra hf
    rw [hothers q (Bool.not_eq_false _ ▸ hf)] at hq
    cases hq
  have hkeep : ∀ q, r.mine q = true → ∃ n, r.heap.live q = some n ∧ ⟨q, n⟩ ∈ (k.toHeap km used' free').used ∧ q ≠ p := by
    intro q hq
    obtain ⟨n, hlive, hmem⟩ := hmine q hq
    obtain ⟨hmem', hne⟩ := effect_keeps he hok hmem (hfrees q hq)
    exact ⟨n, hlive, hmem', hne.symm⟩
  have hlive : ∀ q, r.mine q = true → c.live r.heap.live p q = r.heap.live q := by
    intro q hq
    obtain ⟨n, -, -, hne⟩ := hkeep q hq
    exact live_other c _ hne (hfrees q hq)
  have hsame : (fun a => r.mine a && a ≠ p && !c.frees a) = r.mine := by
    funext q
    cases hq : r.mine q with
    | false => rfl
    | true =>
      obtain ⟨n, -, -, hne⟩ := hkeep q hq
      simp [hne, hfrees q hq]
  refine ⟨⟨used', free', hrep', effect_ok he hok, ?_⟩, hsame, hlive, rfl⟩
  intro q hq'
  have hq : r.mine q = true := (congrFun hsame q).symm.trans hq'
  obtain ⟨n, hn, hmem, -⟩ := hkeep q hq
  exact ⟨n, (hlive q hq).trans hn, hmem⟩

/-! ## The calls of `dev_read` -/

/-- A buffer that is large enough: the old one, or a new one, and then the old one was freed as a block of `dev_read`. -/
theorem ensure_ok {tmp tmp' : StaticBuffer} {needed : Nat} (h : Owning km r) (htmp : BufferOk r tmp)
    (hkept : needed = 0 ∨ tmp.size ≠ 0 ∨ tmp.ptr = 0) (hensure : tmp.ensure needed newbuf = (tmp', cs)) :
    r.FreesOwn km newbuf cs ∧ ∀ r', r.runCalls km newbuf cs = some r' → Owning km r' ∧ BufferOk r' tmp' := by
  unfold StaticBuffer.ensure at hensure
  split at hensure
  · rename_i hlt
    cases hensure
    have hneeded : needed ≠ 0 := Nat.ne_of_gt (Nat.lt_of_le_of_lt (Nat.zero_le _) hlt)
    refine ⟨⟨?_, fun r₁ _ => ⟨nofun, fun _ _ => trivial⟩⟩, ?_⟩
    · intro p hp hpos
      cases hp
      exact (htmp.1 ((hkept.resolve_left hneeded).resolve_right hpos)).1
    · intro r' hrun
      obtain ⟨r₁, hfree, hrun⟩ := Option.bind_eq_some_iff.mp hrun
      obtain ⟨r₂, hmalloc, hrun⟩ := Option.bind_eq_some_iff.mp hrun
      cases hrun
      obtain ⟨howning, hmine, hlive⟩ := owning_kmalloc hneeded (owning_kfree h hfree).1 hmalloc
      exact ⟨howning, fun _ => ⟨hmine, needed, Nat.le_refl _, hlive⟩, fun hzero => absurd hzero hneeded⟩
  · cases hensure
    refine ⟨trivial, ?_⟩
    intro r' hrun
    cases hrun
    exact ⟨h, htmp⟩

/-- The buffer is released, and it was a block of `dev_read`. -/
theorem release_ok {tmp : StaticBuffer} (h : Owning km r) (htmp : BufferOk r tmp) (hsize : tmp.size ≠ 0) :
    r.FreesOwn km newbuf [.kfree tmp.ptr] ∧
      ∀ r', r.runCalls km newbuf [.kfree tmp.ptr] = some r' → Owning km r' ∧ BufferOk r' ⟨tmp.ptr, 0⟩ := by
  refine ⟨⟨?_, fun _ _ => trivial⟩, ?_⟩
  · intro p hp _
    cases hp
    exact (htmp.1 hsize).1
  · intro r' hrun
    obtain ⟨r₁, hfree, hrun⟩ := Option.bind_eq_some_iff.mp hrun
    cases hrun
    obtain ⟨howning, hmine⟩ := owning_kfree h hfree
    exact ⟨howning, fun hne => absurd rfl hne, fun _ => hmine⟩

/-- What holds in every state of a run. -/
def StorageInv (km : KernelMemory κ) (r : StorageRun κ) : Prop := Owning km r ∧ BufferOk r r.tmp

theorem storageInv_read {dev : StorageDevice} {disk mem : Memory} {buffer size offset : Nat} (h : StorageInv km r)
    (hkept : NotReleased r (.read dev disk mem newbuf buffer size offset)) :
    FreesOwnOnly km r (.read dev disk mem newbuf buffer size offset) ∧
      ∀ r', storageStep km r (.read dev disk mem newbuf buffer size offset) = some r' → StorageInv km r' := by
  have hcall : ∀ result, dev.devRead disk mem r.tmp newbuf buffer size offset = some result →
      r.FreesOwn km newbuf result.calls ∧
        ∀ r', r.runCalls km newbuf result.calls = some r' → Owning km r' ∧ BufferOk r' result.tmp := by
    intro result hread
    rcases devRead_calls hread with ⟨-, htmp, hcalls⟩ | ⟨haligned, tmp', calls, hensure, hend⟩
    · rw [htmp, hcalls]
      refine ⟨trivial, ?_⟩
      intro r' hrun
      cases hrun
      exact h
    · have hneeds := hkept.resolve_left (by simp [haligned])
      obtain ⟨hown, hrun⟩ := ensure_ok h.1 h.2 hneeds hensure
      rcases hend with ⟨htmp, hcalls⟩ | ⟨hsize, htmp, hcalls⟩
      · rw [htmp, hcalls]
        exact ⟨hown, hrun⟩
      · rw [htmp, hcalls]
        constructor
        · apply freesOwn_append hown
          intro r₁ hr₁
          exact (release_ok (hrun r₁ hr₁).1 (hrun r₁ hr₁).2 hsize).1
        · intro r' hrun'
          rw [runCalls_append] at hrun'
          obtain ⟨r₁, hr₁, hrelease⟩ := Option.bind_eq_some_iff.mp hrun'
          exact (release_ok (hrun r₁ hr₁).1 (hrun r₁ hr₁).2 hsize).2 r' hrelease
  refine ⟨fun result hread => (hcall result hread).1, ?_⟩
  intro r' hstep
  obtain ⟨result, hread, hstep⟩ := Option.bind_eq_some_iff.mp hstep
  obtain ⟨r₁, hrun, rfl⟩ := Option.map_eq_some_iff.mp hstep
  exact (hcall result hread).2 r₁ hrun

theorem storageInv_step {c : StorageCall} (h : StorageInv km r) (hothers : OthersOk r c) (hkept : NotReleased r c)
    (hstep : storageStep km r c = some r') : FreesOwnOnly km r c ∧ StorageInv km r' := by
  cases c with
  | read dev disk mem newbuf buffer size offset =>
    obtain ⟨hown, hinv⟩ := storageInv_read h hkept
    exact ⟨hown, hinv r' hstep⟩
  | other call =>
    obtain ⟨howning, hmine, hlive, htmp⟩ := owning_other h.1 hothers hstep
    refine ⟨trivial, howning, ?_, ?_⟩
    · intro hsize
      rw [htmp] at hsize ⊢
      obtain ⟨hm, n, hn, hl⟩ := h.2.1 hsize
      exact ⟨by rw [hmine, hm], n, hn, by rw [hlive _ hm, hl]⟩
    · intro hsize
      rw [htmp] at hsize ⊢
      rw [hmine]
      exact h.2.2 hsize

theorem ownsBuffer_of_inv (h : StorageInv km r) : r.OwnsBuffer := by
  intro hsize
  obtain ⟨⟨used, free, hrep, -, hused⟩, hbuffer, -⟩ := h
  obtain ⟨hmine, n, hn, hlive⟩ := hbuffer hsize
  obtain ⟨n', hlive', hmem⟩ := hused _ hmine
  rw [hlive] at hlive'
  cases hlive'
  obtain ⟨a, ha, hblock⟩ := List.mem_map.mp hmem
  exact ⟨hmine, n, hn, hlive, used, hrep.left, a, ha, hblock⟩

/-- A request that needs a buffer frees what `tmpbuffer` points to. -/
theorem notReleased_of_freesOwn {c : StorageCall} (h : StorageInv km r) (hstep : storageStep km r c = some r')
    (hown : FreesOwnOnly km r c) : NotReleased r c := by
  cases c with
  | other call => trivial
  | read dev disk mem newbuf buffer size offset =>
    obtain ⟨result, hread, -⟩ := Option.bind_eq_some_iff.mp hstep
    have hfrees := hown result hread
    rcases devRead_calls hread with ⟨haligned, -⟩ | ⟨-, tmp', calls, hensure, hend⟩
    · exact .inl haligned
    · by_contra hreleased
      simp only [NotReleased, not_or, not_not] at hreleased
      obtain ⟨-, hneeded, hsize, hptr⟩ := hreleased
      have hcalls : calls = [.kfree r.tmp.ptr, .kmalloc (dev.needed size offset)] := by
        rw [StaticBuffer.ensure, if_pos (by omega)] at hensure
        exact (congrArg Prod.snd hensure).symm
      have hmine : r.mine r.tmp.ptr = true := by
        rcases hend with ⟨-, hc⟩ | ⟨-, -, hc⟩
        · rw [hc, hcalls] at hfrees
          exact hfrees.1 _ rfl hptr
        · rw [hc, hcalls] at hfrees
          exact hfrees.1 _ rfl hptr
      rw [h.2.2 hsize] at hmine
      cases hmine

end StorageAux

open StorageAux

/-- In every run in which the other users of the heap free no block of `dev_read`, and no request needs a buffer while `tmpbuffer` points to
one that was released: `dev_read` owns its buffer in every state. And a call of it frees its own blocks only, and owns its buffer afterwards,
exactly if it is such a call. -/
theorem tmpbuffer_owned (km : KernelMemory κ) (k : κ) (mem : Memory) (r : StorageRun κ)
    (h : Reach (storageStep km) (fun r c => OthersOk r c ∧ NotReleased r c) (storageStart k mem) r) :
    r.OwnsBuffer ∧ ∀ c r', OthersOk r c → storageStep km r c = some r' → ((FreesOwnOnly km r c ∧ r'.OwnsBuffer) ↔ NotReleased r c) := by
  have hinv : StorageInv km r := by
    refine h.inv (StorageInv km) ?_ ?_
    · obtain ⟨used, free, hrep, hok, -⟩ := HeapRunAux.heapInv_start km k mem
      exact ⟨⟨used, free, hrep, hok, nofun⟩, fun hne => absurd rfl hne, fun _ => rfl⟩
    · intro r c r' hi hc hs
      exact (storageInv_step hi hc.1 hc.2 hs).2
  refine ⟨ownsBuffer_of_inv hinv, ?_⟩
  intro c r' hothers hstep
  constructor
  · intro hown
    exact notReleased_of_freesOwn hinv hstep hown.1
  · intro hkept
    obtain ⟨hown, hinv'⟩ := storageInv_step hinv hothers hkept hstep
    exact ⟨hown, ownsBuffer_of_inv hinv'⟩

/-- Five bytes from the middle of a block of four to the middle of the next one. -/
def smallRead : StorageCall := .read (ramDisk 4 4) (fun _ => 0) (fun _ => 0) 4096 0 5 2

/-- The request gets a buffer of two blocks. -/
theorem tmpbuffer_small : ∃ r, storageStep nextMemory (storageStart 4096 fun _ => 0) smallRead = some r ∧ r.tmp = ⟨4096, 8⟩ ∧ r.OwnsBuffer := by
  have hrun : (storageStep nextMemory (storageStart 4096 fun _ => 0) smallRead).map (·.tmp) = some ⟨4096, 8⟩ := by decide +kernel
  obtain ⟨r, hr, htmp⟩ := Option.map_eq_some_iff.mp hrun
  have hnew : NotReleased (storageStart (κ := Nat) 4096 fun _ => 0) smallRead := .inr (.inr (.inr rfl))
  have hreach : Reach (storageStep nextMemory) (fun r c => OthersOk r c ∧ NotReleased r c) (storageStart 4096 fun _ => 0) r :=
    .step smallRead .init ⟨trivial, hnew⟩ hr
  exact ⟨r, hr, htmp, (tmpbuffer_owned nextMemory 4096 (fun _ => 0) r hreach).1⟩

/-- A request within a block of 0x8000 bytes. -/
def largeRead : StorageCall := .read (ramDisk 0x8000 4) (fun _ => 0) (fun _ => 0) 4096 0 1 1

/-- The buffer of the first request is released, and its block becomes another user's; the second request frees it. -/
theorem tmpbuffer_freed_twice : ∃ r₁ r₂ r₃, storageStep nextMemory (storageStart 4096 fun _ => 0) largeRead = some r₁ ∧
    storageStep nextMemory r₁ (.other (.malloc 0x8000)) = some r₂ ∧ r₂.heap.live 4096 = some 0x8000 ∧ r₂.mine 4096 = false ∧
    storageStep nextMemory r₂ largeRead = some r₃ ∧ ¬ FreesOwnOnly nextMemory r₂ largeRead ∧ r₃.heap.live 4096 = none := by
  have hrun : ((storageStep nextMemory (storageStart 4096 fun _ => 0) largeRead).bind fun r₁ =>
      (storageStep nextMemory r₁ (.other (.malloc 0x8000))).bind fun r₂ =>
        (storageStep nextMemory r₂ largeRead).map fun r₃ => (r₂.tmp, r₂.heap.live 4096, r₂.mine 4096, r₃.heap.live 4096)) =
      some (⟨4096, 0⟩, some 0x8000, false, none) := by decide +kernel
  obtain ⟨r₁, h₁, hrun⟩ := Option.bind_eq_some_iff.mp hrun
  obtain ⟨r₂, h₂, hrun⟩ := Option.bind_eq_some_iff.mp hrun
  obtain ⟨r₃, h₃, hres⟩ := Option.map_eq_some_iff.mp hrun
  simp only [Prod.mk.injEq] at hres
  obtain ⟨htmp, hlive, hmine, hlive'⟩ := hres
  refine ⟨r₁, r₂, r₃, h₁, h₂, hlive, hmine, h₃, ?_, hlive'⟩
  intro hown
  have hcalls : ((ramDisk 0x8000 4).devRead (fun _ => 0) (fun _ => 0) ⟨4096, 0⟩ 4096 0 1 1).map (·.calls) =
      some [.kfree 4096, .kmalloc 0x8000, .kfree 4096] := by decide +kernel
  obtain ⟨result, hread, hcalls⟩ := Option.map_eq_some_iff.mp hcalls
  have hfrees := hown result (by rw [htmp]; exact hread)
  rw [hcalls] at hfrees
  rw [hfrees.1 4096 rfl (by decide)] at hmine
  cases hmine

end Kos
