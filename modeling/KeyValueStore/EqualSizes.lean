import KeyValueStore.AtomicMap
import KeyValueStore.Grid
import KeyValueStore.GuardedRuns

/-!
# A store whose records have one size

The contract of the buffer leaves stale splits out; the allocator of the code has them.  What a step of the store does to the
file is one operation of the buffer (`FileStep`), so while all `put`s ask for the same number of bytes the file stays
gridded, and a run over the allocator of the code is a run over the lawful buffer.
-/

namespace KeyValueStore

open ByteMemory ConcurrentHashTable

variable {N : Nat} {σ : Type} {B : Buffer σ} {Inv : σ → Prop} {hasher : Bytes → Nat} {s s' : State N σ} {i n : Nat}
  {r : Request} {pc pc' : Pc} {dbSize L : Nat}

/-! ### What a step does to the file -/

/-- A step leaves the file as it is, or calls one operation of the buffer; what it writes lies in the bytes that its `put`
asked for. -/
inductive FileStep (B : Buffer σ) (s : State N σ) : σ → Prop
  | keep : FileStep B s s.shared.buffer
  | alloc (i : Nat) (r : Request) (hth : s.threads[i]? = some ⟨r, .locked⟩) :
    FileStep B s (B.alloc (r.key.length + 1 + r.value.length + 1) s.shared.buffer).2
  | free (b : Payload) (hb : b ∈ B.usedBlocks s.shared.buffer) : FileStep B s (B.free b.data s.shared.buffer)
  | write (i : Nat) (r : Request) (pc : Pc) (hth : s.threads[i]? = some ⟨r, pc⟩) (hc : pc.Critical) (b : Payload)
    (hb : b ∈ B.usedBlocks s.shared.buffer) (a : Nat) (bs : List UInt8) (ha : b.data ≤ a)
    (hsize : r.key.length + 1 + r.value.length + 1 ≤ b.size)
    (hbs : a + bs.length ≤ b.data + (r.key.length + 1 + r.value.length + 1)) :
    FileStep B s (B.write a bs s.shared.buffer)

private theorem Safe.fileStep_release (h : Safe B Inv s) {th : Thread} (hth : s.threads[i]? = some th) {c : Nat}
    (hc : th.control = some c) : FileStep B s (s.shared.release B c).buffer := by
  obtain ⟨x, hx, hlive⟩ := h.counted.thread_live hth hc
  have hbuffer : (s.shared.release B c).buffer =
      if x.useCount = 1 then B.free x.record.data s.shared.buffer else s.shared.buffer := by rw [Shared.release, hx]
  rw [hbuffer]
  split
  · obtain ⟨pend, hp⟩ := h.stored
    have hmem : x.record.block ∈ B.usedBlocks s.shared.buffer := by
      rw [hp.file.used]
      exact List.mem_append_right _ (List.mem_map_of_mem (mem_live.2 ⟨c, x, hx, hlive, rfl⟩))
    exact .free x.record.block hmem
  · exact .keep

variable [NeZero N]

/-- What holds of the file after each of its operations, and after a call has dropped a record, holds after a step. -/
theorem Safe.file_cases (h : Safe B Inv s) (hs : Step B hasher s s') {P : σ → Prop} (keep : P s.shared.buffer)
    (alloc : ∀ (i : Nat) (r : Request), s.threads[i]? = some ⟨r, .locked⟩ →
      P (B.alloc (r.key.length + 1 + r.value.length + 1) s.shared.buffer).2)
    (release : ∀ (i : Nat) (th : Thread) (c : Nat), s.threads[i]? = some th → th.control = some c →
      P (s.shared.release B c).buffer)
    (write : ∀ (i : Nat) (r : Request) (pc : Pc), s.threads[i]? = some ⟨r, pc⟩ → pc.Critical →
      ∀ b ∈ B.usedBlocks s.shared.buffer, ∀ (a : Nat) (bs : List UInt8), b.data ≤ a →
      r.key.length + 1 + r.value.length + 1 ≤ b.size →
      a + bs.length ≤ b.data + (r.key.length + 1 + r.value.length + 1) → P (B.write a bs s.shared.buffer)) :
    P s'.shared.buffer := by
  rcases hs.cases with ⟨r, -, rfl⟩ | ⟨i, r, pc, sh', pc', hth, hf, rfl⟩
  · exact keep
  · obtain ⟨pend, hp⟩ := h.stored
    have hpend : ∀ {p size : Nat}, pend = [⟨p, size⟩] → (⟨p, size⟩ : Payload) ∈ B.usedBlocks s.shared.buffer := by
      rintro p size rfl
      rw [hp.file.used]
      exact List.mem_cons_self ..
    cases hf with
    | allocFail ha =>
      have := alloc i r hth
      rwa [ha] at this
    | alloc ha =>
      have := alloc i r hth
      rwa [ha] at this
    | dropCompared => exact release i _ _ hth rfl
    | dropRead => exact release i _ _ hth rfl
    | dropOld => exact release i _ _ hth rfl
    | @copyKey p b isNew =>
      obtain ⟨size, he, hsize, -⟩ := hp.fills i _ p hth rfl
      refine write i r _ hth rfl _ (hpend he) p _ (Nat.le_refl p) hsize ?_
      rw [length_strncpyBytes]
      simp only
      omega
    | @copyValue p b isNew t hcopy =>
      obtain ⟨size, he, hsize, hat⟩ := hp.fills i _ p hth rfl
      have hsize : r.key.length + 1 + r.value.length + 1 ≤ size := hsize
      have hin : p + size ≤ B.dbSize := hp.file.inside ⟨p, size⟩ (he ▸ List.mem_append_left _ (List.mem_singleton_self _))
      have hread : string B s.shared.buffer p = some r.key := cString_eq_some.2 ⟨hat, by omega⟩
      rw [ConcurrentHashTable.copyValue, hread] at hcopy
      obtain rfl := Option.some.inj hcopy
      refine write i r _ hth rfl _ (hpend he) (p + r.key.length + 1) _ (by simp only; omega) hsize ?_
      rw [length_strncpyBytes]
      simp only
      omega
    | _ => exact keep

private theorem Safe.fileStep (h : Safe B Inv s) (hs : Step B hasher s s') : FileStep B s s'.shared.buffer :=
  h.file_cases hs .keep .alloc (fun _ _ _ hth hc => h.fileStep_release hth hc) .write

/-! ### Runs over the allocator of the code -/

/-- The record that a `put` makes has `n` bytes. -/
def Request.Sized (n : Nat) (r : Request) : Prop :=
  ∀ key value, r = .put key value → key.length + 1 + value.length + 1 = n

section

variable {s s' : State N FileBackedBuffer} {states : Nat → State N FileBackedBuffer} {file : FileBackedBuffer}
  {rs : List Record}

omit [NeZero N] in
/-- The call that allocates, or has allocated, is a `put` of a record of `n` bytes. -/
private theorem size_of_critical (htyped : ∀ (i : Nat) (th : Thread), s.threads[i]? = some th → th.Typed)
    (hsized : ∀ (i : Nat) (th : Thread), s.threads[i]? = some th → th.request.Sized n) {pc : Pc}
    (hth : s.threads[i]? = some ⟨r, pc⟩) (hc : pc.Critical) : r.key.length + 1 + r.value.length + 1 = n := by
  cases r with
  | get key => exact absurd hc (htyped i _ hth).1
  | put key value => exact hsized i _ hth key value rfl

/-- A step leaves a gridded file while all records have one size. -/
theorem FileBackedBuffer.Gridded.step (hg : s.shared.buffer.Gridded n) (h : Step (guardedBuffer dbSize) hasher s s')
    (hs : Safe (guardedBuffer dbSize) (FileBackedBuffer.Sound dbSize) s)
    (hsize : ∀ (i : Nat) (r : Request) (pc : Pc), s.threads[i]? = some ⟨r, pc⟩ → pc.Critical →
      r.key.length + 1 + r.value.length + 1 = n) : s'.shared.buffer.Gridded n := by
  have hfile := hs.fileStep h
  generalize s'.shared.buffer = t at hfile ⊢
  cases hfile with
  | keep => exact hg
  | alloc i r hth =>
    rw [hsize i r _ hth trivial, guardedBuffer_alloc, allocUnlessStale_eq hg.not_staleSplit]
    exact hg.alloc
  | free b hb => exact hg.free hb
  | write i r pc hth hc b hb a bs ha hsz hbs =>
    exact hg.write hb ha (by omega) (by rw [← hsize i r pc hth hc]; exact hbs)

/-- While all records have one size, the file of a run over the allocator of the code is gridded, and so no split is stale. -/
theorem Run.gridded (h : Run (plainBuffer dbSize) hasher s states L)
    (hs : Safe (guardedBuffer dbSize) (FileBackedBuffer.Sound dbSize) s) (hopen : JustOpened hasher rs file s)
    (hg : s.shared.buffer.Gridded n)
    (hsized : ∀ (i : Nat) (th : Thread), (states L).threads[i]? = some th → th.request.Sized n) :
    NoStaleSplitIn states L ∧ ∀ k ≤ L, (states k).shared.buffer.Gridded n := by
  have hB := guardedBuffer_lawful dbSize
  obtain ⟨hns, hall⟩ := h.noStaleSplit
    (P := fun s => s.shared.buffer.Gridded n ∧ Safe (guardedBuffer dbSize) (FileBackedBuffer.Sound dbSize) s ∧
      ∃ chains, Coherent hasher (fun _ _ => True) s chains)
    (Q := fun s => ∀ (i : Nat) (th : Thread), s.threads[i]? = some th → th.request.Sized n)
    ⟨hg, hs, _, hopen.coherent _⟩ hsized
    (fun hstep hsized i th hth => by
      obtain ⟨pc', hth', -⟩ := hstep.thread hth
      have hreq := hsized i _ hth'
      exact hreq)
    (fun ⟨hg, _, chains, hc⟩ hsized ⟨i, r, hth, _, hst⟩ => by
      rw [size_of_critical (fun i th hth => (hc.knows i th hth).typed) hsized hth trivial] at hst
      exact hg.not_staleSplit hst)
    (fun ⟨hg, hs, chains, hc⟩ hsized hstep =>
      ⟨hg.step hstep hs fun i r pc => size_of_critical (fun i th hth => (hc.knows i th hth).typed) hsized,
        hs.step hB hstep, hc.step hs hstep (fun _ _ h => h) fun _ _ _ _ => trivial⟩)
  exact ⟨hns, fun k hk => (hall k hk).1⟩

end

/-- A store whose `put`s all make records of `n` bytes needs no assumption on the allocator: from a gridded file, such as a new one
or one that such a store left behind, every run over the code's `alloc` keeps the file well formed and gridded, and its
calls are linearizable. -/
theorem equal_sizes_linearizable {file : FileBackedBuffer} (hdb : file.dbSize = dbSize) (hg : file.Gridded n)
    {rs : List Record} (hf : FileHolds (plainBuffer dbSize) file (rs.map Record.block) rs) (hasher : Bytes → Nat) :
    ∃ s₀, State.opened (N := N) (plainBuffer dbSize) hasher file = some s₀ ∧
      ∀ states L, Run (plainBuffer dbSize) hasher s₀ states L →
        (∀ (i : Nat) (th : Thread), (states L).threads[i]? = some th → th.request.Sized n) →
        (∀ k ≤ L, WellFormed (states k).shared.buffer ∧ (states k).shared.buffer.Gridded n) ∧
          Linearization.Linearizable MapStep (lastValue rs) (runHistory states L) := by
  obtain ⟨s₀, hs₀, hopen⟩ := opened_of_holds (N := N) hf hasher
  have hsound : file.Sound dbSize := ⟨hdb, hg.wellFormed⟩
  have hsafe : Safe (guardedBuffer dbSize) (FileBackedBuffer.Sound dbSize) s₀ := hopen.safe hsound hf.guarded
  refine ⟨s₀, hs₀, fun states L h hsized => ?_⟩
  obtain ⟨hns, hgrid⟩ := h.gridded hsafe hopen (hopen.buffer ▸ hg) hsized
  refine ⟨fun k hk => ⟨(hgrid k hk).wellFormed, hgrid k hk⟩, ?_⟩
  exact (h.guarded hns).linearizable (guardedBuffer_lawful dbSize) hsafe hopen

theorem equal_sizes_linearizable_of_new_file :
    ∃ s₀, State.opened (N := 1) (plainBuffer 220) List.length (emptyFile 220 (by decide)) = some s₀ ∧
      ∀ states L, Run (plainBuffer 220) List.length s₀ states L →
        (∀ (i : Nat) (th : Thread), (states L).threads[i]? = some th → th.request.Sized 8) →
        (∀ k ≤ L, WellFormed (states k).shared.buffer ∧ (states k).shared.buffer.Gridded 8) ∧
          Linearization.Linearizable MapStep (lastValue []) (runHistory states L) := by
  obtain ⟨hi, hs⟩ := emptyFile_sound 220 (by decide) (by decide)
  have hf : FileHolds (plainBuffer 220) (emptyFile 220 (by decide)) (([] : List Record).map Record.block) [] :=
    fileHolds_empty hs
  exact equal_sizes_linearizable hi.1 (emptyFile_gridded 220 (by decide) (by decide) 8) hf List.length

end KeyValueStore
