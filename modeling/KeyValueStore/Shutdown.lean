import KeyValueStore.Reload
import KeyValueStore.Sequential

/-!
# Orderly shutdown

The destructor of the table destroys the buckets, and with each bucket the last pointer to its record, whose deleter frees
the block.  So the file of a table that was destroyed has no used block, and the next process finds an empty store
(`shutdown_keeps_iff`).
-/

namespace KeyValueStore

open ByteMemory ConcurrentHashTable

/-- The destruction of buckets, one after another: each `shared_ptr` runs its deleter. -/
def destroyBuckets {σ : Type} (B : Buffer σ) (buckets : List Bucket) (s : σ) : σ :=
  buckets.foldl (fun s bucket => bucket.keyValueData.elim s fun p => B.free p s) s

/-- The files that the destructor may leave: `std::deque` destroys its elements in an unspecified order. -/
def ConcurrentHashTable.Destroyed {N : Nat} {σ : Type} (B : Buffer σ) (t : ConcurrentHashTable N σ) (s : σ) : Prop :=
  ∃ buckets : List Bucket, buckets.Perm t.bucketStorage ∧ s = destroyBuckets B buckets t.buffer

variable {N : Nat} {σ : Type} {B : Buffer σ} {Inv : σ → Prop} {t : ConcurrentHashTable N σ} {s : σ}
  {xs : List (Record × Fin N)} {rs : List Record}

/-- The buckets of the records `rs`, destroyed in any order, leave no used block. -/
private theorem destroyBuckets_holds (hB : B.Lawful Inv) {buckets : List Bucket} (hi : Inv s)
    (h : FileHolds B s (rs.map Record.block) rs)
    (hp : (buckets.map Bucket.keyValueData).Perm (rs.map fun r => some r.data)) :
    Inv (destroyBuckets B buckets s) ∧ FileHolds B (destroyBuckets B buckets s) [] [] := by
  induction buckets generalizing s rs with
  | nil =>
    obtain rfl : rs = [] := List.map_eq_nil_iff.1 (List.nil_perm.1 hp)
    exact ⟨hi, h⟩
  | cons b buckets ih =>
    have hb : b.keyValueData ∈ rs.map fun r => some r.data := hp.mem_iff.1 (List.mem_cons_self ..)
    obtain ⟨r, hr, hd⟩ := List.mem_map.1 hb
    obtain ⟨hi', h'⟩ := h.free_only hB hi hr
    have hp' : (buckets.map Bucket.keyValueData).Perm ((rs.erase r).map fun r => some r.data) := by
      have hcons := hp.trans ((List.perm_cons_erase hr).map fun r => some r.data)
      rw [List.map_cons, List.map_cons, ← hd] at hcons
      exact hcons.cons_inv
    have hstep : destroyBuckets B (b :: buckets) s = destroyBuckets B buckets (B.free r.data s) := by
      rw [destroyBuckets, List.foldl_cons, ← hd]
      rfl
    rw [hstep]
    exact ih hi' h' hp'

/-- A destroyed table leaves no used block. -/
theorem Holds.destroyed (hB : B.Lawful Inv) (hi : Inv t.buffer) (h : Holds B t xs rs) (hd : t.Destroyed B s) :
    Inv s ∧ FileHolds B s [] [] := by
  obtain ⟨buckets, hp, rfl⟩ := hd
  refine destroyBuckets_holds hB hi h.file ((hp.map _).trans ?_)
  rw [h.represents.data, List.map_map]
  have := h.perm.map fun r : Record => some r.data
  rwa [List.map_map] at this

variable [NeZero N]

/-- In a run without a stale split, after an orderly shutdown the next process reads what this one did if and only if no key
has a nonempty value. -/
theorem shutdown_keeps_iff {dbSize : Nat} {s : FileBackedBuffer} (hi : s.Sound dbSize)
    (hs : (plainBuffer dbSize).usedBlocks s = []) (hasher hasher' : Bytes → Nat) (ops : List StoreOp)
    (hops : ∀ op ∈ ops, op.NulFree) (hns : NoStaleSplitFrom N dbSize hasher s ops) :
    ∃ es q, runFrom (N := N) (plainBuffer dbSize) hasher s ops = some (es, q) ∧
      ∀ s', q.table.Destroyed (plainBuffer dbSize) s' →
        ((∀ key, getAfterReopen N (plainBuffer dbSize) hasher' s' key =
            ConcurrentHashTable.get (plainBuffer dbSize) q.hasher q.table key) ↔
          ∀ key, latest es key = []) := by
  obtain ⟨es, q, xs, rs, hrun, hi', h, -⟩ := runFrom_tracks_of_noStaleSplit hi hs hasher hops hns
  refine ⟨es, q, hrun, fun s' hd => forall_congr' fun key => ?_⟩
  have hf : FileHolds (guardedBuffer dbSize) s' (([] : List Record).map Record.block) [] :=
    (h.holds.destroyed (guardedBuffer_lawful dbSize) hi' hd).2
  rw [plainBuffer_eq, getAfterReopen_withAlloc, get_withAlloc, getAfterReopen_eq hf, h.holds.get, h.current_eq,
    Option.some.injEq, eq_comm]
  rfl

theorem shutdown_keeps_empty_value :
    ∃ es q, runFrom (N := 1) (plainBuffer 220) List.length (emptyFile 220 (by decide)) [.put [97] []] = some (es, q) ∧
      ∀ s', q.table.Destroyed (plainBuffer 220) s' → ∀ key, getAfterReopen 1 (plainBuffer 220) List.length s' key =
        ConcurrentHashTable.get (plainBuffer 220) q.hasher q.table key := by
  obtain ⟨hi, hs⟩ := emptyFile_sound 220 (by decide) (by decide)
  obtain ⟨es, q, hrun, hiff⟩ := shutdown_keeps_iff (N := 1) hi hs List.length List.length [.put [97] []]
    (by simp [StoreOp.NulFree]) (by decide +kernel)
  have hes : (runFrom (N := 1) (plainBuffer 220) List.length (emptyFile 220 (by decide)) [.put [97] []]).map Prod.fst =
      some [.put [97] [] true] := by decide +kernel
  rw [hrun, Option.map_some, Option.some.injEq] at hes
  dsimp only at hes
  subst hes
  exact ⟨_, q, hrun, fun s' hd => (hiff s' hd).2 (by simp [latest])⟩

/-- A stored pair is lost. -/
theorem shutdown_loses_pair : ∃ (es : List Event) (q : Process 1 FileBackedBuffer) (s' : FileBackedBuffer),
    runFrom (plainBuffer 220) List.length (emptyFile 220 (by decide)) [.put [97] [98]] = some (es, q) ∧
      q.table.Destroyed (plainBuffer 220) s' ∧
      ConcurrentHashTable.get (plainBuffer 220) q.hasher q.table [97] = some [98] ∧
      getAfterReopen 1 (plainBuffer 220) List.length s' [97] = some [] := by
  have hrun : (runFrom (N := 1) (plainBuffer 220) List.length (emptyFile 220 (by decide)) [.put [97] [98]]).any fun r =>
      ConcurrentHashTable.get (plainBuffer 220) r.2.hasher r.2.table [97] = some [98] ∧
      getAfterReopen 1 (plainBuffer 220) List.length
        (destroyBuckets (plainBuffer 220) r.2.table.bucketStorage r.2.table.buffer) [97] = some [] := by
    decide +kernel
  obtain ⟨⟨es, q⟩, hq, hget⟩ := (Option.any_eq_true _ _).1 hrun
  obtain ⟨h₁, h₂⟩ := of_decide_eq_true hget
  exact ⟨es, q, _, hq, ⟨_, List.Perm.refl _, rfl⟩, h₁, h₂⟩

end KeyValueStore
