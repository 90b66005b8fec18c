import KeyValueStore.FileBuffer
import KeyValueStore.History

/-!
# Runs without a stale split

The contract of the buffer leaves stale splits out, and the `alloc` of the code has them.  Where two allocators agree on the
requests of a run, the run is the same over both.  So a run over the code's buffer in which no `alloc` splits a stale block is
one over the guarded buffer (`runFrom_guarded`), and what is proved over the contract holds of it.
-/

namespace KeyValueStore

open ConcurrentHashTable

variable {N : Nat} {σ : Type} {B : Buffer σ} {f : Nat → σ → Option Nat × σ} {dbSize : Nat}

/-- The guarded buffer and the code's differ in their `alloc`. -/
theorem plainBuffer_eq (dbSize : Nat) : plainBuffer dbSize = (guardedBuffer dbSize).withAlloc allocPlain := rfl

theorem plainBuffer_usedBlocks (dbSize : Nat) : (plainBuffer dbSize).usedBlocks = (guardedBuffer dbSize).usedBlocks := rfl

/-! ### Another allocator -/

section

variable {hasher : Bytes → Nat} {t : ConcurrentHashTable N σ} {p : Process N σ}

private theorem findFrom_withAlloc (key : Bytes) (fuel currBucket : Nat) :
    findFrom (B.withAlloc f) t key fuel currBucket = findFrom B t key fuel currBucket := by
  induction fuel generalizing currBucket with
  | zero => rfl
  | succ fuel ih =>
    simp only [findFrom, ih]
    rfl

variable [NeZero N]

theorem findBucketWithKey_withAlloc (key : Bytes) :
    findBucketWithKey (B.withAlloc f) hasher t key = findBucketWithKey B hasher t key := by
  simp only [findBucketWithKey, findFrom_withAlloc]

theorem get_withAlloc (key : Bytes) :
    ConcurrentHashTable.get (B.withAlloc f) hasher t key = ConcurrentHashTable.get B hasher t key := by
  rw [ConcurrentHashTable.get, ConcurrentHashTable.get, findBucketWithKey_withAlloc]
  rfl

private theorem start_withAlloc (s : σ) : Process.start (N := N) (B.withAlloc f) hasher s = Process.start B hasher s := rfl

/-- A `put` is the same where its request is. -/
theorem put_withAlloc {key value : Bytes} (hf : f (key.length + 1 + value.length + 1) t.buffer =
    B.alloc (key.length + 1 + value.length + 1) t.buffer) :
    put (B.withAlloc f) hasher t key value = put B hasher t key value := by
  simp only [put, withAlloc_alloc, hf, findBucketWithKey_withAlloc]
  rfl

theorem Process.step_withAlloc {op : StoreOp} (hf : ∀ key value, op = .put key value →
    f (key.length + 1 + value.length + 1) p.table.buffer = B.alloc (key.length + 1 + value.length + 1) p.table.buffer) :
    p.step (B.withAlloc f) op = p.step B op := by
  cases op with
  | put key value => rw [Process.step, Process.step, put_withAlloc (hf key value rfl)]
  | get key => rw [Process.step, Process.step, get_withAlloc]
  | reopen hasher => rfl

end

variable [NeZero N] {hasher : Bytes → Nat}

/-- The step is a `put` whose allocation splits a stale block. -/
def StoreOp.StaleSplit (s : FileBackedBuffer) : StoreOp → Prop
  | .put key value => KeyValueStore.StaleSplit s (key.length + 1 + value.length + 1)
  | .get _ => False
  | .reopen _ => False

instance (s : FileBackedBuffer) (op : StoreOp) : Decidable (op.StaleSplit s) := by
  cases op <;> unfold StoreOp.StaleSplit <;> infer_instance

/-- No allocation of the steps splits a stale block. -/
def Process.NoStaleSplit (dbSize : Nat) : Process N FileBackedBuffer → List StoreOp → Prop
  | _, [] => True
  | p, op :: ops => ¬ op.StaleSplit p.table.buffer ∧ ∀ r ∈ p.step (plainBuffer dbSize) op, r.2.NoStaleSplit dbSize ops

instance decidableNoStaleSplit (dbSize : Nat) :
    (p : Process N FileBackedBuffer) → (ops : List StoreOp) → Decidable (p.NoStaleSplit dbSize ops)
  | _, [] => isTrue trivial
  | p, op :: ops =>
    have (r : Event × Process N FileBackedBuffer) : Decidable (r.2.NoStaleSplit dbSize ops) :=
      decidableNoStaleSplit dbSize r.2 ops
    inferInstanceAs (Decidable (¬ op.StaleSplit p.table.buffer ∧
      ∀ r ∈ p.step (plainBuffer dbSize) op, r.2.NoStaleSplit dbSize ops))

/-- No allocation of the run from a file splits a stale block. -/
def NoStaleSplitFrom (N : Nat) [NeZero N] (dbSize : Nat) (hasher : Bytes → Nat) (s : FileBackedBuffer)
    (ops : List StoreOp) : Prop :=
  ∀ p ∈ Process.start (N := N) (plainBuffer dbSize) hasher s, p.NoStaleSplit dbSize ops

instance (dbSize : Nat) (hasher : Bytes → Nat) (s : FileBackedBuffer) (ops : List StoreOp) :
    Decidable (NoStaleSplitFrom N dbSize hasher s ops) :=
  inferInstanceAs (Decidable (∀ p ∈ Process.start (N := N) (plainBuffer dbSize) hasher s, p.NoStaleSplit dbSize ops))

section

variable {p : Process N FileBackedBuffer} {s : FileBackedBuffer} {op : StoreOp} {ops : List StoreOp}

theorem Process.step_guarded (hns : ¬ op.StaleSplit p.table.buffer) :
    p.step (guardedBuffer dbSize) op = p.step (plainBuffer dbSize) op := by
  rw [guardedBuffer]
  refine Process.step_withAlloc fun key value e => ?_
  subst e
  rw [plainBuffer_alloc]
  exact allocUnlessStale_eq hns

theorem Process.run_guarded (hns : p.NoStaleSplit dbSize ops) :
    p.run (guardedBuffer dbSize) ops = p.run (plainBuffer dbSize) ops := by
  induction ops generalizing p with
  | nil => rw [Process.run, Process.run]
  | cons op ops ih =>
    obtain ⟨hop, hnext⟩ := hns
    rw [Process.run, Process.run, Process.step_guarded hop]
    cases hstep : p.step (plainBuffer dbSize) op with
    | none => rfl
    | some r => simp only [Option.bind_eq_bind, Option.bind_some, ih (hnext r hstep)]

/-- The last step of the run counts too. -/
private theorem Process.noStaleSplit_concat :
    p.NoStaleSplit dbSize (ops ++ [op]) ↔ p.NoStaleSplit dbSize ops ∧
      ∀ r ∈ p.run (plainBuffer dbSize) ops, ¬ op.StaleSplit r.2.table.buffer := by
  induction ops generalizing p with
  | nil => simp [Process.NoStaleSplit, Process.run]
  | cons op' ops ih =>
    simp only [List.cons_append, Process.NoStaleSplit, ih, Process.run, Option.bind_eq_bind, Option.mem_def]
    cases p.step (plainBuffer dbSize) op' with
    | none => simp
    | some r =>
      simp only [Option.some.injEq, forall_eq', Option.bind_some, and_assoc]
      cases r.2.run (plainBuffer dbSize) ops with
      | none => simp
      | some r' => simp

theorem noStaleSplitFrom_concat :
    NoStaleSplitFrom N dbSize hasher s (ops ++ [op]) ↔ NoStaleSplitFrom N dbSize hasher s ops ∧
      ∀ r ∈ runFrom (N := N) (plainBuffer dbSize) hasher s ops, ¬ op.StaleSplit r.2.table.buffer := by
  unfold NoStaleSplitFrom runFrom
  cases Process.start (N := N) (plainBuffer dbSize) hasher s with
  | none => simp
  | some p => simp [Process.noStaleSplit_concat]

theorem runFrom_guarded (hns : NoStaleSplitFrom N dbSize hasher s ops) :
    runFrom (N := N) (guardedBuffer dbSize) hasher s ops = runFrom (plainBuffer dbSize) hasher s ops := by
  have hstart : Process.start (N := N) (guardedBuffer dbSize) hasher s = Process.start (plainBuffer dbSize) hasher s := by
    rw [guardedBuffer, start_withAlloc]
  rw [runFrom, runFrom, hstart]
  cases hp : Process.start (N := N) (plainBuffer dbSize) hasher s with
  | none => rfl
  | some p => exact Process.run_guarded (hns p hp)

end

end KeyValueStore
