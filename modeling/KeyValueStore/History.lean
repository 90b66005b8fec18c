import KeyValueStore.HashTable
import Mathlib.Data.List.Induction

/-!
# Runs of the store, one call after another

A run is a sequence of calls and of kills, each followed by a new process that opens the same file, possibly with another
hash function.  Its history says what the calls returned, and the keys that each open found on the used list.  `latest` is
the map that the store implements and `order` the order in which it is iterated, both read from the history.
-/

namespace KeyValueStore

open ConcurrentHashTable

inductive StoreOp where
  | put (key value : Bytes)
  | get (key : Bytes)
  | reopen (hasher : Bytes → Nat)

/-- Keys and values of the step hold no `NUL` byte. -/
def StoreOp.NulFree : StoreOp → Prop
  | .put key value => 0 ∉ key ∧ 0 ∉ value
  | .get key => 0 ∉ key
  | .reopen _ => True

/-- What a step returned; `opened` holds the keys found on the used list. -/
inductive Event where
  | put (key value : Bytes) (ok : Bool)
  | get (key result : Bytes)
  | opened (keys : List Bytes)
  deriving DecidableEq, Repr

/-- A process that has the store open. -/
structure Process (N : Nat) (σ : Type) where
  hasher : Bytes → Nat
  table : ConcurrentHashTable N σ

/-- The keys of the used blocks, in the order of the used list. -/
def usedKeys {σ : Type} (B : Buffer σ) (s : σ) : List Bytes := (B.usedBlocks s).filterMap fun b => string B s b.data

/-- A new process opens the file. -/
def Process.start {N : Nat} [NeZero N] {σ : Type} (B : Buffer σ) (hasher : Bytes → Nat) (s : σ) :
    Option (Process N σ) :=
  (ConcurrentHashTable.load B hasher s).map fun t => ⟨hasher, t⟩

def Process.step {N : Nat} [NeZero N] {σ : Type} (B : Buffer σ) (p : Process N σ) :
    StoreOp → Option (Event × Process N σ)
  | .put key value => (put B p.hasher p.table key value).map fun r => (.put key value r.1, { p with table := r.2 })
  | .get key => (ConcurrentHashTable.get B p.hasher p.table key).map fun r => (.get key r, p)
  | .reopen hasher => (Process.start B hasher p.table.buffer).map fun q => (.opened (usedKeys B p.table.buffer), q)

/-- The history of the steps `ops`, and the process after them. -/
def Process.run {N : Nat} [NeZero N] {σ : Type} (B : Buffer σ) : Process N σ → List StoreOp →
    Option (List Event × Process N σ)
  | p, [] => some ([], p)
  | p, op :: ops => do
    let (e, q) ← p.step B op
    let (es, r) ← Process.run B q ops
    return (e :: es, r)

/-- A run from the first process on a file. -/
def runFrom {N : Nat} [NeZero N] {σ : Type} (B : Buffer σ) (hasher : Bytes → Nat) (s : σ) (ops : List StoreOp) :
    Option (List Event × Process N σ) :=
  (Process.start B hasher s).bind fun p => p.run B ops

/-! ### The map and its order -/

/-- The value of the latest `put` to `key` that returned `true`, the empty string if there is none. -/
def latest (history : List Event) (key : Bytes) : Bytes :=
  history.foldl (fun v e => match e with
    | .put k v' true => if k = key then v' else v
    | _ => v) []

/-- The keys found by the last open, then the others in the order of their first `put`. -/
def order (history : List Event) : List Bytes :=
  history.foldl (fun ks e => match e with
    | .put k _ true => if k ∈ ks then ks else ks ++ [k]
    | .put _ _ false => ks
    | .get _ _ => ks
    | .opened ks' => ks') []

theorem latest_concat (history : List Event) (e : Event) (key : Bytes) :
    latest (history ++ [e]) key = match e with
      | .put k v true => if k = key then v else latest history key
      | _ => latest history key := by
  rw [latest, List.foldl_append]
  rfl

theorem order_concat (history : List Event) (e : Event) :
    order (history ++ [e]) = match e with
      | .put k _ true => if k ∈ order history then order history else order history ++ [k]
      | .put _ _ false => order history
      | .get _ _ => order history
      | .opened ks => ks := by
  rw [order, List.foldl_append]
  rfl

/-- A key without a successful `put` has no value. -/
theorem latest_eq_nil {history : List Event} {key : Bytes} (h : ∀ value, .put key value true ∉ history) :
    latest history key = [] := by
  induction history using List.reverseRecOn with
  | nil => rfl
  | append_singleton history e ih =>
    have ih := ih fun value hmem => h value (List.mem_append_left _ hmem)
    rw [latest_concat]
    split
    · rename_i k v
      have hne : k ≠ key := by
        rintro rfl
        exact h v (List.mem_append_right _ (List.mem_singleton.2 rfl))
      rw [if_neg hne, ih]
    · exact ih

variable {N : Nat} [NeZero N] {σ : Type} {B : Buffer σ}

theorem run_concat (p : Process N σ) (ops : List StoreOp) (op : StoreOp) :
    p.run B (ops ++ [op]) = (p.run B ops).bind fun r => (r.2.step B op).map fun r' => (r.1 ++ [r'.1], r'.2) := by
  induction ops generalizing p with
  | nil =>
    simp only [List.nil_append, Process.run, Option.bind_eq_bind, Option.bind_some]
    cases p.step B op <;> rfl
  | cons op' ops ih =>
    simp only [List.cons_append, Process.run, Option.bind_eq_bind]
    cases p.step B op' with
    | none => rfl
    | some r =>
      simp only [Option.bind_some, ih]
      cases r.2.run B ops with
      | none => rfl
      | some r' =>
        cases hop : r'.2.step B op <;> simp [hop]

theorem start_empty {s : σ} (hs : B.usedBlocks s = []) (hasher : Bytes → Nat) :
    Process.start (N := N) B hasher s = some ⟨hasher, ⟨s, [], fun _ => none⟩⟩ := by
  rw [Process.start, ConcurrentHashTable.load, hs]
  rfl

end KeyValueStore
