import KeyValueStore.History
import KeyValueStore.Records
import Mathlib.Logic.Relation

/-!
# Concurrent calls

Any number of `get` and `put` calls, whose steps are the atomic ones of the code: taking and releasing the write mutex, each
load and store of a chain head and of a record pointer, each release of a pointer that was loaded, and the calls of `alloc`
and `free`.  A comparison, a copy and a move to the next bucket are steps of their own.

A `shared_ptr` is modelled with its control block: a bucket and a call in flight hold the number of a control block, and the
step that drops the last copy runs the deleter.  Control blocks are numbered in the order in which they are made; when a
file is opened, by the age of the records, the oldest first.  What `put` copied into a record, and the log of the puts in
the order in which they took effect, are kept beside the state, and no step reads them.
-/

namespace KeyValueStore

open ConcurrentHashTable

/-- The control block of a `shared_ptr`, and the record that its pointer owns. -/
structure Control where
  record : Record
  useCount : Nat
  deriving DecidableEq, Repr

inductive Request where
  | get (key : Bytes)
  | put (key value : Bytes)
  deriving DecidableEq, Repr

def Request.key : Request → Bytes
  | .get key => key
  | .put key _ => key

def Request.value : Request → Bytes
  | .get _ => []
  | .put _ value => value

/-- Keys and values hold no `NUL` byte. -/
def Request.NulFree (r : Request) : Prop := 0 ∉ r.key ∧ 0 ∉ r.value

instance (r : Request) : Decidable r.NulFree := inferInstanceAs (Decidable (_ ∧ _))

inductive Result where
  | value (value : Bytes)
  | ok (ok : Bool)
  deriving DecidableEq, Repr

/-- Where a call stands.  `find_bucket_with_key` is called by `put` with a block already allocated, by `get` without. -/
inductive Pc where
  /-- before the first step -/
  | called
  /-- `put` holds the mutex -/
  | locked
  /-- before the load of the chain head -/
  | findHead (block : Option Nat)
  /-- before the load of the record pointer of the bucket -/
  | findLoad (block : Option Nat) (bucket : Nat)
  /-- before the comparison of the key -/
  | findCompare (block : Option Nat) (bucket control : Nat)
  /-- before the release of the pointer loaded -/
  | findDrop (block : Option Nat) (bucket control : Nat) (equal : Bool)
  /-- before the move to the next bucket -/
  | findNext (block : Option Nat) (bucket : Nat)
  /-- `find_bucket_with_key` has returned -/
  | found (block : Option Nat) (bucket : Option Nat)
  /-- `get` has loaded the record of the bucket found -/
  | readValue (control : Nat)
  /-- before the release of that pointer -/
  | dropValue (control : Nat) (value : Bytes)
  /-- before the copies into the new block -/
  | copyKey (block bucket : Nat) (isNew : Bool)
  | copyValue (block bucket : Nat) (isNew : Bool)
  /-- before the store of the record pointer -/
  | setPointer (block bucket : Nat) (isNew : Bool)
  /-- before the release of the pointer that was replaced -/
  | dropOld (control bucket : Nat) (isNew : Bool)
  /-- before the store of the chain head -/
  | storeBucket (bucket : Nat)
  /-- before the release of the mutex -/
  | unlock (ok : Bool)
  | returned (result : Result)
  deriving DecidableEq, Repr

structure Thread where
  request : Request
  pc : Pc
  deriving DecidableEq, Repr

/-- A `put` that took effect; a record found when the file was opened belongs to no call. -/
structure LogEntry where
  thread : Option Nat
  key : Bytes
  value : Bytes
  deriving DecidableEq, Repr

/-- What all calls share; a bucket's `keyValueData` is the number of a control block. -/
structure Shared (N : Nat) (σ : Type) where
  buffer : σ
  bucketStorage : List Bucket
  hashTable : Fin N → Option Nat
  controls : List Control
  writeMutex : Option Nat
  log : List LogEntry

structure State (N : Nat) (σ : Type) where
  shared : Shared N σ
  threads : List Thread

variable {N : Nat} {σ : Type}

/-- The value of the last entry of the log with the key, the empty string if there is none. -/
def mapOf (log : List LogEntry) (key : Bytes) : Bytes :=
  ((log.filter fun e => e.key = key).getLast?).elim [] LogEntry.value

/-! ### The steps of one call -/

namespace Shared

def loadPointer (sh : Shared N σ) (bucket : Nat) : Option Nat := sh.bucketStorage[bucket]?.bind Bucket.keyValueData

/-- A copy of the pointer is made. -/
def acquire (sh : Shared N σ) (control : Nat) : Shared N σ :=
  { sh with controls := sh.controls.modify control fun c => { c with useCount := c.useCount + 1 } }

/-- A copy is dropped; the last one runs the deleter. -/
def release (B : Buffer σ) (sh : Shared N σ) (control : Nat) : Shared N σ :=
  match sh.controls[control]? with
  | none => sh
  | some c =>
    { sh with
      controls := sh.controls.set control { c with useCount := c.useCount - 1 }
      buffer := if c.useCount = 1 then B.free c.record.data sh.buffer else sh.buffer }

/-- The key at the record. -/
def keyString (B : Buffer σ) (sh : Shared N σ) (control : Nat) : Option Bytes :=
  sh.controls[control]?.bind fun c => string B sh.buffer c.record.data

/-- The value behind it. -/
def valueString (B : Buffer σ) (sh : Shared N σ) (control : Nat) : Option Bytes := do
  let c ← sh.controls[control]?
  let key ← string B sh.buffer c.record.data
  string B sh.buffer (c.record.data + key.length + 1)

/-- The size of a used block. -/
def blockSize (B : Buffer σ) (s : σ) (block : Nat) : Nat :=
  ((B.usedBlocks s).find? fun b => b.data = block).elim 0 Payload.size

/-- The new record, with its control block. -/
def newControl (B : Buffer σ) (sh : Shared N σ) (r : Request) (block : Nat) : Control :=
  ⟨⟨block, blockSize B sh.buffer block, r.key, r.value⟩, 1⟩

/-- `atomic_store_explicit` of the record pointer. -/
def exchange (B : Buffer σ) (sh : Shared N σ) (r : Request) (block bucket : Nat) : Shared N σ :=
  { sh with
    controls := sh.controls ++ [newControl B sh r block]
    bucketStorage := sh.bucketStorage.modify bucket fun b => { b with keyValueData := some sh.controls.length } }

variable [NeZero N]

/-- The load of the chain head. -/
def loadHead (hasher : Bytes → Nat) (sh : Shared N σ) (key : Bytes) (block : Option Nat) : Pc :=
  match sh.hashTable (hashTableIndex hasher key) with
  | none => .found block none
  | some bucket => .findLoad block bucket

/-- `store_bucket`. -/
def link (hasher : Bytes → Nat) (sh : Shared N σ) (key : Bytes) (bucket : Nat) : Shared N σ :=
  let index := hashTableIndex hasher key
  { sh with
    bucketStorage := sh.bucketStorage.modify bucket fun b => { b with nextBucket := sh.hashTable index }
    hashTable := Function.update sh.hashTable index (some bucket) }

/-- What follows the store of the record pointer in `put`. -/
def afterSet (bucket : Nat) (isNew : Bool) : Pc := if isNew then .storeBucket bucket else .unlock true

/-- One step of the call `i`; there is none while it waits for the mutex and after it has returned. -/
def step (B : Buffer σ) (hasher : Bytes → Nat) (sh : Shared N σ) (i : Nat) (r : Request) : Pc → Option (Shared N σ × Pc)
  | .called =>
    match r with
    | .get key => some (sh, sh.loadHead hasher key none)
    | .put _ _ => if sh.writeMutex = none then some ({ sh with writeMutex := some i }, .locked) else none
  | .locked =>
    match B.alloc (r.key.length + 1 + r.value.length + 1) sh.buffer with
    | (none, s) => some ({ sh with buffer := s }, .unlock false)
    | (some block, s) => some ({ sh with buffer := s }, .findHead (some block))
  | .findHead block => some (sh, sh.loadHead hasher r.key block)
  | .findLoad block bucket => do
    let control ← sh.loadPointer bucket
    return (sh.acquire control, .findCompare block bucket control)
  | .findCompare block bucket control => do
    return (sh, .findDrop block bucket control (r.key = (← sh.keyString B control)))
  | .findDrop block bucket control equal =>
    some (sh.release B control, if equal then .found block (some bucket) else .findNext block bucket)
  | .findNext block bucket => do
    match (← sh.bucketStorage[bucket]?).nextBucket with
    | none => return (sh, .found block none)
    | some next => return (sh, .findLoad block next)
  | .found none none => some (sh, .returned (.value []))
  | .found none (some bucket) => do
    let control ← sh.loadPointer bucket
    return (sh.acquire control, .readValue control)
  | .readValue control => do
    return (sh, .dropValue control (← sh.valueString B control))
  | .dropValue control value => some (sh.release B control, .returned (.value value))
  | .found (some block) none =>
    some ({ sh with bucketStorage := sh.bucketStorage ++ [⟨none, none⟩] }, .copyKey block sh.bucketStorage.length true)
  | .found (some block) (some bucket) => some (sh, .copyKey block bucket false)
  | .copyKey block bucket isNew =>
    some ({ sh with buffer := ConcurrentHashTable.copyKey B block r.key sh.buffer }, .copyValue block bucket isNew)
  | .copyValue block bucket isNew => do
    let s ← ConcurrentHashTable.copyValue B block r.value sh.buffer
    return ({ sh with buffer := s }, .setPointer block bucket isNew)
  | .setPointer block bucket isNew =>
    let log := if isNew then sh.log else sh.log ++ [⟨some i, r.key, r.value⟩]
    some ({ sh.exchange B r block bucket with log := log },
      match sh.loadPointer bucket with
      | none => afterSet bucket isNew
      | some old => .dropOld old bucket isNew)
  | .dropOld control bucket isNew => some (sh.release B control, afterSet bucket isNew)
  | .storeBucket bucket =>
    some ({ sh.link hasher r.key bucket with log := sh.log ++ [⟨some i, r.key, r.value⟩] }, .unlock true)
  | .unlock ok => some ({ sh with writeMutex := none }, .returned (.ok ok))
  | .returned _ => none

end Shared

/-! ### Runs -/

variable [NeZero N]

namespace State

/-- A call is made. -/
def call (s : State N σ) (r : Request) : State N σ := { s with threads := s.threads ++ [⟨r, .called⟩] }

/-- The call `i` makes a step. -/
def step (B : Buffer σ) (hasher : Bytes → Nat) (s : State N σ) (i : Nat) : Option (State N σ) := do
  let th ← s.threads[i]?
  let (sh, pc) ← s.shared.step B hasher i th.request th.pc
  return ⟨sh, s.threads.set i { th with pc := pc }⟩

/-- The record of a used block when the file is opened. -/
def recordIn (B : Buffer σ) (s : σ) (b : Payload) : Record :=
  let key := (string B s b.data).getD []
  ⟨b.data, b.size, key, (string B s (b.data + key.length + 1)).getD []⟩

/-- The process has opened the file, and no call is made yet. -/
def opened (B : Buffer σ) (hasher : Bytes → Nat) (s : σ) : Option (State N σ) :=
  (ConcurrentHashTable.load B hasher s).map fun t =>
    let records := (B.usedBlocks s).map (recordIn B s)
    { shared :=
        { buffer := t.buffer
          bucketStorage := t.bucketStorage.mapIdx fun j b => { b with keyValueData := some (records.length - 1 - j) }
          hashTable := t.hashTable
          controls := records.reverse.map fun r => ⟨r, 1⟩
          writeMutex := none
          log := records.map fun r => ⟨none, r.key, r.value⟩ }
      threads := [] }

end State

/-- The state after a schedule, whose entries are the calls that are made and the numbers of the calls that make a step. -/
def State.run (B : Buffer σ) (hasher : Bytes → Nat) (s : State N σ) : List (Request ⊕ Nat) → Option (State N σ)
  | [] => some s
  | .inl r :: l => (s.call r).run B hasher l
  | .inr i :: l => (s.step B hasher i).bind fun s' => s'.run B hasher l

/-- A step of the store: a call is made, or a call makes its next step. -/
inductive Step (B : Buffer σ) (hasher : Bytes → Nat) (s : State N σ) : State N σ → Prop
  | call (r : Request) (h : r.NulFree) : Step B hasher s (s.call r)
  | step (i : Nat) {s' : State N σ} (h : s.step B hasher i = some s') : Step B hasher s s'

/-- The states that are reached from `s`, in any order of the steps. -/
def Reaches (B : Buffer σ) (hasher : Bytes → Nat) (s : State N σ) : State N σ → Prop :=
  Relation.ReflTransGen (Step B hasher) s

/-- The first `L` steps of a run from `s`. -/
structure Run (B : Buffer σ) (hasher : Bytes → Nat) (s : State N σ) (states : Nat → State N σ) (L : Nat) : Prop where
  start : states 0 = s
  step : ∀ n < L, Step B hasher (states n) (states (n + 1))

theorem Run.take {B : Buffer σ} {hasher : Bytes → Nat} {s : State N σ} {states : Nat → State N σ} {L n : Nat}
    (h : Run B hasher s states L) (hn : n ≤ L) : Run B hasher s states n :=
  ⟨h.start, fun m hm => h.step m (by omega)⟩

theorem Run.reaches {B : Buffer σ} {hasher : Bytes → Nat} {s : State N σ} {states : Nat → State N σ} {L : Nat}
    (h : Run B hasher s states L) : Reaches B hasher s (states L) := by
  induction L with
  | zero =>
    rw [h.start]
    exact Relation.ReflTransGen.refl
  | succ n ih => exact (ih (h.take (Nat.le_succ n))).tail (h.step n (Nat.lt_succ_self n))

/-- A run goes on from the state after its first step. -/
theorem Run.cons {B : Buffer σ} {hasher : Bytes → Nat} {s s' : State N σ} {states : Nat → State N σ} {L : Nat}
    (hs : Step B hasher s s') (h : Run B hasher s' states L) :
    Run B hasher s (fun n => n.casesOn s states) (L + 1) := by
  refine ⟨rfl, fun n hn => ?_⟩
  cases n with
  | zero =>
    show Step B hasher s (states 0)
    rw [h.start]
    exact hs
  | succ n => exact h.step n (by omega)

/-- A schedule is a run. -/
theorem exists_run {B : Buffer σ} {hasher : Bytes → Nat} {s s' : State N σ} {l : List (Request ⊕ Nat)}
    (h : s.run B hasher l = some s') (hl : ∀ r ∈ l.filterMap Sum.getLeft?, r.NulFree) :
    ∃ states, Run B hasher s states l.length ∧ states l.length = s' := by
  induction l generalizing s with
  | nil => exact ⟨fun _ => s, ⟨rfl, fun n hn => absurd hn (Nat.not_lt_zero n)⟩, Option.some.inj h⟩
  | cons a l ih =>
    cases a with
    | inl r =>
      obtain ⟨states, hrun, hlast⟩ := ih h fun r hr => hl r (List.mem_cons_of_mem _ hr)
      exact ⟨_, hrun.cons (Step.call r (hl r (List.mem_cons_self ..))), hlast⟩
    | inr i =>
      obtain ⟨s₁, h₁, h⟩ := Option.bind_eq_some_iff.1 h
      obtain ⟨states, hrun, hlast⟩ := ih h hl
      exact ⟨_, hrun.cons (Step.step i h₁), hlast⟩

end KeyValueStore
