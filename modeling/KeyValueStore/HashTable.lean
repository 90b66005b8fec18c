import KeyValueStore.Contract
import Mathlib.Logic.Function.Basic
import Mathlib.Data.Fin.Basic

/-!
# The hash table

`ConcurrentHashTable` as the code computes it when its calls run one after another.  A bucket is named by its position in
`m_bucket_storage`, and a `shared_ptr` is the address of its record, which is freed when the pointer is replaced, since no
other copy exists then.  A computation fails (`none`) where the code does not return: a null bucket or record is
dereferenced, a string has no terminating zero byte in front of the end of the mapping, or a chain is walked over more
buckets than there are, which only a cyclic chain gives.

The hash function belongs to the process, and the table size `N` is a parameter.
-/

namespace KeyValueStore

open ByteMemory

/-- `std::string`. -/
abbrev Bytes := List UInt8

structure Bucket where
  nextBucket : Option Nat
  keyValueData : Option Nat
  deriving DecidableEq, Repr

/-- `m_buffer`, `m_bucket_storage` and `m_hash_table`. -/
structure ConcurrentHashTable (N : Nat) (σ : Type) where
  buffer : σ
  bucketStorage : List Bucket
  hashTable : Fin N → Option Nat

/-- `hash % m_hash_table.size()`. -/
def hashTableIndex {N : Nat} [NeZero N] (hasher : Bytes → Nat) (key : Bytes) : Fin N := Fin.ofNat N (hasher key)

namespace ConcurrentHashTable

variable {N : Nat} [NeZero N] {σ : Type} (B : Buffer σ) (hasher : Bytes → Nat) (t : ConcurrentHashTable N σ)

/-- The C string at an address of the mapped file. -/
def string (s : σ) (p : Nat) : Option Bytes := cString (B.base s) B.dbSize p

/-- `KeyValuePair::get`: the pointers to the key and to the value. -/
def getPair (s : σ) (bucket : Bucket) : Option (Nat × Nat) := do
  let key ← bucket.keyValueData
  return (key, key + (← string B s key).length + 1)

/-- The loop of `find_bucket_with_key`. -/
def findFrom (key : Bytes) : Nat → Nat → Option (Option Nat)
  | 0, _ => none
  | fuel + 1, currBucket => do
    let bucket ← t.bucketStorage[currBucket]?
    if key = (← string B t.buffer (← getPair B t.buffer bucket).1) then
      return some currBucket
    match bucket.nextBucket with
    | none => return none
    | some nextBucket => findFrom key fuel nextBucket

def findBucketWithKey (key : Bytes) : Option (Option Nat × Fin N) :=
  let hashTableIndex := hashTableIndex hasher key
  match t.hashTable hashTableIndex with
  | none => some (none, hashTableIndex)
  | some currBucket => (findFrom B t key t.bucketStorage.length currBucket).map (·, hashTableIndex)

def get (key : Bytes) : Option Bytes := do
  match (← findBucketWithKey B hasher t key).1 with
  | none => return []
  | some i =>
    let bucket ← t.bucketStorage[i]?
    string B t.buffer (← getPair B t.buffer bucket).2

def getNewBucket : Nat × ConcurrentHashTable N σ :=
  (t.bucketStorage.length, { t with bucketStorage := t.bucketStorage ++ [⟨none, none⟩] })

def storeBucket (bucket : Nat) (index : Fin N) : ConcurrentHashTable N σ :=
  { t with
    bucketStorage := t.bucketStorage.modify bucket fun b => { b with nextBucket := t.hashTable index }
    hashTable := Function.update t.hashTable index (some bucket) }

/-- `strncpy(key_data, key.c_str(), key.length() + 1)`. -/
def copyKey (keyValueData : Nat) (key : Bytes) (s : σ) : σ :=
  B.write keyValueData (strncpyBytes key (key.length + 1)) s

/-- `strncpy(value_data, value.c_str(), value.length() + 1)` behind the first zero byte of the key. -/
def copyValue (keyValueData : Nat) (value : Bytes) (s : σ) : Option σ := do
  let keyData ← string B s keyValueData
  return B.write (keyValueData + keyData.length + 1) (strncpyBytes value (value.length + 1)) s

/-- `KeyValuePair::set` without a copy: the record pointer is replaced and the old record, if any, freed. -/
def setPointer (bucket keyValueData : Nat) : ConcurrentHashTable N σ :=
  let old := t.bucketStorage[bucket]?.bind Bucket.keyValueData
  let storage := t.bucketStorage.modify bucket fun b => { b with keyValueData := some keyValueData }
  match old with
  | none => { t with bucketStorage := storage }
  | some p => { t with bucketStorage := storage, buffer := B.free p t.buffer }

/-- `put`, which returns `false` when `alloc` returns `nullptr`. -/
def put (key value : Bytes) : Option (Bool × ConcurrentHashTable N σ) :=
  match B.alloc (key.length + 1 + value.length + 1) t.buffer with
  | (none, s) => some (false, { t with buffer := s })
  | (some dataBuffer, s) => do
    let t := { t with buffer := s }
    let (result, index) ← findBucketWithKey B hasher t key
    let (bucket, t) := match result with
      | none => getNewBucket t
      | some bucket => (bucket, t)
    let s ← copyValue B dataBuffer value (copyKey B dataBuffer key t.buffer)
    let t := setPointer B { t with buffer := s } bucket dataBuffer
    match result with
    | none => return (true, storeBucket t bucket index)
    | some _ => return (true, t)

/-- One turn of the loop of the constructor. -/
def loadBlock (t : ConcurrentHashTable N σ) (b : Payload) : Option (ConcurrentHashTable N σ) := do
  let (bucket, t) := getNewBucket t
  let t := setPointer B t bucket b.data
  let hash ← string B t.buffer b.data
  return storeBucket t bucket (hashTableIndex hasher hash)

/-- The constructor, on an existing file. -/
def load (s : σ) : Option (ConcurrentHashTable N σ) :=
  (B.usedBlocks s).foldlM (loadBlock B hasher) ⟨s, [], fun _ => none⟩

/-- The pairs from `begin()` to `end()`. -/
def pairs : Option (List (Bytes × Bytes)) :=
  t.bucketStorage.mapM fun bucket => do
    let (key, value) ← getPair B t.buffer bucket
    return (← string B t.buffer key, ← string B t.buffer value)

end ConcurrentHashTable

end KeyValueStore
