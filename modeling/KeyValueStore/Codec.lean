import KeyValueStore.FileBuffer
import KeyValueStore.Entries

/-!
# The bytes of a record

The four-argument `KeyValuePair::set` copies the key, looks for its first zero byte and copies the value behind it.  A key
that holds a zero byte moves the value to the front, over the padding of the key.  Whatever the block held before, the
stores stay inside the bytes that `put` requests, and what is read there afterwards, in any file with these bytes, is the
key and the value up to their first zero bytes.
-/

namespace KeyValueStore

open ByteMemory ConcurrentHashTable

/-- The size of the block that `put` requests. -/
def recordSize (key value : Bytes) : Nat := key.length + 1 + value.length + 1

/-- `const_iterator::operator*`: the pair of a bucket. -/
def readPair {σ : Type} (B : Buffer σ) (s : σ) (bucket : Bucket) : Option (Bytes × Bytes) := do
  let (key, value) ← getPair B s bucket
  return (← string B s key, ← string B s value)

/-- `t` is `s` after two stores, both inside the block. -/
def TwoStores (b : Payload) (s t : FileBackedBuffer) : Prop :=
  ∃ (a a' : Nat) (bs bs' : List UInt8),
    t = { s with base := setBytes (setBytes s.base a bs) a' bs' } ∧
      (b.data ≤ a ∧ a + bs.length ≤ b.data + b.size) ∧ (b.data ≤ a' ∧ a' + bs'.length ≤ b.data + b.size)

/-- The pair is read at `p` in front of `limit`: by an iterator, by a lookup that finds a bucket with this record, and
by the loop of the constructor, which makes such a bucket. -/
structure ReadsBack (limit : Nat) (s : FileBackedBuffer) (p : Nat) (key value : Bytes) : Prop where
  pair : ∀ next, readPair (plainBuffer limit) s ⟨next, some p⟩ = some (key, value)
  get : ∀ (N : Nat) [NeZero N] (hasher : Bytes → Nat) (t : ConcurrentHashTable N FileBackedBuffer) (k : Bytes) (i : Nat)
    (index : Fin N), t.buffer = s → t.bucketStorage[i]?.bind Bucket.keyValueData = some p →
    findBucketWithKey (plainBuffer limit) hasher t k = some (some i, index) →
    k = key ∧ t.get (plainBuffer limit) hasher k = some value
  reload : ∀ (N : Nat) [NeZero N] (hasher : Bytes → Nat) (t : ConcurrentHashTable N FileBackedBuffer) (size : Nat),
    t.buffer = s →
    loadBlock (plainBuffer limit) hasher t ⟨p, size⟩ =
      some ⟨s, t.bucketStorage ++ [⟨t.hashTable (hashTableIndex hasher key), some p⟩],
        Function.update t.hashTable (hashTableIndex hasher key) (some t.bucketStorage.length)⟩

/-- The iteration of the table reads the pairs of its buckets. -/
theorem pairs_eq_mapM {N : Nat} {σ : Type} (B : Buffer σ) (t : ConcurrentHashTable N σ) :
    pairs B t = t.bucketStorage.mapM (readPair B t.buffer) :=
  rfl

variable {N : Nat} {σ : Type} {B : Buffer σ} {s : σ} {p : Nat} {key value : Bytes}

private theorem findFrom_key {t : ConcurrentHashTable N σ} {fuel j i : Nat}
    (h : findFrom B t key fuel j = some (some i)) :
    ∃ bucket, t.bucketStorage[i]? = some bucket ∧
      (getPair B t.buffer bucket).bind (fun kv => string B t.buffer kv.1) = some key := by
  induction fuel generalizing j with
  | zero => cases h
  | succ fuel ih =>
    simp only [findFrom, Option.bind_eq_bind, Option.bind_eq_some_iff] at h
    obtain ⟨bucket, hb, kv, hkv, k, hk, h⟩ := h
    split at h
    · rename_i hkey
      obtain rfl : j = i := by simpa using h
      refine ⟨bucket, hb, ?_⟩
      rw [hkv, Option.bind_some, hk, hkey]
    · cases hn : bucket.nextBucket with
      | none => simp [hn] at h
      | some next =>
        rw [hn] at h
        exact ih h

variable [NeZero N] {hasher : Bytes → Nat}

private theorem findBucketWithKey_key {t : ConcurrentHashTable N σ} {i : Nat} {index : Fin N}
    (h : findBucketWithKey B hasher t key = some (some i, index)) :
    ∃ bucket, t.bucketStorage[i]? = some bucket ∧
      (getPair B t.buffer bucket).bind (fun kv => string B t.buffer kv.1) = some key := by
  cases hx : t.hashTable (hashTableIndex hasher key) with
  | none => simp [findBucketWithKey, hx] at h
  | some j =>
    simp only [findBucketWithKey, hx] at h
    obtain ⟨r, hr, he⟩ := Option.map_eq_some_iff.1 h
    obtain rfl : r = some i := (Prod.mk.inj he).1
    exact findFrom_key hr

/-- Two strings, one behind the other and in front of the limit, are read back as a pair. -/
private theorem readsBack {limit : Nat} {s : FileBackedBuffer} (hkey : StringAt s.base p key)
    (hvalue : StringAt s.base (p + key.length + 1) value) (hfit : p + key.length + 1 + value.length < limit) :
    ReadsBack limit s p key value := by
  have hk : string (plainBuffer limit) s p = some key := cString_eq_some.2 ⟨hkey, by show _ < limit; omega⟩
  have hv : string (plainBuffer limit) s (p + key.length + 1) = some value := cString_eq_some.2 ⟨hvalue, hfit⟩
  have hpair : ∀ next, getPair (plainBuffer limit) s ⟨next, some p⟩ = some (p, p + key.length + 1) := by
    intro next
    simp [getPair, hk]
  refine ⟨fun next => ?_, ?_, ?_⟩
  · simp [readPair, hpair, hk, hv]
  · intro N _ hasher t k i index ht hi hfind
    obtain ⟨⟨next, data⟩, hb, hread⟩ := findBucketWithKey_key hfind
    rw [hb, Option.bind_some] at hi
    dsimp only at hi
    subst hi
    rw [ht, hpair, Option.bind_some, hk] at hread
    refine ⟨(Option.some.inj hread).symm, ?_⟩
    simp [ConcurrentHashTable.get, hfind, hb, ht, hpair, hv]
  · intro N _ hasher t size ht
    have hentry : blockEntry (N := N) (plainBuffer limit) hasher s ⟨p, size⟩ =
        some ⟨p, key, some value, hashTableIndex hasher key⟩ :=
      blockEntry_eq_some.2 ⟨rfl, rfl, hk, hv⟩
    rw [loadBlock_eq, ht, hentry, Option.map_some]

/-- `KeyValuePair::set` stores only into the bytes that `put` requests for the pair, whatever they held before.  Every
file with these bytes, even one that ends behind them, gives back the key and the value up to their first zero bytes; this
is the pair that was set exactly when neither string has a zero byte. -/
theorem set_reads_back (dbSize : Nat) (s : FileBackedBuffer) (p : Nat) (key value : Bytes)
    (hfit : p + recordSize key value ≤ dbSize) :
    ∃ s', copyValue (plainBuffer dbSize) p value (copyKey (plainBuffer dbSize) p key s) = some s' ∧
      TwoStores ⟨p, recordSize key value⟩ s s' ∧
      ∀ (limit : Nat) (t : FileBackedBuffer), p + recordSize key value ≤ limit →
        SameBytes [⟨p, recordSize key value⟩] s'.base t.base →
        ReadsBack limit t p (cut key) (cut value) ∧
          ∀ next, readPair (plainBuffer limit) t ⟨next, some p⟩ = some (key, value) ↔ 0 ∉ key ∧ 0 ∉ value := by
  have hck := length_cut_le key
  have hcv := length_cut_le value
  have hsize : recordSize key value = key.length + 1 + value.length + 1 := rfl
  -- the key, and the padding that the copy puts behind it
  set m₁ := setBytes s.base p (strncpyBytes key (key.length + 1)) with hm₁
  have hkey : StringAt m₁ p (cut key) := by
    rw [hm₁, strncpyBytes_succ]
    exact stringAt_setBytes _ _ (zero_notMem_cut key)
  have hread : string (plainBuffer dbSize) (copyKey (plainBuffer dbSize) p key s) p = some (cut key) :=
    cString_eq_some.2 ⟨hkey, by show _ < dbSize; omega⟩
  -- the value, right behind the first zero byte of the key
  set m₂ := setBytes m₁ (p + (cut key).length + 1) (strncpyBytes value (value.length + 1)) with hm₂
  have hvalue : StringAt m₂ (p + (cut key).length + 1) (cut value) := by
    rw [hm₂, strncpyBytes_succ]
    exact stringAt_setBytes _ _ (zero_notMem_cut value)
  have hkey₂ : StringAt m₂ p (cut key) := by
    apply hkey.congr
    intro x _ hx
    apply setBytes_outside
    omega
  refine ⟨{ s with base := m₂ }, ?_, ⟨p, p + (cut key).length + 1, _, _, rfl, ?_, ?_⟩, ?_⟩
  · rw [copyValue, hread]
    rfl
  · rw [length_strncpyBytes]
    exact ⟨Nat.le_refl p, by simp only [hsize]; omega⟩
  · rw [length_strncpyBytes]
    exact ⟨by simp only; omega, by simp only [hsize]; omega⟩
  · intro limit t hlimit hsame
    have hbytes : ∀ x, p ≤ x → x < p + recordSize key value → t.base x = m₂ x :=
      hsame _ (List.mem_singleton.2 rfl)
    have hback : ReadsBack limit t p (cut key) (cut value) := by
      apply readsBack
      · exact hkey₂.congr fun x h₁ h₂ => hbytes x h₁ (by omega)
      · exact hvalue.congr fun x h₁ h₂ => hbytes x (by omega) (by omega)
      · omega
    refine ⟨hback, fun next => ?_⟩
    rw [hback.pair next]
    constructor
    · intro h
      obtain ⟨hk, hv⟩ := Prod.mk.inj (Option.some.inj h)
      rw [← hk, ← hv]
      exact ⟨zero_notMem_cut key, zero_notMem_cut value⟩
    · rintro ⟨hk, hv⟩
      rw [cut_eq_self hk, cut_eq_self hv]

theorem set_reads_back_of_zero_in_key :
    ∃ s', copyValue (plainBuffer 220) 40 [98] (copyKey (plainBuffer 220) 40 [97, 0, 120] (newFile 220 (by decide))) =
        some s' ∧
      TwoStores ⟨40, recordSize [97, 0, 120] [98]⟩ (newFile 220 (by decide)) s' ∧
      ∀ (limit : Nat) (t : FileBackedBuffer), 40 + recordSize [97, 0, 120] [98] ≤ limit →
        SameBytes [⟨40, recordSize [97, 0, 120] [98]⟩] s'.base t.base →
        ReadsBack limit t 40 (cut [97, 0, 120]) (cut [98]) ∧
          ∀ next, readPair (plainBuffer limit) t ⟨next, some 40⟩ = some ([97, 0, 120], [98]) ↔
            0 ∉ ([97, 0, 120] : Bytes) ∧ 0 ∉ ([98] : Bytes) :=
  set_reads_back 220 (newFile 220 (by decide)) 40 [97, 0, 120] [98] (by decide)

end KeyValueStore
