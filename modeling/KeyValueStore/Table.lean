import KeyValueStore.Entries
import KeyValueStore.Records
import Mathlib.Data.List.Nodup
import Mathlib.Data.List.Perm.Basic

/-!
# The table and its file

A table at rest is described by the records of its buckets, each with the place where its bucket is stored, in the order
in which the buckets were made, and by the records of the used list, the same ones in another order (`Holds`).  Keys and
values are arbitrary byte strings here: a record holds them up to their first zero byte.  `current` is the value that a
lookup finds; `Holds.get`, `Holds.put` and `load_holds` give the operations in terms of it.
-/

namespace KeyValueStore

open ByteMemory ConcurrentHashTable

variable {N : Nat}

def entry (x : Record × Fin N) : Entry N := ⟨x.1.data, x.1.key, some x.1.value, x.2⟩

/-- The value of the last bucket at the place `i` with the given key, the empty string if there is none. -/
def current (xs : List (Record × Fin N)) (i : Fin N) (key : Bytes) : Bytes :=
  ((xs.filter fun x => x.2 = i ∧ x.1.key = key).getLast?).elim [] fun x => x.1.value

theorem lookup_entry {xs : List (Record × Fin N)} {i : Fin N} {key : Bytes} {j : Nat}
    (h : lookup (xs.map entry) i key = some j) : ∃ x, xs[j]? = some x ∧ x.2 = i ∧ x.1.key = key := by
  obtain ⟨e, he, hi, hk⟩ := lookup_eq_some h
  rw [List.getElem?_map] at he
  obtain ⟨x, hx, rfl⟩ := Option.map_eq_some_iff.1 he
  exact ⟨x, hx, hi, hk⟩

theorem lookup_entry_none {xs : List (Record × Fin N)} {i : Fin N} {key : Bytes} :
    lookup (xs.map entry) i key = none ↔ ∀ x ∈ xs, x.2 = i → x.1.key ≠ key := by
  rw [lookup_eq_none, List.forall_mem_map]
  rfl

theorem found_entry (xs : List (Record × Fin N)) (i : Fin N) (key : Bytes) :
    (found (xs.map entry) i key).elim (some []) Entry.value = some (current xs i key) := by
  rw [found_eq_getLast?, List.filter_map, List.getLast?_map, current]
  change ((xs.filter fun x => x.2 = i ∧ x.1.key = key).getLast?.map entry).elim (some []) Entry.value = _
  cases (xs.filter fun x => x.2 = i ∧ x.1.key = key).getLast? <;> rfl

/-- The value is read at the bucket that the lookup finds. -/
theorem current_eq_lookup (xs : List (Record × Fin N)) (i : Fin N) (key : Bytes) :
    current xs i key = ((lookup (xs.map entry) i key).bind fun j => xs[j]?).elim [] fun x => x.1.value := by
  have h := (found_entry xs i key).symm
  rw [found] at h
  cases hl : lookup (xs.map entry) i key with
  | none => simpa [hl] using h
  | some j =>
    obtain ⟨x, hx, -, -⟩ := lookup_entry hl
    simpa [hl, hx, entry] using h

theorem current_concat (xs : List (Record × Fin N)) (x : Record × Fin N) (i : Fin N) (key : Bytes) :
    current (xs ++ [x]) i key = if x.2 = i ∧ x.1.key = key then x.1.value else current xs i key := by
  rw [current, List.filter_append, List.filter_singleton]
  by_cases hx : x.2 = i ∧ x.1.key = key
  · rw [if_pos hx, decide_eq_true hx]
    simp
  · rw [if_neg hx, decide_eq_false hx, cond_false, List.append_nil, current]

theorem current_set {xs : List (Record × Fin N)} {i : Fin N} {key : Bytes} {j : Nat} {x : Record × Fin N}
    (hl : lookup (xs.map entry) i key = some j) (hi : x.2 = i) (hk : x.1.key = key) (i' : Fin N) (key' : Bytes) :
    current (xs.set j x) i' key' = if i = i' ∧ key = key' then x.1.value else current xs i' key' := by
  obtain ⟨y, hy, hyi, hyk⟩ := lookup_entry hl
  have hset : ∀ i key, lookup ((xs.map entry).set j (entry x)) i key = lookup (xs.map entry) i key :=
    lookup_set (e := entry y) (by simp [hy]) (hi.trans hyi.symm) (hk.trans hyk.symm)
  rw [current_eq_lookup, List.map_set, hset]
  by_cases he : i = i' ∧ key = key'
  · obtain ⟨rfl, rfl⟩ := he
    rw [if_pos ⟨rfl, rfl⟩, hl, Option.bind_some, List.getElem?_set_self (List.getElem?_eq_some_iff.1 hy).1]
    rfl
  · rw [if_neg he, current_eq_lookup]
    cases hl' : lookup (xs.map entry) i' key' with
    | none => rfl
    | some l =>
      obtain ⟨z, hz, hzi, hzk⟩ := lookup_entry hl'
      have hne : j ≠ l := by
        rintro rfl
        obtain rfl : y = z := Option.some.inj (hy.symm.trans hz)
        exact he ⟨hyi.symm.trans hzi, hyk.symm.trans hzk⟩
      rw [Option.bind_some, Option.bind_some, List.getElem?_set_ne hne]

variable {σ : Type} {B : Buffer σ} {Inv : σ → Prop}

/-- The table has a bucket for each record of the file, and no others. -/
structure Holds (B : Buffer σ) (t : ConcurrentHashTable N σ) (xs : List (Record × Fin N)) (rs : List Record) : Prop where
  represents : Represents B t (xs.map entry)
  file : FileHolds B t.buffer (rs.map Record.block) rs
  perm : (xs.map Prod.fst).Perm rs

variable {t : ConcurrentHashTable N σ} {xs : List (Record × Fin N)} {rs : List Record} {s : σ} {bs : List Payload}

theorem FileHolds.reads (h : FileHolds B s bs rs) (hxs : ∀ x ∈ xs, x.1 ∈ rs) :
    ∀ e ∈ xs.map entry, e.ReadsIn B s := by
  intro e he
  obtain ⟨x, hx, rfl⟩ := List.mem_map.1 he
  exact ⟨h.string_key (hxs x hx), h.string_value (hxs x hx)⟩

theorem Holds.mem (h : Holds B t xs rs) {x : Record × Fin N} (hx : x ∈ xs) : x.1 ∈ rs :=
  h.perm.mem_iff.1 (List.mem_map_of_mem hx)

/-- The lists of an empty table. -/
theorem holds_empty (hs : B.usedBlocks s = []) : Holds (N := N) B ⟨s, [], fun _ => none⟩ [] [] :=
  ⟨⟨rfl, fun _ => rfl, by simp⟩, fileHolds_empty hs, List.Perm.refl _⟩

/-- The file may change as long as the records stay. -/
theorem Holds.buffer (h : Holds B t xs rs) (hf : FileHolds B s (rs.map Record.block) rs) :
    Holds B { t with buffer := s } xs rs :=
  ⟨h.represents.buffer (hf.reads fun _ hx => h.mem hx), hf, h.perm⟩

/-- The copies into a new block make it a record. -/
theorem FileHolds.copy (hB : B.Lawful Inv) (hi : Inv s) {b : Payload} (h : FileHolds B s (b :: bs) rs)
    (hrs : ∀ r ∈ rs, r.block ≠ b) {key value : Bytes} (hfit : key.length + 1 + value.length + 1 ≤ b.size) :
    ∃ s', ConcurrentHashTable.copyValue B b.data value (ConcurrentHashTable.copyKey B b.data key s) = some s' ∧ Inv s' ∧
      FileHolds B s' (b :: bs) (⟨b.data, b.size, cut key, cut value⟩ :: rs) := by
  obtain ⟨hi₁, h₁, -, hat⟩ := h.copyKey hB hi (List.mem_cons_self ..) hrs (show key.length + 1 ≤ b.size by omega)
  have hcut := length_cut_le key
  exact h₁.copyValue hB hi₁ (List.mem_cons_self ..) hrs hat (by omega)

/-- No record is in a block that `alloc` returned. -/
theorem FileHolds.block_ne {p size n : Nat} (hn : 0 < n) (hsize : n ≤ size) (h : FileHolds B s bs rs)
    (hap : ∀ b ∈ bs, b.Apart ⟨p, size⟩) : ∀ r ∈ rs, r.block ≠ ⟨p, size⟩ := by
  intro r hr e
  have := hap _ (h.block r hr)
  rw [e] at this
  simp only [Payload.Apart] at this
  omega

/-- The publication of a record of a new key: a bucket is made and stored in front of its chain. -/
private theorem Holds.publish_new (h : Holds B t xs rs) {r : Record}
    (hf : FileHolds B s ((r :: rs).map Record.block) (r :: rs)) (i : Fin N) :
    Holds B (storeBucket (setPointer B { (getNewBucket t).2 with buffer := s } (getNewBucket t).1 r.data)
      (getNewBucket t).1 i) (xs ++ [(r, i)]) (r :: rs) := by
  have hmem : ∀ x ∈ xs ++ [(r, i)], x.1 ∈ r :: rs := by
    intro x hx
    rcases List.mem_append.1 hx with hx | hx
    · exact List.mem_cons_of_mem _ (h.mem hx)
    · rw [List.mem_singleton.1 hx]
      exact List.mem_cons_self ..
  have hreads := hf.reads hmem
  rw [List.map_append] at hreads
  rw [newBucket_eq]
  have hrep := h.represents.concat (e := entry (r, i)) (s := s) hreads
  refine ⟨?_, hf, ?_⟩
  · rw [List.map_append]
    exact hrep
  · rw [List.map_append]
    exact List.perm_append_comm.trans (h.perm.cons r)

/-- The publication of a record of an old key: the pointer is replaced and the old record freed. -/
private theorem Holds.publish_old (hB : B.Lawful Inv) (hi : Inv s) (h : Holds B t xs rs) {r : Record} {j : Nat}
    {x : Record × Fin N} (hx : xs[j]? = some x) (hf : FileHolds B s ((r :: rs).map Record.block) (r :: rs)) :
    Inv (setPointer B { t with buffer := s } j r.data).buffer ∧
      Holds B (setPointer B { t with buffer := s } j r.data) (xs.set j (r, x.2)) (r :: rs.erase x.1) := by
  have hmem := List.mem_of_getElem? hx
  have hxr := h.mem hmem
  obtain ⟨b, hb, hd⟩ := h.represents.bucket (e := entry x) (j := j) (by simp [hx])
  have hd' : b.keyValueData = some x.1.data := hd
  have hne : r ≠ x.1 := by
    rintro rfl
    exact (List.nodup_cons.1 (List.Nodup.of_map _ (hf.nodup_data (l := [])))).1 hxr
  obtain ⟨hi', hf'⟩ := hf.free_only hB hi (List.mem_cons_of_mem r hxr)
  rw [List.erase_cons_tail (by simpa using hne)] at hf'
  have hxs : ((xs.set j (r, x.2)).map Prod.fst).Perm (r :: rs.erase x.1) := by
    rw [List.map_set]
    have hj : (xs.map Prod.fst)[j]? = some x.1 := by simp [hx]
    obtain ⟨hlt, hget⟩ := List.getElem?_eq_some_iff.1 hj
    have hperm := (List.set_perm_cons_eraseIdx hlt r).trans
      ((List.Perm.refl _).cons r)
    refine hperm.trans (List.Perm.cons r ?_)
    have herase : (x.1 :: (xs.map Prod.fst).eraseIdx j).Perm rs := by
      rw [← hget]
      exact (List.getElem_cons_eraseIdx_perm hlt).trans h.perm
    exact (List.cons_perm_iff_perm_erase.1 herase).2
  have hset : setPointer B { t with buffer := s } j r.data =
      ⟨B.free x.1.data s, t.bucketStorage.modify j fun b => { b with keyValueData := some r.data }, t.hashTable⟩ := by
    simp [setPointer, hb, hd']
  rw [hset]
  have hreads : ∀ e ∈ (xs.set j (r, x.2)).map entry, e.ReadsIn B (B.free x.1.data s) :=
    hf'.reads fun y hy => hxs.mem_iff.1 (List.mem_map_of_mem hy)
  rw [List.map_set] at hreads
  have hrep := h.represents.set (j := j) (e := entry x) (by simp [hx])
    (show (entry (r, x.2)).index = (entry x).index from rfl) hreads
  refine ⟨hi', ?_, hf', hxs⟩
  rw [List.map_set]
  exact hrep

/-- The key at the record of a bucket. -/
def bucketKey (B : Buffer σ) (t : ConcurrentHashTable N σ) (j : Nat) : Option Bytes := do
  string B t.buffer (← (← t.bucketStorage[j]?).keyValueData)

theorem Holds.bucketKey_eq (h : Holds B t xs rs) {j : Nat} {x : Record × Fin N} (hx : xs[j]? = some x) :
    bucketKey B t j = some x.1.key := by
  obtain ⟨b, hb, hd⟩ := h.represents.bucket (j := j) (e := entry x) (by simp [hx])
  have hread := h.file.string_key (h.mem (List.mem_of_getElem? hx))
  have hd' : b.keyValueData = some x.1.data := hd
  simp [bucketKey, hb, hd', hread]

variable [NeZero N] (hasher : Bytes → Nat)

theorem Holds.find (h : Holds B t xs rs) (key : Bytes) :
    findBucketWithKey B hasher t key =
      some (lookup (xs.map entry) (hashTableIndex hasher key) key, hashTableIndex hasher key) :=
  h.represents.find_eq key

theorem Holds.get (h : Holds B t xs rs) (key : Bytes) :
    ConcurrentHashTable.get B hasher t key = some (current xs (hashTableIndex hasher key) key) := by
  rw [h.represents.get_eq key, found_entry]

/-- What `put` does to a table at rest. -/
theorem Holds.put (hB : B.Lawful Inv) (hi : Inv t.buffer) (h : Holds B t xs rs) (key value : Bytes) :
    (∃ t', (B.alloc (key.length + 1 + value.length + 1) t.buffer).1 = none ∧
      put B hasher t key value = some (false, t') ∧ Inv t'.buffer ∧ Holds B t' xs rs) ∨
    ∃ t' r, (B.alloc (key.length + 1 + value.length + 1) t.buffer).1 = some r.data ∧
      put B hasher t key value = some (true, t') ∧ Inv t'.buffer ∧ r.key = cut key ∧ r.value = cut value ∧
      ((lookup (xs.map entry) (hashTableIndex hasher key) key = none ∧
          Holds B t' (xs ++ [(r, hashTableIndex hasher key)]) (r :: rs)) ∨
        ∃ j x, lookup (xs.map entry) (hashTableIndex hasher key) key = some j ∧ xs[j]? = some x ∧
          Holds B t' (xs.set j (r, hashTableIndex hasher key)) (r :: rs.erase x.1)) := by
  rcases ha : B.alloc (key.length + 1 + value.length + 1) t.buffer with ⟨_ | p, s⟩
  · left
    obtain ⟨hi', hf⟩ := h.file.alloc_none hB hi ha
    refine ⟨{ t with buffer := s }, rfl, ?_, hi', h.buffer hf⟩
    simp only [ConcurrentHashTable.put, ha]
  · right
    obtain ⟨hi₁, size, hn, hf₁, hap⟩ := h.file.alloc_some hB hi ha
    have hne := h.file.block_ne (by omega) hn hap
    obtain ⟨s', hcopy, hi₂, hf₂⟩ := hf₁.copy hB hi₁ hne hn
    have hfind : findBucketWithKey B hasher { t with buffer := s } key =
        some (lookup (xs.map entry) (hashTableIndex hasher key) key, hashTableIndex hasher key) :=
      (h.represents.buffer (hf₁.reads fun _ hx => h.mem hx)).find_eq key
    cases hl : lookup (xs.map entry) (hashTableIndex hasher key) key with
    | none =>
      rw [hl] at hfind
      have hnew := h.publish_new (r := ⟨p, size, cut key, cut value⟩) hf₂ (hashTableIndex hasher key)
      refine ⟨_, _, rfl, ?_, ?_, rfl, rfl, Or.inl ⟨rfl, hnew⟩⟩
      · simp only [ConcurrentHashTable.put, ha, hfind, Option.bind_eq_bind, Option.bind_some]
        simp only [getNewBucket, hcopy, Option.bind_some]
        rfl
      · rw [newBucket_eq]
        exact hi₂
    | some j =>
      rw [hl] at hfind
      obtain ⟨x, hx, hxi, -⟩ := lookup_entry hl
      obtain ⟨hi₃, hold⟩ := h.publish_old hB hi₂ (r := ⟨p, size, cut key, cut value⟩) hx hf₂
      rw [hxi] at hold
      refine ⟨_, _, rfl, ?_, hi₃, rfl, rfl, Or.inr ⟨j, x, rfl, hx, hold⟩⟩
      simp only [ConcurrentHashTable.put, ha, hfind, Option.bind_eq_bind, Option.bind_some, hcopy]
      rfl

/-- What the constructor makes of a file of records. -/
theorem load_holds (hf : FileHolds B s (rs.map Record.block) rs) :
    ∃ t, ConcurrentHashTable.load (N := N) B hasher s = some t ∧ t.buffer = s ∧
      Holds B t (rs.map fun r => (r, hashTableIndex hasher r.key)) rs := by
  have hes : (B.usedBlocks s).map (blockEntry (N := N) B hasher s) =
      ((rs.map fun r => (r, hashTableIndex hasher r.key)).map entry).map some := by
    rw [hf.used, List.map_map, List.map_map, List.map_map]
    apply List.map_congr_left
    intro r hr
    exact blockEntry_eq_some.2 ⟨rfl, rfl, hf.string_key hr, hf.string_value hr⟩
  obtain ⟨t, ht, hs, hrep⟩ := load_eq hes
  refine ⟨t, ht, hs, hrep, hs ▸ hf, ?_⟩
  rw [List.map_map]
  exact List.Perm.of_eq (List.map_id rs)

end KeyValueStore
