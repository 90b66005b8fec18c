import KeyValueStore.HashTable
import KeyValueStore.SinglyLinked
import Mathlib.Data.List.Find
import Mathlib.Data.List.Induction

/-!
# The table as a list of entries

A table is described by one entry for each bucket, in the order in which the buckets were made: the address of its
record, the strings read there, and the place in the table where it was stored.  The chain of a place holds the buckets
stored there, the last one first (`chain`), so that a lookup finds the last entry with the key (`lookup`).  `Represents`
relates a table to its entries, and the operations of the table are given by what they do to the entries.
-/

namespace KeyValueStore

open ByteMemory SinglyLinked ConcurrentHashTable

/-- A bucket, with what is read at its record; the value is missing where it has no terminating zero byte. -/
structure Entry (N : Nat) where
  data : Nat
  key : Bytes
  value : Option Bytes
  index : Fin N
  deriving DecidableEq

/-- The positions of `i` in `xs`, the last one first. -/
def chain {N : Nat} (xs : List (Fin N)) (i : Fin N) : List Nat :=
  (List.range xs.length).reverse.filter fun j => xs[j]? = some i

/-- The last entry at the place `i` with the given key. -/
def lookup {N : Nat} (es : List (Entry N)) (i : Fin N) (key : Bytes) : Option Nat :=
  (List.range es.length).reverse.find? fun j => es[j]?.any fun e => e.index = i ∧ e.key = key

private theorem mapM_eq_some {α β : Type} {f : α → Option β} {l : List α} {l' : List β} :
    l.mapM f = some l' ↔ l.map f = l'.map some := by
  induction l generalizing l' with
  | nil => cases l' <;> simp
  | cons a l ih =>
    cases l' with
    | nil => simp [Option.bind_eq_some_iff]
    | cons b l' => simp [Option.bind_eq_some_iff, ih]

/-- The entry that a lookup finds. -/
def found {N : Nat} (es : List (Entry N)) (i : Fin N) (key : Bytes) : Option (Entry N) :=
  (lookup es i key).bind fun j => es[j]?

/-- The link of a bucket. -/
def nextOf (storage : List Bucket) (j : Nat) : Option Nat := storage[j]?.bind Bucket.nextBucket

section

variable {N : Nat}

theorem mem_chain {xs : List (Fin N)} {i : Fin N} {j : Nat} : j ∈ chain xs i ↔ xs[j]? = some i := by
  rw [chain, List.mem_filter, List.mem_reverse, List.mem_range]
  constructor
  · rintro ⟨-, h⟩
    simpa using h
  · intro h
    exact ⟨(List.getElem?_eq_some_iff.1 h).1, by simpa using h⟩

theorem chain_nodup (xs : List (Fin N)) (i : Fin N) : (chain xs i).Nodup :=
  (List.pairwise_reverse.2 (List.nodup_range.imp fun h => h.symm)).filter _

theorem chain_descending (xs : List (Fin N)) (i : Fin N) : (chain xs i).Pairwise (· > ·) :=
  (List.pairwise_reverse.2 List.pairwise_lt_range).filter _

private theorem length_chain_le (xs : List (Fin N)) (i : Fin N) : (chain xs i).length ≤ xs.length := by
  have := List.length_filter_le (fun j => decide (xs[j]? = some i)) (List.range xs.length).reverse
  simpa [chain] using this

private theorem chain_concat (xs : List (Fin N)) (x i : Fin N) :
    chain (xs ++ [x]) i = if x = i then xs.length :: chain xs i else chain xs i := by
  have hold : (List.range xs.length).reverse.filter (fun j => (xs ++ [x])[j]? = some i) = chain xs i := by
    apply List.filter_congr
    intro j hj
    rw [List.mem_reverse, List.mem_range] at hj
    rw [List.getElem?_append_left hj]
  rw [chain, List.length_append, List.length_singleton, List.range_succ, List.reverse_append, List.reverse_singleton,
    List.singleton_append, List.filter_cons, hold]
  by_cases hx : x = i <;> simp [hx]

theorem lookup_eq_find? (es : List (Entry N)) (i : Fin N) (key : Bytes) :
    lookup es i key = (chain (es.map Entry.index) i).find? fun j => es[j]?.any fun e => e.key = key := by
  rw [lookup, chain, List.length_map, List.find?_filter]
  refine List.find?_congr fun j _ => ?_
  cases h : es[j]? <;> simp [h]

private theorem lookup_concat (es : List (Entry N)) (e : Entry N) (i : Fin N) (key : Bytes) :
    lookup (es ++ [e]) i key = if e.index = i ∧ e.key = key then some es.length else lookup es i key := by
  have hold : (List.range es.length).reverse.find? (fun j => (es ++ [e])[j]?.any fun e => e.index = i ∧ e.key = key) =
      lookup es i key := by
    refine List.find?_congr fun j hj => ?_
    rw [List.mem_reverse, List.mem_range] at hj
    rw [List.getElem?_append_left hj]
  rw [lookup, List.length_append, List.length_singleton, List.range_succ, List.reverse_append, List.reverse_singleton,
    List.singleton_append, List.find?_cons, hold]
  by_cases he : e.index = i ∧ e.key = key
  · simp [he]
  · have hd : decide (e.index = i ∧ e.key = key) = false := decide_eq_false he
    simp only [List.getElem?_concat_length, Option.any_some, hd, if_neg he]

theorem lookup_eq_some {es : List (Entry N)} {i : Fin N} {key : Bytes} {j : Nat} (h : lookup es i key = some j) :
    ∃ e, es[j]? = some e ∧ e.index = i ∧ e.key = key := by
  have := List.find?_some h
  obtain ⟨e, he, hm⟩ := (Option.any_eq_true _ _).1 this
  exact ⟨e, he, of_decide_eq_true hm⟩

theorem lookup_eq_none {es : List (Entry N)} {i : Fin N} {key : Bytes} :
    lookup es i key = none ↔ ∀ e ∈ es, e.index = i → e.key ≠ key := by
  rw [lookup, List.find?_eq_none]
  constructor
  · intro h e he hi hk
    obtain ⟨j, hj, rfl⟩ := List.getElem_of_mem he
    apply h j (by simpa using hj)
    simp [List.getElem?_eq_getElem hj, hi, hk]
  · intro h j _ hm
    obtain ⟨e, he, hm⟩ := (Option.any_eq_true _ _).1 hm
    obtain ⟨hi, hk⟩ := of_decide_eq_true hm
    exact h e (List.mem_of_getElem? he) hi hk

/-- It is the last one of its place and key. -/
theorem found_eq_getLast? (es : List (Entry N)) (i : Fin N) (key : Bytes) :
    found es i key = (es.filter fun e => e.index = i ∧ e.key = key).getLast? := by
  induction es using List.reverseRecOn with
  | nil => rfl
  | append_singleton es e ih =>
    rw [found, lookup_concat, List.filter_append, List.filter_singleton]
    by_cases he : e.index = i ∧ e.key = key
    · rw [if_pos he, decide_eq_true he]
      simp
    · rw [if_neg he, decide_eq_false he, cond_false, List.append_nil, ← ih, found]
      cases hl : lookup es i key with
      | none => rfl
      | some j =>
        obtain ⟨e', he', -, -⟩ := lookup_eq_some hl
        rw [Option.bind_some, Option.bind_some, List.getElem?_append_left (List.getElem?_eq_some_iff.1 he').1]

/-- Replacing the record of an entry by one with the same key changes no lookup. -/
theorem lookup_set {es : List (Entry N)} {j : Nat} {e e' : Entry N} (he : es[j]? = some e) (hi : e'.index = e.index)
    (hk : e'.key = e.key) (i : Fin N) (key : Bytes) : lookup (es.set j e') i key = lookup es i key := by
  rw [lookup, lookup, List.length_set]
  refine List.find?_congr fun l _ => ?_
  by_cases hl : j = l
  · subst hl
    rw [List.getElem?_set_self (List.getElem?_eq_some_iff.1 he).1, he]
    simp [hi, hk]
  · rw [List.getElem?_set_ne hl]

end

variable {N : Nat} {σ : Type}

/-- The strings of the entry are read at its record. -/
def Entry.ReadsIn (B : Buffer σ) (s : σ) (e : Entry N) : Prop :=
  string B s e.data = some e.key ∧ string B s (e.data + e.key.length + 1) = e.value

/-- The table has the buckets `es`, linked in their chains, and reads the strings of `es` at their records. -/
structure Represents (B : Buffer σ) (t : ConcurrentHashTable N σ) (es : List (Entry N)) : Prop where
  data : t.bucketStorage.map Bucket.keyValueData = es.map fun e => some e.data
  chains : ∀ i, Linked (nextOf t.bucketStorage) (t.hashTable i) (chain (es.map Entry.index) i)
  reads : ∀ e ∈ es, e.ReadsIn B t.buffer

variable {B : Buffer σ} {t : ConcurrentHashTable N σ} {es : List (Entry N)}

theorem Represents.length (h : Represents B t es) : t.bucketStorage.length = es.length := by
  simpa using congrArg List.length h.data

/-- The bucket of an entry. -/
theorem Represents.bucket (h : Represents B t es) {j : Nat} {e : Entry N} (he : es[j]? = some e) :
    ∃ b, t.bucketStorage[j]? = some b ∧ b.keyValueData = some e.data := by
  have hj := congrArg (fun l => l[j]?) h.data
  simp only [List.getElem?_map, he, Option.map_some] at hj
  obtain ⟨b, hb, hd⟩ := Option.map_eq_some_iff.1 hj
  exact ⟨b, hb, hd⟩

private theorem Represents.getPair_eq (h : Represents B t es) {e : Entry N} (he : e ∈ es) {b : Bucket}
    (hb : b.keyValueData = some e.data) :
    getPair B t.buffer b = some (e.data, e.data + e.key.length + 1) := by
  simp [getPair, hb, (h.reads e he).1]

private theorem findFrom_eq (h : Represents B t es) (key : Bytes) {l : List Nat} {j fuel : Nat} {js : List Nat}
    (hl : l = j :: js) (hlink : Linked (nextOf t.bucketStorage) (some j) l) (hmem : ∀ x ∈ l, x < es.length)
    (hfuel : l.length ≤ fuel) :
    findFrom B t key fuel j = some (l.find? fun j => es[j]?.any fun e => e.key = key) := by
  induction l generalizing j js fuel with
  | nil => cases hl
  | cons x xs ih =>
    obtain ⟨rfl, rfl⟩ := List.cons.inj hl
    obtain ⟨fuel, rfl⟩ : ∃ k, fuel = k + 1 := ⟨fuel - 1, by simp at hfuel; omega⟩
    have hx := hmem x (List.mem_cons_self ..)
    have he : es[x]? = some es[x] := List.getElem?_eq_getElem hx
    obtain ⟨b, hb, hd⟩ := h.bucket he
    have hpair := h.getPair_eq (List.getElem_mem hx) hd
    have hkey := (h.reads _ (List.getElem_mem hx)).1
    have hnext := hlink.2
    rw [nextOf, hb, Option.bind_some] at hnext
    simp only [findFrom, hb, hpair, hkey, Option.bind_eq_bind, Option.bind_some, List.find?_cons, he, Option.any_some]
    by_cases hk : key = es[x].key
    · simp [hk]
    · have hk' : es[x].key ≠ key := fun e => hk e.symm
      rw [if_neg hk]
      simp only [hk', decide_false]
      cases xs with
      | nil =>
        have hnone : b.nextBucket = none := hnext
        simp [hnone]
      | cons y ys =>
        have hsome : b.nextBucket = some y := hnext.1
        rw [hsome] at hnext
        simp only [hsome]
        exact ih rfl hnext (fun z hz => hmem z (List.mem_cons_of_mem _ hz)) (by simpa using hfuel)

/-- The pairs that an iteration visits, in the order of the buckets. -/
theorem Represents.pairs_eq (h : Represents B t es) {ps : List (Bytes × Bytes)}
    (hps : es.map (fun e => (e.key, e.value)) = ps.map fun p => (p.1, some p.2)) : pairs B t = some ps := by
  have hlen : es.length = ps.length := by simpa using congrArg List.length hps
  rw [pairs, mapM_eq_some]
  apply List.ext_getElem (by simp [h.length, hlen])
  intro j h₁ h₂
  have hj : j < es.length := by simpa [h.length] using h₁
  obtain ⟨b, hb, hd⟩ := h.bucket (List.getElem?_eq_getElem hj)
  have hm := List.getElem_mem hj
  have hp : (es[j].key, es[j].value) = (ps[j].1, some ps[j].2) := by
    have := List.getElem_of_eq hps (by simpa using hj)
    simpa using this
  have hk := congrArg Prod.fst hp
  have hv := congrArg Prod.snd hp
  dsimp only at hk hv
  obtain ⟨hkey, hvalue⟩ := h.reads _ hm
  rw [List.getElem_map, (List.getElem?_eq_some_iff.1 hb).2]
  simp [h.getPair_eq hm hd, hkey, hvalue, hv]
  exact Prod.ext hk rfl

/-- The buckets and chains do not depend on the file. -/
theorem Represents.buffer (h : Represents B t es) {s : σ} (hreads : ∀ e ∈ es, e.ReadsIn B s) :
    Represents B { t with buffer := s } es :=
  ⟨h.data, h.chains, hreads⟩

/-- A new bucket in front of the chain of its place. -/
theorem Represents.concat (h : Represents B t es) {e : Entry N} {s : σ}
    (hreads : ∀ e' ∈ es ++ [e], e'.ReadsIn B s) :
    Represents B ⟨s, t.bucketStorage ++ [⟨t.hashTable e.index, some e.data⟩],
      Function.update t.hashTable e.index (some t.bucketStorage.length)⟩ (es ++ [e]) := by
  refine ⟨by simp [h.data], fun i => ?_, hreads⟩
  have hnew : nextOf (t.bucketStorage ++ [⟨t.hashTable e.index, some e.data⟩]) t.bucketStorage.length =
      t.hashTable e.index := by simp [nextOf]
  have hold : Linked (nextOf (t.bucketStorage ++ [⟨t.hashTable e.index, some e.data⟩])) (t.hashTable i)
      (chain (es.map Entry.index) i) := by
    apply (h.chains i).congr
    intro j hj
    rw [mem_chain] at hj
    have hlt := (List.getElem?_eq_some_iff.1 hj).1
    rw [List.length_map, ← h.length] at hlt
    rw [nextOf, nextOf, List.getElem?_append_left hlt]
  simp only [List.map_append, List.map_cons, List.map_nil, chain_concat, List.length_map]
  by_cases hi : e.index = i
  · subst hi
    rw [if_pos rfl, Function.update_self, ← h.length]
    refine ⟨rfl, ?_⟩
    rw [hnew]
    exact hold
  · rw [if_neg hi, Function.update_of_ne (fun e => hi e.symm)]
    exact hold

/-- A new record of the same key in an old bucket. -/
theorem Represents.set (h : Represents B t es) {j : Nat} {e e' : Entry N} {s : σ} (he : es[j]? = some e)
    (hi : e'.index = e.index) (hreads : ∀ x ∈ es.set j e', x.ReadsIn B s) :
    Represents B ⟨s, t.bucketStorage.modify j fun b => { b with keyValueData := some e'.data }, t.hashTable⟩
      (es.set j e') := by
  have hindex : (es.set j e').map Entry.index = es.map Entry.index := by
    obtain ⟨hj, rfl⟩ := List.getElem?_eq_some_iff.1 he
    rw [List.map_set, hi]
    apply List.ext_getElem?
    intro l
    rw [List.getElem?_set]
    by_cases hl : j = l
    · subst hl
      simp [hj]
    · rw [if_neg hl]
  have hnext : nextOf (t.bucketStorage.modify j fun b => { b with keyValueData := some e'.data }) =
      nextOf t.bucketStorage := by
    funext l
    rw [nextOf, nextOf, List.getElem?_modify]
    by_cases hl : j = l
    · cases t.bucketStorage[l]? <;> simp [hl]
    · cases t.bucketStorage[l]? <;> simp [hl]
  refine ⟨?_, fun i => ?_, hreads⟩
  · apply List.ext_getElem?
    intro l
    have hl := congrArg (fun d => d[l]?) h.data
    simp only [List.getElem?_map] at hl
    simp only [List.getElem?_map, List.getElem?_modify, List.getElem?_set]
    by_cases hjl : j = l
    · subst hjl
      obtain ⟨b, hb, -⟩ := h.bucket he
      simp [hb, (List.getElem?_eq_some_iff.1 he).1]
    · simpa [hjl, Function.comp_def] using hl
  · rw [hindex, hnext]
    exact h.chains i

private theorem modify_concat {α : Type} (l : List α) (a : α) (f : α → α) :
    (l ++ [a]).modify l.length f = l ++ [f a] := by
  induction l with
  | nil => rfl
  | cons b l ih => simpa using ih

/-- A new bucket, after its pointer is set and it is stored. -/
theorem newBucket_eq (B : Buffer σ) (t : ConcurrentHashTable N σ) (s : σ) (p : Nat) (i : Fin N) :
    storeBucket (setPointer B { (getNewBucket t).2 with buffer := s } (getNewBucket t).1 p) (getNewBucket t).1 i =
      ⟨s, t.bucketStorage ++ [⟨t.hashTable i, some p⟩],
        Function.update t.hashTable i (some t.bucketStorage.length)⟩ := by
  simp [getNewBucket, setPointer, storeBucket, modify_concat]

variable [NeZero N] {hasher : Bytes → Nat}

/-- What the constructor reads of a used block. -/
def blockEntry (B : Buffer σ) (hasher : Bytes → Nat) (s : σ) (b : Payload) : Option (Entry N) :=
  (string B s b.data).map fun key =>
    ⟨b.data, key, string B s (b.data + key.length + 1), hashTableIndex hasher key⟩

theorem blockEntry_eq_some {s : σ} {b : Payload} {e : Entry N} :
    blockEntry B hasher s b = some e ↔
      e.data = b.data ∧ e.index = hashTableIndex hasher e.key ∧ e.ReadsIn B s := by
  rw [blockEntry, Option.map_eq_some_iff]
  constructor
  · rintro ⟨key, hkey, rfl⟩
    exact ⟨rfl, rfl, hkey, rfl⟩
  · rintro ⟨hd, hi, hkey, hvalue⟩
    rw [hd] at hkey hvalue
    refine ⟨e.key, hkey, ?_⟩
    rw [hvalue, ← hd, ← hi]

/-- One turn of the loop of the constructor. -/
theorem loadBlock_eq (t : ConcurrentHashTable N σ) (b : Payload) :
    loadBlock B hasher t b = (blockEntry B hasher t.buffer b).map fun e =>
      ⟨t.buffer, t.bucketStorage ++ [⟨t.hashTable e.index, some e.data⟩],
        Function.update t.hashTable e.index (some t.bucketStorage.length)⟩ := by
  cases hkey : string B t.buffer b.data with
  | none => simp [loadBlock, blockEntry, getNewBucket, setPointer, hkey]
  | some key =>
    have hset := newBucket_eq B t t.buffer b.data (hashTableIndex hasher key)
    simp only [getNewBucket, setPointer, storeBucket] at hset
    simp [loadBlock, blockEntry, getNewBucket, setPointer, storeBucket, hkey] at hset ⊢
    exact hset

/-- The constructor makes a bucket for each used block, in the order of the used list. -/
theorem load_eq {s : σ} {es : List (Entry N)} (h : (B.usedBlocks s).map (blockEntry B hasher s) = es.map some) :
    ∃ t, ConcurrentHashTable.load B hasher s = some t ∧ t.buffer = s ∧ Represents B t es := by
  suffices hrun : ∀ (bs : List Payload) (es' es : List (Entry N)) (t : ConcurrentHashTable N σ),
      t.buffer = s → Represents B t es → bs.map (blockEntry B hasher s) = es'.map some →
      ∃ t', bs.foldlM (loadBlock B hasher) t = some t' ∧ t'.buffer = s ∧ Represents B t' (es ++ es') by
    have hnew : Represents (N := N) B ⟨s, [], fun _ => none⟩ [] := ⟨rfl, fun _ => rfl, by simp⟩
    simpa [ConcurrentHashTable.load] using hrun _ es [] ⟨s, [], fun _ => none⟩ rfl hnew h
  intro bs
  induction bs with
  | nil =>
    intro es' es t ht hrep hes
    obtain rfl : es' = [] := by simpa using hes
    exact ⟨t, rfl, ht, by simpa using hrep⟩
  | cons b bs ih =>
    intro es' es t ht hrep hes
    cases es' with
    | nil => simp at hes
    | cons e es' =>
      rw [List.map_cons, List.map_cons, List.cons.injEq] at hes
      have he : blockEntry B hasher t.buffer b = some e := by rw [ht]; exact hes.1
      obtain ⟨-, -, hreads⟩ := blockEntry_eq_some.1 he
      have hrep₁ := hrep.concat (e := e) (s := t.buffer) (by
        intro x hx
        rcases List.mem_append.1 hx with hx | hx
        · exact hrep.reads x hx
        · rw [List.mem_singleton.1 hx]
          exact hreads)
      have hrun := ih es' (es ++ [e]) ⟨t.buffer, t.bucketStorage ++ [⟨t.hashTable e.index, some e.data⟩],
        Function.update t.hashTable e.index (some t.bucketStorage.length)⟩ ht hrep₁ hes.2
      obtain ⟨t₂, h₂, ht₂, hrep₂⟩ := hrun
      refine ⟨t₂, ?_, ht₂, by simpa using hrep₂⟩
      rw [List.foldlM_cons, loadBlock_eq, he]
      exact h₂

/-- The constructor does not return when a used block holds no string. -/
theorem load_eq_none {s : σ} (h : ∃ b ∈ B.usedBlocks s, string B s b.data = none) :
    ConcurrentHashTable.load (N := N) B hasher s = none := by
  suffices hrun : ∀ (bs : List Payload) (t : ConcurrentHashTable N σ), t.buffer = s →
      (∃ b ∈ bs, string B s b.data = none) → bs.foldlM (loadBlock B hasher) t = none from hrun _ _ rfl h
  intro bs
  induction bs with
  | nil => simp
  | cons b bs ih =>
    intro t ht hb
    rw [List.foldlM_cons, loadBlock_eq, ht, blockEntry]
    cases hkey : string B s b.data with
    | none => rfl
    | some key =>
      apply ih _ rfl
      obtain ⟨b', hb', hnone⟩ := hb
      rcases List.mem_cons.1 hb' with rfl | hb'
      · rw [hkey] at hnone
        cases hnone
      · exact ⟨b', hb', hnone⟩

/-- The lookup terminates and finds the last entry with the key in the chain of its hash. -/
theorem Represents.find_eq (h : Represents B t es) (key : Bytes) :
    findBucketWithKey B hasher t key =
      some (lookup es (hashTableIndex hasher key) key, hashTableIndex hasher key) := by
  have hlink := h.chains (hashTableIndex hasher key)
  rw [lookup_eq_find?]
  cases hc : chain (es.map Entry.index) (hashTableIndex hasher key) with
  | nil =>
    rw [hc] at hlink
    have hnone : t.hashTable (hashTableIndex hasher key) = none := hlink
    simp only [findBucketWithKey, hnone, List.find?_nil]
  | cons j js =>
    have hmem : ∀ x ∈ j :: js, x < es.length := by
      intro x hx
      rw [← hc, mem_chain] at hx
      simpa using (List.getElem?_eq_some_iff.1 hx).1
    have hlen : (j :: js).length ≤ t.bucketStorage.length := by
      rw [← hc, h.length]
      simpa using length_chain_le (es.map Entry.index) (hashTableIndex hasher key)
    rw [hc] at hlink
    have hhead := hlink.1
    rw [hhead] at hlink
    simp only [findBucketWithKey, hhead, findFrom_eq h key rfl hlink hmem hlen, Option.map_some]

/-- What `get` returns: the value of the entry found, the empty string if there is none. -/
theorem Represents.get_eq (h : Represents B t es) (key : Bytes) :
    ConcurrentHashTable.get B hasher t key =
      (found es (hashTableIndex hasher key) key).elim (some []) Entry.value := by
  unfold ConcurrentHashTable.get
  rw [h.find_eq key, found]
  simp only [Option.bind_eq_bind, Option.bind_some]
  cases hl : lookup es (hashTableIndex hasher key) key with
  | none => rfl
  | some j =>
    obtain ⟨e, he, -, -⟩ := lookup_eq_some hl
    obtain ⟨b, hb, hd⟩ := h.bucket he
    have hm := List.mem_of_getElem? he
    simp only [hb, Option.bind_some, h.getPair_eq hm hd, he, (h.reads e hm).2, Option.elim_some]

end KeyValueStore
