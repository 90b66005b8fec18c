import KeyValueStore.NoStaleSplit
import KeyValueStore.Table

/-!
# What the next process reads

A new process makes a bucket for each used block, in the order of the used list, and puts each in front of its chain.  So
the last record with a key is the one that is found (`lastValue`), whatever the hash function is.  In front of the records
there may be one more used block, the last one that `alloc` handed out, with any bytes in it (`getAfterReopen_front`).
-/

namespace KeyValueStore

open ByteMemory ConcurrentHashTable

/-- The value of the last record with the key, the empty string if there is none. -/
def lastValue (rs : List Record) (key : Bytes) : Bytes :=
  ((rs.filter fun r => r.key = key).getLast?).elim [] Record.value

private theorem filter_key_eq_nil {rs : List Record} {key : Bytes} (h : key ∉ rs.map Record.key) :
    rs.filter (fun r => r.key = key) = [] := by
  rw [List.filter_eq_nil_iff]
  intro r hr hk
  exact h (List.mem_map.2 ⟨r, hr, of_decide_eq_true hk⟩)

theorem lastValue_of_not_mem {rs : List Record} {key : Bytes} (h : key ∉ rs.map Record.key) : lastValue rs key = [] := by
  rw [lastValue, filter_key_eq_nil h]
  rfl

theorem lastValue_cons (r : Record) (rs : List Record) (key : Bytes) :
    lastValue (r :: rs) key =
      if key ∈ rs.map Record.key then lastValue rs key else if r.key = key then r.value else [] := by
  by_cases hkey : key ∈ rs.map Record.key
  · obtain ⟨r', hr', hk⟩ := List.mem_map.1 hkey
    have hne : rs.filter (fun r => r.key = key) ≠ [] :=
      List.ne_nil_of_mem (List.mem_filter.2 ⟨hr', by simpa using hk⟩)
    rw [if_pos hkey, lastValue, lastValue, List.filter_cons]
    split
    · rw [List.getLast?_cons, List.getLast?_eq_some_getLast hne]
      rfl
    · rfl
  · rw [if_neg hkey, lastValue, List.filter_cons, filter_key_eq_nil hkey]
    by_cases hr : r.key = key <;> simp [hr]

/-- Other keys do not notice that a record is gone. -/
theorem lastValue_erase {rs : List Record} {r : Record} {key : Bytes} (h : r.key ≠ key) :
    lastValue (rs.erase r) key = lastValue rs key := by
  have hfilter : (rs.erase r).filter (fun r => r.key = key) = rs.filter fun r => r.key = key := by
    induction rs with
    | nil => rfl
    | cons a rs ih =>
      by_cases ha : a = r
      · rw [ha, List.erase_cons_head, List.filter_cons, if_neg (by simpa using h)]
      · rw [List.erase_cons_tail (by simpa using ha), List.filter_cons, List.filter_cons, ih]
  rw [lastValue, lastValue, hfilter]

variable {N : Nat} [NeZero N] {σ : Type} {B : Buffer σ} {s : σ} {rs : List Record}

/-- The lookup in the table that the constructor makes. -/
theorem current_reloaded (hasher : Bytes → Nat) (rs : List Record) (key : Bytes) :
    current (rs.map fun r => (r, hashTableIndex (N := N) hasher r.key)) (hashTableIndex hasher key) key =
      lastValue rs key := by
  have hfilter : (fun x : Record × Fin N => decide (x.2 = hashTableIndex hasher key ∧ x.1.key = key)) ∘
      (fun r => (r, hashTableIndex hasher r.key)) = fun r => decide (r.key = key) := by
    funext r
    by_cases hk : r.key = key <;> simp [hk]
  rw [current, List.filter_map, hfilter, List.getLast?_map, lastValue]
  cases (rs.filter fun r => r.key = key).getLast? <;> rfl

/-- `get` in a new process on the file. -/
def getAfterReopen (N : Nat) [NeZero N] (B : Buffer σ) (hasher : Bytes → Nat) (s : σ) (key : Bytes) : Option Bytes :=
  (ConcurrentHashTable.load (N := N) B hasher s).bind fun t => ConcurrentHashTable.get B hasher t key

theorem getAfterReopen_withAlloc {f : Nat → σ → Option Nat × σ} (hasher : Bytes → Nat) (key : Bytes) :
    getAfterReopen N (B.withAlloc f) hasher s key = getAfterReopen N B hasher s key := by
  have hload : ConcurrentHashTable.load (N := N) (B.withAlloc f) hasher s = ConcurrentHashTable.load B hasher s := rfl
  simp only [getAfterReopen, hload, get_withAlloc]

/-- The file holds records only. -/
theorem getAfterReopen_eq (hf : FileHolds B s (rs.map Record.block) rs) (hasher : Bytes → Nat) (key : Bytes) :
    getAfterReopen N B hasher s key = some (lastValue rs key) := by
  obtain ⟨t, ht, -, h⟩ := load_holds (N := N) hasher hf
  rw [getAfterReopen, ht, Option.bind_some, h.get hasher key, current_reloaded]

/-- The first used block holds no string: the constructor of the new process does not return. -/
theorem getAfterReopen_none {b : Payload} {bs : List Payload} (hu : B.usedBlocks s = b :: bs)
    (hb : string B s b.data = none) (hasher : Bytes → Nat) (key : Bytes) :
    getAfterReopen N B hasher s key = none := by
  have hload : ConcurrentHashTable.load (N := N) B hasher s = none :=
    load_eq_none ⟨b, hu ▸ List.mem_cons_self .., hb⟩
  rw [getAfterReopen, hload]
  rfl

/-- The first used block is read as a key and a value, which counts for a key without record. -/
theorem getAfterReopen_front {b : Payload} (hf : FileHolds B s (b :: rs.map Record.block) rs) {k : Bytes}
    (hb : string B s b.data = some k) (hasher : Bytes → Nat) (key : Bytes) :
    getAfterReopen N B hasher s key =
      if key ∈ rs.map Record.key then some (lastValue rs key)
      else if k = key then string B s (b.data + k.length + 1) else some [] := by
  let e : Entry N := ⟨b.data, k, string B s (b.data + k.length + 1), hashTableIndex hasher k⟩
  let xs : List (Record × Fin N) := rs.map fun r => (r, hashTableIndex hasher r.key)
  have hes : (B.usedBlocks s).map (blockEntry (N := N) B hasher s) = (e :: xs.map entry).map some := by
    rw [hf.used, List.map_cons, List.map_cons]
    refine List.cons_eq_cons.2 ⟨blockEntry_eq_some.2 ⟨rfl, rfl, hb, rfl⟩, ?_⟩
    rw [List.map_map, List.map_map, List.map_map]
    apply List.map_congr_left
    intro r hr
    exact blockEntry_eq_some.2 ⟨rfl, rfl, hf.string_key hr, hf.string_value hr⟩
  obtain ⟨t, ht, -, hrep⟩ := load_eq hes
  have hxs := found_entry xs (hashTableIndex hasher key) key
  rw [current_reloaded, found_eq_getLast?] at hxs
  rw [getAfterReopen, ht, Option.bind_some, hrep.get_eq, found_eq_getLast?, List.filter_cons]
  by_cases hkey : key ∈ rs.map Record.key
  · -- the records of the key are behind the block, so the last one is found
    obtain ⟨r, hr, hk⟩ := List.mem_map.1 hkey
    have hmem : entry (r, hashTableIndex hasher r.key) ∈
        (xs.map entry).filter fun e => e.index = hashTableIndex hasher key ∧ e.key = key := by
      refine List.mem_filter.2 ⟨List.mem_map_of_mem (List.mem_map_of_mem hr), ?_⟩
      simp [entry, hk]
    have hne := List.ne_nil_of_mem hmem
    rw [if_pos hkey, ← hxs]
    split
    · rw [List.getLast?_cons, List.getLast?_eq_some_getLast hne]
      rfl
    · rfl
  · have hnil : (xs.map entry).filter (fun e => e.index = hashTableIndex hasher key ∧ e.key = key) = [] := by
      rw [List.filter_eq_nil_iff]
      intro e' he' hk
      obtain ⟨x, hx, rfl⟩ := List.mem_map.1 he'
      obtain ⟨r, hr, rfl⟩ := List.mem_map.1 hx
      exact hkey (List.mem_map.2 ⟨r, hr, (of_decide_eq_true hk).2⟩)
    rw [if_neg hkey, hnil]
    by_cases hk : k = key
    · have he : e.index = hashTableIndex hasher key ∧ e.key = key := ⟨by rw [← hk], hk⟩
      rw [if_pos (decide_eq_true he), if_pos hk]
      rfl
    · have he : ¬(e.index = hashTableIndex hasher key ∧ e.key = key) := fun h => hk h.2
      rw [if_neg (by simpa using he), if_neg hk]
      rfl

end KeyValueStore
