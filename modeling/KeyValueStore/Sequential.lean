import KeyValueStore.NoStaleSplit
import KeyValueStore.Table

/-!
# The store is a map

In every run with strings without `NUL` byte the records of the table are those of the map, in the order of the history
(`Tracks`).  So every `get` returns the latest value (`get_returns_latest`), and in every state reached the chains hold each
bucket once and an iteration visits the map (`represents_map`).  Over the code's buffer both hold of the runs in which no
split is stale.
-/

namespace KeyValueStore

open ByteMemory SinglyLinked ConcurrentHashTable

variable {N : Nat} [NeZero N] {σ : Type} {B : Buffer σ} {Inv : σ → Prop} {p q : Process N σ} {es : List Event}
  {xs : List (Record × Fin N)} {rs : List Record}

/-! ### Tables at rest -/

/-- The keys on the used list of a file of records. -/
theorem FileHolds.usedKeys_eq {s : σ} (h : FileHolds B s (rs.map Record.block) rs) :
    usedKeys B s = rs.map Record.key := by
  rw [usedKeys, h.used, List.filterMap_map]
  have hread : ∀ r ∈ rs, ((fun b : Payload => string B s b.data) ∘ Record.block) r = some r.key :=
    fun r hr => h.string_key hr
  rw [List.filterMap_congr hread]
  exact congrFun (List.filterMap_eq_map (f := Record.key)) rs

/-- Every step returns and leaves a table at rest, whatever the strings are. -/
theorem Holds.step (hB : B.Lawful Inv) (hi : Inv p.table.buffer) (h : Holds B p.table xs rs) (op : StoreOp) :
    ∃ e q xs' rs', p.step B op = some (e, q) ∧ Inv q.table.buffer ∧ Holds B q.table xs' rs' := by
  cases op with
  | put key value =>
    rcases h.put p.hasher hB hi key value with ⟨t, -, ht, hi', h'⟩ | ⟨t, r, -, ht, hi', -, -, ⟨-, h'⟩ | ⟨j, x, -, -, h'⟩⟩
    all_goals exact ⟨_, ⟨p.hasher, t⟩, _, _, by rw [Process.step, ht]; rfl, hi', h'⟩
  | get key =>
    refine ⟨.get key (current xs (hashTableIndex p.hasher key) key), p, xs, rs, ?_, hi, h⟩
    rw [Process.step, h.get p.hasher key]
    rfl
  | reopen hasher =>
    obtain ⟨t, ht, hs, h'⟩ := load_holds (N := N) hasher h.file
    refine ⟨.opened (usedKeys B p.table.buffer), ⟨hasher, t⟩, _, _, ?_, ?_, h'⟩
    · rw [Process.step, Process.start, ht]
      rfl
    · rw [hs]
      exact hi

/-- The run lemma for arbitrary strings. -/
private theorem runFrom_holds (hB : B.Lawful Inv) {s : σ} (hi : Inv s) (hs : B.usedBlocks s = []) (hasher : Bytes → Nat)
    (ops : List StoreOp) :
    ∃ es q xs rs, runFrom (N := N) B hasher s ops = some (es, q) ∧ Inv q.table.buffer ∧ Holds B q.table xs rs := by
  simp only [runFrom, start_empty hs, Option.bind_some]
  induction ops using List.reverseRecOn with
  | nil => exact ⟨[], _, [], [], rfl, hi, holds_empty hs⟩
  | append_singleton ops op ih =>
    obtain ⟨es, q, xs, rs, hrun, hi', h⟩ := ih
    obtain ⟨e, q', xs', rs', hstep, hi'', h'⟩ := h.step hB hi' op
    refine ⟨es ++ [e], q', xs', rs', ?_, hi'', h'⟩
    rw [run_concat, hrun, Option.bind_some, hstep]
    rfl

theorem runFrom_holds_of_noStaleSplit {dbSize : Nat} {s : FileBackedBuffer} (hi : s.Sound dbSize)
    (hs : (plainBuffer dbSize).usedBlocks s = []) (hasher : Bytes → Nat) {ops : List StoreOp}
    (hns : NoStaleSplitFrom N dbSize hasher s ops) :
    ∃ es q xs rs, runFrom (N := N) (plainBuffer dbSize) hasher s ops = some (es, q) ∧ q.table.buffer.Sound dbSize ∧
      Holds (guardedBuffer dbSize) q.table xs rs := by
  rw [← runFrom_guarded hns]
  exact runFrom_holds (guardedBuffer_lawful dbSize) hi hs hasher ops

/-! ### Strings without `NUL` bytes -/

/-- The history `es` of the process: its records are those of the map, in the order of the history. -/
structure Tracks (B : Buffer σ) (p : Process N σ) (es : List Event) (xs : List (Record × Fin N)) (rs : List Record) :
    Prop where
  holds : Holds B p.table xs rs
  place : ∀ x ∈ xs, x.2 = hashTableIndex p.hasher x.1.key
  keys : xs.map (fun x => x.1.key) = order es
  nodup : (order es).Nodup
  value : ∀ x ∈ xs, x.1.value = latest es x.1.key
  mem : ∀ key, key ∈ order es ↔ ∃ value, .put key value true ∈ es

/-- The lookup finds the record of a key. -/
theorem Tracks.current_eq (h : Tracks B p es xs rs) (key : Bytes) :
    current xs (hashTableIndex p.hasher key) key = latest es key := by
  rw [current_eq_lookup]
  cases hl : lookup (xs.map entry) (hashTableIndex p.hasher key) key with
  | none =>
    refine (latest_eq_nil fun value hv => ?_).symm
    have hk := (h.mem key).2 ⟨value, hv⟩
    rw [← h.keys, List.mem_map] at hk
    obtain ⟨x, hx, rfl⟩ := hk
    exact lookup_entry_none.1 hl x hx (h.place x hx) rfl
  | some j =>
    obtain ⟨x, hx, -, rfl⟩ := lookup_entry hl
    simp only [Option.bind_some, hx, Option.elim_some]
    exact h.value x (List.mem_of_getElem? hx)

/-- A failed `put` and a `get` change neither the map nor its order. -/
private theorem Tracks.same (h : Tracks B p es xs rs) {e : Event} (hh : Holds B q.table xs rs)
    (hp : q.hasher = p.hasher) (he : (∃ key value, e = .put key value false) ∨ ∃ key r, e = .get key r) :
    Tracks B q (es ++ [e]) xs rs := by
  have hl : ∀ key, latest (es ++ [e]) key = latest es key := by
    rcases he with ⟨key, value, rfl⟩ | ⟨key, r, rfl⟩ <;> exact fun _ => latest_concat ..
  have ho : order (es ++ [e]) = order es := by
    rcases he with ⟨key, value, rfl⟩ | ⟨key, r, rfl⟩ <;> exact order_concat ..
  refine ⟨hh, ?_, ?_, ?_, ?_, ?_⟩
  · rw [hp]; exact h.place
  · rw [ho]; exact h.keys
  · rw [ho]; exact h.nodup
  · intro x hx
    rw [hl]; exact h.value x hx
  · intro key
    rw [ho, h.mem]
    rcases he with ⟨_, _, rfl⟩ | ⟨_, _, rfl⟩ <;> simp

private theorem mem_concat_put {key k v : Bytes} {o o' : List Bytes} (ho : key ∈ o' ↔ key = k ∨ key ∈ o)
    (h : key ∈ o ↔ ∃ value, .put key value true ∈ es) :
    key ∈ o' ↔ ∃ value, .put key value true ∈ es ++ [.put k v true] := by
  rw [ho, h]
  constructor
  · rintro (rfl | ⟨value, hv⟩)
    · exact ⟨v, by simp⟩
    · exact ⟨value, List.mem_append_left _ hv⟩
  · rintro ⟨value, hv⟩
    rcases List.mem_append.1 hv with hv | hv
    · exact Or.inr ⟨value, hv⟩
    · simp only [List.mem_singleton, Event.put.injEq] at hv
      exact Or.inl hv.1

private theorem Tracks.put_new (h : Tracks B p es xs rs) {t : ConcurrentHashTable N σ} {r : Record}
    (hr : ∀ x ∈ xs, x.1.key ≠ r.key) (hh : Holds B t (xs ++ [(r, hashTableIndex p.hasher r.key)]) (r :: rs)) :
    Tracks B ⟨p.hasher, t⟩ (es ++ [.put r.key r.value true]) (xs ++ [(r, hashTableIndex p.hasher r.key)]) (r :: rs) := by
  have hnew : r.key ∉ order es := by
    rw [← h.keys, List.mem_map]
    rintro ⟨x, hx, hk⟩
    exact hr x hx hk
  have ho : order (es ++ [.put r.key r.value true]) = order es ++ [r.key] := by
    rw [order_concat]
    exact if_neg hnew
  have hl : ∀ key, latest (es ++ [.put r.key r.value true]) key = if r.key = key then r.value else latest es key :=
    fun key => latest_concat ..
  refine ⟨hh, ?_, ?_, ?_, ?_, ?_⟩
  · intro x hx
    rcases List.mem_append.1 hx with hx | hx
    · exact h.place x hx
    · rw [List.mem_singleton.1 hx]
  · rw [ho, List.map_append, h.keys]
    rfl
  · rw [ho]
    refine List.nodup_append.2 ⟨h.nodup, List.nodup_singleton _, ?_⟩
    intro a ha b hb hab
    rw [List.mem_singleton.1 hb] at hab
    exact hnew (hab ▸ ha)
  · intro x hx
    rw [hl]
    rcases List.mem_append.1 hx with hx | hx
    · rw [if_neg fun e => hr x hx e.symm]
      exact h.value x hx
    · rw [List.mem_singleton.1 hx, if_pos rfl]
  · exact fun key => mem_concat_put (by rw [ho]; simp [or_comm]) (h.mem key)

private theorem Tracks.put_old (h : Tracks B p es xs rs) {t : ConcurrentHashTable N σ} {r : Record} {j : Nat}
    {x : Record × Fin N} (hx : xs[j]? = some x) (hk : x.1.key = r.key) {rs' : List Record}
    (hh : Holds B t (xs.set j (r, hashTableIndex p.hasher r.key)) rs') :
    Tracks B ⟨p.hasher, t⟩ (es ++ [.put r.key r.value true]) (xs.set j (r, hashTableIndex p.hasher r.key)) rs' := by
  obtain ⟨hj, hget⟩ := List.getElem?_eq_some_iff.1 hx
  have hold : r.key ∈ order es := by
    rw [← h.keys, List.mem_map]
    exact ⟨x, List.mem_of_getElem? hx, hk⟩
  have ho : order (es ++ [.put r.key r.value true]) = order es := by
    rw [order_concat]
    exact if_pos hold
  have hl : ∀ key, latest (es ++ [.put r.key r.value true]) key = if r.key = key then r.value else latest es key :=
    fun key => latest_concat ..
  -- the new record has the key of the old one, so the keys stay
  have hkeys : (xs.set j (r, hashTableIndex p.hasher r.key)).map (fun x => x.1.key) = order es := by
    rw [List.map_set, ← hk, ← h.keys]
    apply List.ext_getElem (by simp)
    intro l h₁ h₂
    rw [List.getElem_set]
    split
    · rename_i hjl
      subst hjl
      rw [List.getElem_map, hget]
    · rfl
  have hnodup : (xs.map fun x => x.1.key).Nodup := h.keys ▸ h.nodup
  refine ⟨hh, ?_, ho ▸ hkeys, ho ▸ h.nodup, ?_, ?_⟩
  · intro y hy
    rcases List.mem_or_eq_of_mem_set hy with hy | rfl
    · exact h.place y hy
    · rfl
  · intro y hy
    rw [hl]
    obtain ⟨l, hl', rfl⟩ := List.getElem_of_mem hy
    rw [List.getElem_set] at hy ⊢
    split
    · rw [if_pos rfl]
    · rename_i hne
      rw [List.length_set] at hl'
      rw [if_neg]
      · exact h.value _ (List.getElem_mem _)
      · intro e
        refine hne ((List.getElem?_inj (by simpa using hj) hnodup).1 ?_)
        simp [hx, hl', hk, e]
  · refine fun key => mem_concat_put ?_ (h.mem key)
    rw [ho]
    exact ⟨Or.inr, fun hk => hk.elim (fun e => e ▸ hold) id⟩

private theorem Tracks.reopen (h : Tracks B p es xs rs) {t : ConcurrentHashTable N σ} {hasher : Bytes → Nat}
    (hh : Holds B t (rs.map fun r => (r, hashTableIndex hasher r.key)) rs) :
    Tracks B ⟨hasher, t⟩ (es ++ [.opened (usedKeys B p.table.buffer)])
      (rs.map fun r => (r, hashTableIndex hasher r.key)) rs := by
  have ho : order (es ++ [.opened (usedKeys B p.table.buffer)]) = rs.map Record.key := by
    rw [order_concat]
    exact h.holds.file.usedKeys_eq
  have hl : ∀ key, latest (es ++ [.opened (usedKeys B p.table.buffer)]) key = latest es key :=
    fun key => latest_concat ..
  have hperm : (order es).Perm (rs.map Record.key) := by
    rw [← h.keys]
    have := h.holds.perm.map Record.key
    rwa [List.map_map] at this
  refine ⟨hh, ?_, ?_, ?_, ?_, ?_⟩
  · intro x hx
    obtain ⟨r, -, rfl⟩ := List.mem_map.1 hx
    rfl
  · rw [ho, List.map_map]
    rfl
  · rw [ho]
    exact hperm.nodup_iff.1 h.nodup
  · intro x hx
    obtain ⟨r, hr, rfl⟩ := List.mem_map.1 hx
    rw [hl]
    obtain ⟨y, hy, rfl⟩ := List.mem_map.1 (h.holds.perm.mem_iff.2 hr)
    exact h.value y hy
  · intro key
    rw [ho, ← hperm.mem_iff, h.mem]
    simp

/-- The step lemma. -/
theorem Tracks.step (hB : B.Lawful Inv) (hi : Inv p.table.buffer) (h : Tracks B p es xs rs) {op : StoreOp}
    (hop : op.NulFree) :
    ∃ e q xs' rs', p.step B op = some (e, q) ∧ Inv q.table.buffer ∧ Tracks B q (es ++ [e]) xs' rs' ∧
      ∀ key r, e = .get key r → r = latest es key := by
  cases op with
  | put key value =>
    obtain ⟨hkey, hvalue⟩ := hop
    rcases h.holds.put p.hasher hB hi key value with ⟨t, -, ht, hi', h'⟩ | ⟨t, r, -, ht, hi', hk, hv, h'⟩
    · refine ⟨.put key value false, ⟨p.hasher, t⟩, xs, rs, by rw [Process.step, ht]; rfl, hi', ?_, by simp⟩
      exact h.same h' rfl (Or.inl ⟨key, value, rfl⟩)
    · rw [cut_eq_self hkey] at hk
      rw [cut_eq_self hvalue] at hv
      subst hk hv
      rcases h' with ⟨hl, h'⟩ | ⟨j, x, hl, hx, h'⟩
      · refine ⟨.put r.key r.value true, ⟨p.hasher, t⟩, _, _, by rw [Process.step, ht]; rfl, hi', h.put_new ?_ h', by simp⟩
        intro x hx hk
        exact lookup_entry_none.1 hl x hx (hk ▸ h.place x hx) hk
      · obtain ⟨y, hy, -, hk⟩ := lookup_entry hl
        obtain rfl : x = y := Option.some.inj (hx.symm.trans hy)
        exact ⟨.put r.key r.value true, ⟨p.hasher, t⟩, _, _, by rw [Process.step, ht]; rfl, hi', h.put_old hx hk h',
          by simp⟩
  | get key =>
    refine ⟨.get key (latest es key), p, xs, rs, ?_, hi, ?_, ?_⟩
    · rw [Process.step, h.holds.get p.hasher key, h.current_eq]
      rfl
    · exact h.same h.holds rfl (Or.inr ⟨key, _, rfl⟩)
    · rintro _ _ ⟨⟩
      rfl
  | reopen hasher =>
    obtain ⟨t, ht, hs, h'⟩ := load_holds (N := N) hasher h.holds.file
    refine ⟨.opened (usedKeys B p.table.buffer), ⟨hasher, t⟩, _, _, ?_, ?_, h.reopen h', by simp⟩
    · rw [Process.step, Process.start, ht]
      rfl
    · rw [hs]
      exact hi

/-- The run lemma: the history is tracked, and every `get` in it returned the latest value. -/
private theorem runFrom_tracks (hB : B.Lawful Inv) {s : σ} (hi : Inv s) (hs : B.usedBlocks s = []) (hasher : Bytes → Nat)
    {ops : List StoreOp} (hops : ∀ op ∈ ops, op.NulFree) :
    ∃ es q xs rs, runFrom (N := N) B hasher s ops = some (es, q) ∧ Inv q.table.buffer ∧ Tracks B q es xs rs ∧
      ∀ pre key r post, es = pre ++ .get key r :: post → r = latest pre key := by
  simp only [runFrom, start_empty hs, Option.bind_some]
  induction ops using List.reverseRecOn with
  | nil =>
    refine ⟨[], _, [], [], rfl, hi, ⟨holds_empty hs, by simp, rfl, List.nodup_nil, by simp, ?_⟩, by simp⟩
    intro key
    simp [order]
  | append_singleton ops op ih =>
    obtain ⟨es, q, xs, rs, hrun, hi', h, hget⟩ := ih fun op hop => hops op (List.mem_append_left _ hop)
    obtain ⟨e, q', xs', rs', hstep, hi'', h', he⟩ := h.step hB hi' (hops op (by simp))
    refine ⟨es ++ [e], q', xs', rs', ?_, hi'', h', ?_⟩
    · rw [run_concat, hrun, Option.bind_some, hstep]
      rfl
    · intro pre key r post hes
      -- the event is the last one of the history or one of those before
      rcases List.eq_nil_or_concat post with rfl | ⟨post, e', rfl⟩
      · obtain ⟨rfl, hlast⟩ := List.append_inj' hes rfl
        exact he key r (List.singleton_inj.1 hlast)
      · rw [List.concat_eq_append, ← List.cons_append, ← List.append_assoc] at hes
        exact hget pre key r post (List.append_inj' hes rfl).1

theorem runFrom_tracks_of_noStaleSplit {dbSize : Nat} {s : FileBackedBuffer} (hi : s.Sound dbSize)
    (hs : (plainBuffer dbSize).usedBlocks s = []) (hasher : Bytes → Nat) {ops : List StoreOp}
    (hops : ∀ op ∈ ops, op.NulFree) (hns : NoStaleSplitFrom N dbSize hasher s ops) :
    ∃ es q xs rs, runFrom (N := N) (plainBuffer dbSize) hasher s ops = some (es, q) ∧ q.table.buffer.Sound dbSize ∧
      Tracks (guardedBuffer dbSize) q es xs rs ∧ ∀ pre key r post, es = pre ++ .get key r :: post → r = latest pre key := by
  rw [← runFrom_guarded hns]
  exact runFrom_tracks (guardedBuffer_lawful dbSize) hi hs hasher hops

/-- In every run every `get` returns the value of the latest successful `put` to its key, across kills and new processes,
and a failed `put` is as good as none. -/
theorem get_returns_latest (hB : B.Lawful Inv) {s : σ} (hi : Inv s) (hs : B.usedBlocks s = []) (hasher : Bytes → Nat)
    (ops : List StoreOp) (hops : ∀ op ∈ ops, op.NulFree) :
    ∃ es q, runFrom (N := N) B hasher s ops = some (es, q) ∧
      (∀ pre key r post, es = pre ++ .get key r :: post → r = latest pre key) ∧
      ∀ pre k v mid key r post, es = pre ++ .put k v false :: (mid ++ .get key r :: post) →
        r = latest (pre ++ mid) key := by
  obtain ⟨es, q, xs, rs, hrun, -, -, hget⟩ := runFrom_tracks (N := N) hB hi hs hasher hops
  refine ⟨es, q, hrun, hget, ?_⟩
  intro pre k v mid key r post hes
  have hr := hget (pre ++ .put k v false :: mid) key r post (by rw [hes]; simp)
  rw [hr, latest, latest, List.foldl_append, List.foldl_append]
  rfl

/-- Over the code's buffer the `get`s of a run without a stale split return the latest values. -/
theorem get_returns_latest_of_noStaleSplit {dbSize : Nat} {s : FileBackedBuffer} (hi : s.Sound dbSize)
    (hs : (plainBuffer dbSize).usedBlocks s = []) (hasher : Bytes → Nat) {ops : List StoreOp}
    (hops : ∀ op ∈ ops, op.NulFree) (hns : NoStaleSplitFrom N dbSize hasher s ops) :
    ∃ es q, runFrom (N := N) (plainBuffer dbSize) hasher s ops = some (es, q) ∧
      ∀ pre key r post, es = pre ++ .get key r :: post → r = latest pre key := by
  obtain ⟨es, q, xs, rs, hrun, -, -, hget⟩ := runFrom_tracks_of_noStaleSplit hi hs hasher hops hns
  exact ⟨es, q, hrun, hget⟩

/-- Two keys in one chain, a record that is replaced, a `put` that fails for want of space, a kill, and the lookups of the next
process. -/
theorem get_returns_latest_of_reopened_chain :
    ∃ es q, runFrom (N := 1) (guardedBuffer 220) List.length (emptyFile 220 (by decide))
        [.put [97] [49], .put [98] [50], .put [97] [51], .put [98] [52, 52], .get [97], .reopen fun _ => 0, .get [97],
          .get [98], .get [99]] = some (es, q) ∧
      es = [.put [97] [49] true, .put [98] [50] true, .put [97] [51] true, .put [98] [52, 52] false, .get [97] [51],
        .opened [[97], [98]], .get [97] [51], .get [98] [50], .get [99] []] ∧
      (∀ pre key r post, es = pre ++ .get key r :: post → r = latest pre key) ∧
      ∀ pre k v mid key r post, es = pre ++ .put k v false :: (mid ++ .get key r :: post) →
        r = latest (pre ++ mid) key := by
  obtain ⟨hi, hs⟩ := emptyFile_sound 220 (by decide) (by decide)
  obtain ⟨es, q, hrun, hget⟩ := get_returns_latest (N := 1) (guardedBuffer_lawful 220) hi hs List.length
    [.put [97] [49], .put [98] [50], .put [97] [51], .put [98] [52, 52], .get [97], .reopen fun _ => 0, .get [97],
      .get [98], .get [99]] (by simp [StoreOp.NulFree])
  have hes : (runFrom (N := 1) (guardedBuffer 220) List.length (emptyFile 220 (by decide))
      [.put [97] [49], .put [98] [50], .put [97] [51], .put [98] [52, 52], .get [97], .reopen fun _ => 0, .get [97],
        .get [98], .get [99]]).map Prod.fst =
      some [.put [97] [49] true, .put [98] [50] true, .put [97] [51] true, .put [98] [52, 52] false, .get [97] [51],
        .opened [[97], [98]], .get [97] [51], .get [98] [50], .get [99] []] := by decide +kernel
  rw [hrun, Option.map_some, Option.some.injEq] at hes
  exact ⟨es, q, hrun, hes, hget⟩

/-! ### The representation in the states reached -/

/-- The table represents the map of the history `es`: each bucket is on one chain, that of the hash of its key, the chains
end, no two buckets have one key, lookups return, and an iteration visits the keys of the map once, with their values. -/
structure RepresentsMap (B : Buffer σ) (p : Process N σ) (es : List Event) : Prop where
  chains : ∃ chains : Fin N → List Nat,
    (∀ i, Linked (nextOf p.table.bucketStorage) (p.table.hashTable i) (chains i) ∧ (chains i).Nodup ∧
      ∀ j ∈ chains i, j < p.table.bucketStorage.length) ∧
    ∀ j < p.table.bucketStorage.length, ∃ key, bucketKey B p.table j = some key ∧
      ∀ i, j ∈ chains i ↔ i = hashTableIndex p.hasher key
  keys : ∀ j < p.table.bucketStorage.length, ∀ l < p.table.bucketStorage.length,
    bucketKey B p.table j = bucketKey B p.table l → j = l
  find : ∀ key, ∃ r, findBucketWithKey B p.hasher p.table key = some r
  pairs : pairs B p.table = some ((order es).map fun key => (key, latest es key))
  nodup : (order es).Nodup
  mem : ∀ key, key ∈ order es ↔ ∃ value, .put key value true ∈ es

private theorem Tracks.representsMap (h : Tracks B p es xs rs) : RepresentsMap B p es := by
  have hlen : p.table.bucketStorage.length = xs.length := by simpa using h.holds.represents.length
  have hget : ∀ j < p.table.bucketStorage.length, ∃ x, xs[j]? = some x := fun j hj =>
    ⟨_, List.getElem?_eq_getElem (by omega)⟩
  refine ⟨⟨chain ((xs.map entry).map Entry.index), fun i => ⟨?_, chain_nodup _ i, ?_⟩, ?_⟩, ?_, ?_, ?_, h.nodup, h.mem⟩
  · exact h.holds.represents.chains i
  · intro j hj
    have := (List.getElem?_eq_some_iff.1 (mem_chain.1 hj)).1
    simpa [hlen] using this
  · intro j hj
    obtain ⟨x, hx⟩ := hget j hj
    refine ⟨x.1.key, h.holds.bucketKey_eq hx, fun i => ?_⟩
    rw [mem_chain, ← h.place x (List.mem_of_getElem? hx)]
    simp [hx, entry, eq_comm]
  · intro j hj l hl hk
    obtain ⟨x, hx⟩ := hget j hj
    obtain ⟨y, hy⟩ := hget l hl
    rw [h.holds.bucketKey_eq hx, h.holds.bucketKey_eq hy] at hk
    have hnodup : (xs.map fun x => x.1.key).Nodup := h.keys ▸ h.nodup
    refine (List.getElem?_inj (by simpa [← hlen] using hj) hnodup).1 ?_
    simpa [hx, hy] using hk
  · exact fun key => ⟨_, h.holds.find p.hasher key⟩
  · apply h.holds.represents.pairs_eq
    rw [← h.keys, List.map_map, List.map_map, List.map_map]
    apply List.map_congr_left
    intro x hx
    simp [entry, h.value x hx]

theorem RepresentsMap.withAlloc (h : RepresentsMap B p es) {f : Nat → σ → Option Nat × σ} :
    RepresentsMap (B.withAlloc f) p es :=
  ⟨h.chains, h.keys, fun key => by rw [findBucketWithKey_withAlloc]; exact h.find key, h.pairs, h.nodup, h.mem⟩

/-- In every state reached the table represents the map of the history. -/
theorem represents_map (hB : B.Lawful Inv) {s : σ} (hi : Inv s) (hs : B.usedBlocks s = []) (hasher : Bytes → Nat)
    (ops : List StoreOp) (hops : ∀ op ∈ ops, op.NulFree) :
    ∃ es q, runFrom (N := N) B hasher s ops = some (es, q) ∧ RepresentsMap B q es := by
  obtain ⟨es, q, xs, rs, hrun, -, h, -⟩ := runFrom_tracks (N := N) hB hi hs hasher hops
  exact ⟨es, q, hrun, h.representsMap⟩

/-- So it does over the code's buffer where no split is stale. -/
theorem represents_map_of_noStaleSplit {dbSize : Nat} {s : FileBackedBuffer} (hi : s.Sound dbSize)
    (hs : (plainBuffer dbSize).usedBlocks s = []) (hasher : Bytes → Nat) {ops : List StoreOp}
    (hops : ∀ op ∈ ops, op.NulFree) (hns : NoStaleSplitFrom N dbSize hasher s ops) :
    ∃ es q, runFrom (N := N) (plainBuffer dbSize) hasher s ops = some (es, q) ∧ RepresentsMap (plainBuffer dbSize) q es := by
  obtain ⟨es, q, xs, rs, hrun, -, h, -⟩ := runFrom_tracks_of_noStaleSplit hi hs hasher hops hns
  exact ⟨es, q, hrun, h.representsMap.withAlloc⟩

/-- Two keys in one chain, a record that is replaced, a `put` that fails for want of space, a kill and a new key in the next
process. -/
theorem represents_map_of_reopened_chain :
    ∃ es q, runFrom (N := 1) (guardedBuffer 220) List.length (emptyFile 220 (by decide))
        [.put [97] [49], .put [98] [50], .put [97] [51], .put [98] [52, 52], .reopen fun _ => 0,
          .put [99] [53]] = some (es, q) ∧
      es = [.put [97] [49] true, .put [98] [50] true, .put [97] [51] true, .put [98] [52, 52] false,
        .opened [[97], [98]], .put [99] [53] true] ∧
      RepresentsMap (guardedBuffer 220) q es := by
  obtain ⟨hi, hs⟩ := emptyFile_sound 220 (by decide) (by decide)
  obtain ⟨es, q, hrun, hmap⟩ := represents_map (N := 1) (guardedBuffer_lawful 220) hi hs List.length
    [.put [97] [49], .put [98] [50], .put [97] [51], .put [98] [52, 52], .reopen fun _ => 0,
      .put [99] [53]] (by simp [StoreOp.NulFree])
  have hes : (runFrom (N := 1) (guardedBuffer 220) List.length (emptyFile 220 (by decide))
      [.put [97] [49], .put [98] [50], .put [97] [51], .put [98] [52, 52], .reopen fun _ => 0,
        .put [99] [53]]).map Prod.fst =
      some [.put [97] [49] true, .put [98] [50] true, .put [97] [51] true, .put [98] [52, 52] false,
        .opened [[97], [98]], .put [99] [53] true] := by decide +kernel
  rw [hrun, Option.map_some, Option.some.injEq] at hes
  exact ⟨es, q, hrun, hes, hmap⟩

end KeyValueStore
