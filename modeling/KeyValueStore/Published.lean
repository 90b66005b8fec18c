import KeyValueStore.Ownership

/-!
# The published buckets

The buckets that are linked in the chains hold one record each, and the map of the log is what a search from the heads of
the chains finds (`Published`).  Only three steps change this: a new bucket is made, a record pointer is stored, and a
bucket is linked; all others are quiet (`Quiet`).  A chain grows at its front, the key of a linked bucket never changes, and
a bucket that is found stays the one that is found (`Grows`).
-/

namespace KeyValueStore

open SinglyLinked ConcurrentHashTable

variable {N : Nat} {σ : Type} {B : Buffer σ} {hasher : Bytes → Nat} {sh sh' : Shared N σ} {i : Nat} {r : Request}
  {pc pc' : Pc} {chains chains' : Fin N → List Nat}

/-- The record of a bucket. -/
def Shared.recordAt (sh : Shared N σ) (b : Nat) : Option Record :=
  (sh.loadPointer b).bind fun c => sh.controls[c]?.map Control.record

/-- The key of a bucket. -/
def Shared.keyAt (sh : Shared N σ) (b : Nat) : Option Bytes := (sh.recordAt b).map Record.key

/-- The first of the buckets that has the key. -/
def Shared.bucketIn (sh : Shared N σ) (l : List Nat) (key : Bytes) : Option Nat := l.find? fun b => sh.keyAt b = some key

theorem bucketIn_congr {l : List Nat} (h : ∀ b ∈ l, sh'.keyAt b = sh.keyAt b) (key : Bytes) :
    sh'.bucketIn l key = sh.bucketIn l key :=
  List.find?_congr fun b hb => by rw [h b hb]

theorem bucketIn_eq_some {l : List Nat} {key : Bytes} {b : Nat} (h : sh.bucketIn l key = some b) :
    b ∈ l ∧ sh.keyAt b = some key := by
  have hk := List.find?_some h
  exact ⟨List.mem_of_find?_eq_some h, of_decide_eq_true hk⟩

theorem bucketIn_eq_none {l : List Nat} {key : Bytes} :
    sh.bucketIn l key = none ↔ ∀ b ∈ l, sh.keyAt b ≠ some key := by
  simp [Shared.bucketIn]

theorem bucketIn_cons (sh : Shared N σ) (b : Nat) (l : List Nat) (key : Bytes) :
    sh.bucketIn (b :: l) key = if sh.keyAt b = some key then some b else sh.bucketIn l key := by
  rw [Shared.bucketIn, List.find?_cons]
  split <;> simp_all [Shared.bucketIn]

theorem mapOf_concat (log : List LogEntry) (e : LogEntry) (key : Bytes) :
    mapOf (log ++ [e]) key = if e.key = key then e.value else mapOf log key := by
  rw [mapOf, List.filter_append]
  by_cases hk : e.key = key
  · simp [hk]
  · simp [hk, mapOf]

/-! ### Quiet steps -/

/-- The step changes use counts, the file and the mutex only. -/
structure Quiet (sh sh' : Shared N σ) : Prop where
  hashTable : sh'.hashTable = sh.hashTable
  bucketStorage : sh'.bucketStorage = sh.bucketStorage
  records : sh'.controls.map Control.record = sh.controls.map Control.record
  log : sh'.log = sh.log

theorem Quiet.refl (sh : Shared N σ) : Quiet sh sh := ⟨rfl, rfl, rfl, rfl⟩

theorem Quiet.loadPointer (h : Quiet sh sh') (b : Nat) : sh'.loadPointer b = sh.loadPointer b := by
  rw [Shared.loadPointer, Shared.loadPointer, h.bucketStorage]

theorem Quiet.record (h : Quiet sh sh') (c : Nat) :
    sh'.controls[c]?.map Control.record = sh.controls[c]?.map Control.record := by
  rw [← List.getElem?_map, ← List.getElem?_map, h.records]

theorem Quiet.recordAt (h : Quiet sh sh') (b : Nat) : sh'.recordAt b = sh.recordAt b := by
  simp only [Shared.recordAt, h.loadPointer, h.record]

theorem Quiet.keyAt (h : Quiet sh sh') (b : Nat) : sh'.keyAt b = sh.keyAt b := by
  rw [Shared.keyAt, Shared.keyAt, h.recordAt]

theorem Quiet.bucketIn (h : Quiet sh sh') (l : List Nat) (key : Bytes) : sh'.bucketIn l key = sh.bucketIn l key :=
  bucketIn_congr (fun b _ => h.keyAt b) key

private theorem quiet_acquire (sh : Shared N σ) (c : Nat) : Quiet sh (sh.acquire c) := by
  refine ⟨rfl, rfl, ?_, rfl⟩
  apply List.ext_getElem?
  intro j
  rw [Shared.acquire, List.getElem?_map, List.getElem?_map, List.getElem?_modify]
  cases sh.controls[j]? with
  | none => rfl
  | some x => by_cases hc : c = j <;> simp [hc]

theorem quiet_release (B : Buffer σ) (sh : Shared N σ) (c : Nat) : Quiet sh (sh.release B c) := by
  cases hx : sh.controls[c]? with
  | none => rw [Shared.release, hx]; exact Quiet.refl sh
  | some x =>
    refine ⟨release_hashTable B sh c, release_bucketStorage B sh c, ?_, by rw [Shared.release, hx]⟩
    obtain ⟨hc, rfl⟩ := List.getElem?_eq_some_iff.1 hx
    rw [release_controls B hx, List.map_set]
    apply List.ext_getElem?
    intro j
    by_cases hj : c = j
    · subst hj
      simp [hc]
    · rw [List.getElem?_set_ne hj]

/-! ### The records of the buckets -/

theorem lt_of_recordAt {b : Nat} {rec : Record} (h : sh.recordAt b = some rec) : b < sh.bucketStorage.length := by
  obtain ⟨c, hc, -⟩ := Option.bind_eq_some_iff.1 h
  obtain ⟨bucket, hb, -⟩ := Option.bind_eq_some_iff.1 hc
  exact (List.getElem?_eq_some_iff.1 hb).1

private theorem recordAt_newBucket (sh : Shared N σ) (b : Nat) :
    ({ sh with bucketStorage := sh.bucketStorage ++ [⟨none, none⟩] } : Shared N σ).recordAt b = sh.recordAt b := by
  rw [Shared.recordAt, newBucket_loadPointer]
  rfl

theorem keyAt_newBucket (sh : Shared N σ) (b : Nat) :
    ({ sh with bucketStorage := sh.bucketStorage ++ [⟨none, none⟩] } : Shared N σ).keyAt b = sh.keyAt b := by
  rw [Shared.keyAt, recordAt_newBucket]
  rfl

/-- The records after the store. -/
theorem recordAt_exchange (hlt : ∀ b c, sh.loadPointer b = some c → c < sh.controls.length) {b : Nat}
    (hb : b < sh.bucketStorage.length) (p b' : Nat) :
    (sh.exchange B r p b).recordAt b' = if b = b' then some (sh.newControl B r p).record else sh.recordAt b' := by
  rw [Shared.recordAt, exchange_loadPointer B hb r p b']
  split
  · simp [Shared.exchange]
  · rw [Shared.recordAt]
    cases hc : sh.loadPointer b' with
    | none => rfl
    | some c =>
      rw [Option.bind_some, Option.bind_some, Shared.exchange, List.getElem?_append_left (hlt b' c hc)]

theorem keyAt_exchange (hlt : ∀ b c, sh.loadPointer b = some c → c < sh.controls.length) {b : Nat}
    (hb : b < sh.bucketStorage.length) (p b' : Nat) :
    (sh.exchange B r p b).keyAt b' = if b = b' then some r.key else sh.keyAt b' := by
  rw [Shared.keyAt, recordAt_exchange hlt hb]
  split <;> rfl

/-- The record has the key of the bucket. -/
theorem keyAt_exchange_of_eq (hlt : ∀ b c, sh.loadPointer b = some c → c < sh.controls.length) {b : Nat}
    (hb : b < sh.bucketStorage.length) (hk : sh.keyAt b = some r.key) (p b' : Nat) :
    (sh.exchange B r p b).keyAt b' = sh.keyAt b' := by
  rw [keyAt_exchange hlt hb]
  split
  · rename_i hbb
    rw [← hbb, hk]
  · rfl

private theorem nextOf_exchange (B : Buffer σ) (sh : Shared N σ) (r : Request) (p b b' : Nat) :
    nextOf (sh.exchange B r p b).bucketStorage b' = nextOf sh.bucketStorage b' := by
  rw [Shared.exchange, nextOf, nextOf, List.getElem?_modify]
  cases sh.bucketStorage[b']? with
  | none => rfl
  | some bucket => by_cases hb : b = b' <;> simp [hb]

private theorem exchange_record (B : Buffer σ) (sh : Shared N σ) (r : Request) (p b : Nat) {c : Nat} {rec : Record}
    (h : sh.controls[c]?.map Control.record = some rec) :
    (sh.exchange B r p b).controls[c]?.map Control.record = some rec := by
  obtain ⟨x, hx, rfl⟩ := Option.map_eq_some_iff.1 h
  rw [Shared.exchange, List.getElem?_append_left (List.getElem?_eq_some_iff.1 hx).1, hx, Option.map_some]

variable [NeZero N]

private theorem recordAt_link (sh : Shared N σ) (key : Bytes) (b b' : Nat) :
    (sh.link hasher key b).recordAt b' = sh.recordAt b' := by
  rw [Shared.recordAt, link_loadPointer]
  rfl

/-- The chains when the bucket is linked. -/
def linkedChains (hasher : Bytes → Nat) (chains : Fin N → List Nat) (key : Bytes) (b : Nat) : Fin N → List Nat :=
  Function.update chains (hashTableIndex hasher key) (b :: chains (hashTableIndex hasher key))

theorem mem_linkedChains {key : Bytes} {b b' : Nat} {x : Fin N} :
    b' ∈ linkedChains hasher chains key b x ↔ (b' = b ∧ x = hashTableIndex hasher key) ∨ b' ∈ chains x := by
  rw [linkedChains, Function.update_apply]
  by_cases hx : x = hashTableIndex hasher key
  · rw [if_pos hx, hx, List.mem_cons]
    simp
  · rw [if_neg hx]
    simp [hx]

theorem keyAt_link (sh : Shared N σ) (key : Bytes) (b b' : Nat) : (sh.link hasher key b).keyAt b' = sh.keyAt b' := by
  rw [Shared.keyAt, Shared.keyAt, recordAt_link]

private theorem nextOf_link (sh : Shared N σ) (key : Bytes) (b b' : Nat) (hb : b < sh.bucketStorage.length) :
    nextOf (sh.link hasher key b).bucketStorage b' =
      if b = b' then sh.hashTable (hashTableIndex hasher key) else nextOf sh.bucketStorage b' := by
  rw [Shared.link, nextOf, nextOf]
  split
  · rename_i hbb
    subst hbb
    rw [List.getElem?_modify_eq, List.getElem?_eq_getElem hb]
    rfl
  · rename_i hbb
    rw [List.getElem?_modify_ne _ _ hbb]

/-- The next step makes a bucket, stores a record pointer or links a bucket. -/
def Pc.Publishes : Pc → Prop
  | .found (some _) none => True
  | .setPointer _ _ _ => True
  | .storeBucket _ => True
  | _ => False

theorem critical_of_publishes (h : pc.Publishes) : pc.Critical := by
  cases pc with
  | found block bucket =>
    rcases block with _ | p
    · cases bucket <;> cases h
    · exact critical_of_block rfl
  | setPointer => exact critical_of_block rfl
  | storeBucket => trivial
  | _ => cases h

theorem fires_quiet (h : Fires B hasher sh i r pc sh' pc') (hp : ¬ pc.Publishes) : Quiet sh sh' := by
  cases h with
  | load hc => exact quiet_acquire sh _
  | hit hc => exact quiet_acquire sh _
  | dropCompared => exact quiet_release B sh _
  | dropRead => exact quiet_release B sh _
  | dropOld => exact quiet_release B sh _
  | newBucket => exact absurd trivial hp
  | setFresh => exact absurd trivial hp
  | setOld => exact absurd trivial hp
  | storeBucket => exact absurd trivial hp
  | _ => exact ⟨rfl, rfl, rfl, rfl⟩

/-- The steps that publish. -/
theorem fires_publishes (h : Fires B hasher sh i r pc sh' pc') (hp : pc.Publishes) :
    (∃ p, pc = .found (some p) none ∧ pc' = .copyKey p sh.bucketStorage.length true ∧
        sh' = { sh with bucketStorage := sh.bucketStorage ++ [⟨none, none⟩] }) ∨
      (∃ p b isNew, pc = .setPointer p b isNew ∧
        (pc' = Shared.afterSet b isNew ∧ sh.loadPointer b = none ∨ ∃ c, pc' = .dropOld c b isNew ∧
          sh.loadPointer b = some c) ∧
        sh' = { sh.exchange B r p b with log := if isNew then sh.log else sh.log ++ [⟨some i, r.key, r.value⟩] }) ∨
      ∃ b, pc = .storeBucket b ∧ pc' = .unlock true ∧
        sh' = { sh.link hasher r.key b with log := sh.log ++ [⟨some i, r.key, r.value⟩] } := by
  cases h with
  | newBucket => exact Or.inl ⟨_, rfl, rfl, rfl⟩
  | setFresh hb => exact Or.inr (Or.inl ⟨_, _, _, rfl, Or.inl ⟨rfl, hb⟩, rfl⟩)
  | setOld hb => exact Or.inr (Or.inl ⟨_, _, _, rfl, Or.inr ⟨_, rfl, hb⟩, rfl⟩)
  | storeBucket => exact Or.inr (Or.inr ⟨_, rfl, rfl, rfl⟩)
  | _ => cases hp

/-! ### The chains -/

/-- The chains are linked, their buckets hold records of their places, and the map of the log is what a search finds. -/
structure Published (hasher : Bytes → Nat) (sh : Shared N σ) (chains : Fin N → List Nat) : Prop where
  linked : ∀ x, Linked (nextOf sh.bucketStorage) (sh.hashTable x) (chains x)
  record : ∀ x, ∀ b ∈ chains x, ∃ rec, sh.recordAt b = some rec ∧ hashTableIndex hasher rec.key = x
  map : ∀ key, mapOf sh.log key =
    ((sh.bucketIn (chains (hashTableIndex hasher key)) key).bind sh.recordAt).elim [] Record.value

theorem Published.quiet (h : Published hasher sh chains) (hq : Quiet sh sh') : Published hasher sh' chains := by
  refine ⟨fun x => ?_, fun x b hb => ?_, fun key => ?_⟩
  · rw [hq.bucketStorage, hq.hashTable]
    exact h.linked x
  · rw [hq.recordAt]
    exact h.record x b hb
  · rw [hq.log, hq.bucketIn, h.map key, funext hq.recordAt]

theorem Published.lt (h : Published hasher sh chains) {x : Fin N} {b : Nat} (hb : b ∈ chains x) :
    b < sh.bucketStorage.length := by
  obtain ⟨rec, hrec, -⟩ := h.record x b hb
  exact lt_of_recordAt hrec

/-- A linked bucket with the key is on the chain of the key. -/
theorem Published.index (h : Published hasher sh chains) {x : Fin N} {b : Nat} (hb : b ∈ chains x) {key : Bytes}
    (hk : sh.keyAt b = some key) : x = hashTableIndex hasher key := by
  obtain ⟨rec, hrec, rfl⟩ := h.record x b hb
  rw [Shared.keyAt, hrec, Option.map_some] at hk
  rw [← Option.some.inj hk]

/-- The value of the map is in the bucket that is found. -/
theorem Published.map_of_found (h : Published hasher sh chains) {key : Bytes} {b : Nat} {rec : Record}
    (hb : sh.bucketIn (chains (hashTableIndex hasher key)) key = some b) (hrec : sh.recordAt b = some rec) :
    mapOf sh.log key = rec.value := by
  rw [h.map key, hb, Option.bind_some, hrec, Option.elim_some]

theorem Published.map_of_absent (h : Published hasher sh chains) {key : Bytes}
    (hb : sh.bucketIn (chains (hashTableIndex hasher key)) key = none) : mapOf sh.log key = [] := by
  rw [h.map key, hb, Option.bind_none, Option.elim_none]

/-! ### A new bucket -/

theorem Published.newBucket (h : Published hasher sh chains) :
    Published hasher { sh with bucketStorage := sh.bucketStorage ++ [⟨none, none⟩] } chains := by
  refine ⟨fun x => (h.linked x).congr fun b hb => ?_, fun x b hb => ?_, fun key => ?_⟩
  · rw [nextOf, nextOf, List.getElem?_append_left (h.lt hb)]
  · rw [recordAt_newBucket]
    exact h.record x b hb
  · rw [bucketIn_congr fun b _ => keyAt_newBucket sh b, funext (recordAt_newBucket sh)]
    exact h.map key

/-! ### A record pointer is stored -/

/-- A bucket that is not linked gets its first record. -/
theorem Published.fill (h : Published hasher sh chains) (hlt : ∀ b c, sh.loadPointer b = some c → c < sh.controls.length)
    {b : Nat} (hb : b < sh.bucketStorage.length) (hout : ∀ x, b ∉ chains x) (p : Nat) :
    Published hasher (sh.exchange B r p b) chains := by
  -- the bucket is on no chain, so what is linked stays as it is
  have hrecord : ∀ {x : Fin N} {b' : Nat}, b' ∈ chains x → (sh.exchange B r p b).recordAt b' = sh.recordAt b' :=
    fun {x b'} hb' => by rw [recordAt_exchange hlt hb, if_neg fun (e : b = b') => hout x (e ▸ hb')]
  have hkey : ∀ {x : Fin N} {b' : Nat}, b' ∈ chains x → (sh.exchange B r p b).keyAt b' = sh.keyAt b' :=
    fun hb' => by rw [Shared.keyAt, hrecord hb', Shared.keyAt]
  refine ⟨fun x => (h.linked x).congr fun b' _ => nextOf_exchange B sh r p b b', fun x b' hb' => ?_, fun key => ?_⟩
  · rw [hrecord hb']
    exact h.record x b' hb'
  · rw [bucketIn_congr fun b' hb' => hkey hb']
    apply (h.map key).trans
    cases hfound : sh.bucketIn (chains (hashTableIndex hasher key)) key with
    | none => rfl
    | some b' => rw [Option.bind_some, Option.bind_some, hrecord (bucketIn_eq_some hfound).1]

/-- A linked bucket gets a new record of its key. -/
theorem Published.replace (h : Published hasher sh chains)
    (hlt : ∀ b c, sh.loadPointer b = some c → c < sh.controls.length) {b : Nat}
    (hb : sh.bucketIn (chains (hashTableIndex hasher r.key)) r.key = some b) (p : Nat) :
    Published hasher { sh.exchange B r p b with log := sh.log ++ [⟨some i, r.key, r.value⟩] } chains := by
  obtain ⟨hmem, hk⟩ := bucketIn_eq_some hb
  have hrecord : ∀ b', (sh.exchange B r p b).recordAt b' = if b = b' then some (sh.newControl B r p).record
      else sh.recordAt b' := recordAt_exchange hlt (h.lt hmem) p
  have hkey : ∀ b', (sh.exchange B r p b).keyAt b' = sh.keyAt b' := keyAt_exchange_of_eq hlt (h.lt hmem) hk p
  refine ⟨fun x => (h.linked x).congr fun b' _ => nextOf_exchange B sh r p b b', fun x b' hb' => ?_, fun key => ?_⟩
  · show ∃ rec, (sh.exchange B r p b).recordAt b' = some rec ∧ _
    rw [hrecord]
    split
    · rename_i hbb
      subst hbb
      exact ⟨_, rfl, (h.index hb' hk).symm⟩
    · exact h.record x b' hb'
  · show mapOf (sh.log ++ _) key = (((sh.exchange B r p b).bucketIn _ key).bind (sh.exchange B r p b).recordAt).elim _ _
    rw [mapOf_concat, bucketIn_congr fun b' _ => hkey b']
    by_cases hrk : r.key = key
    · subst hrk
      rw [if_pos rfl, hb, Option.bind_some, hrecord, if_pos rfl]
      rfl
    · rw [if_neg hrk, h.map key]
      cases hfound : sh.bucketIn (chains (hashTableIndex hasher key)) key with
      | none => rfl
      | some b' =>
        -- another key is found in another bucket
        have hne : b ≠ b' := by
          rintro rfl
          exact hrk (Option.some.inj (hk.symm.trans (bucketIn_eq_some hfound).2))
        rw [Option.bind_some, Option.bind_some, hrecord, if_neg hne]

/-! ### A bucket is linked -/

private theorem bucketIn_link (sh : Shared N σ) (chains : Fin N → List Nat) {b : Nat} (hk : sh.keyAt b = some r.key)
    (key : Bytes) :
    (sh.link hasher r.key b).bucketIn (linkedChains hasher chains r.key b (hashTableIndex hasher key)) key =
      if r.key = key then some b else sh.bucketIn (chains (hashTableIndex hasher key)) key := by
  rw [bucketIn_congr fun b' _ => keyAt_link sh r.key b b', linkedChains, Function.update_apply]
  by_cases hx : hashTableIndex (N := N) hasher key = hashTableIndex hasher r.key
  · rw [if_pos hx, bucketIn_cons, hk, hx]
    simp
  · have hne : r.key ≠ key := fun e => hx (by rw [e])
    rw [if_neg hx, if_neg hne]

theorem Published.link (h : Published hasher sh chains) {b : Nat} (hout : ∀ x, b ∉ chains x) {rec : Record}
    (hrec : sh.recordAt b = some rec) (hk : rec.key = r.key) (hv : rec.value = r.value) :
    Published hasher { sh.link hasher r.key b with log := sh.log ++ [⟨some i, r.key, r.value⟩] }
      (linkedChains hasher chains r.key b) := by
  have hb := lt_of_recordAt hrec
  have hkb : sh.keyAt b = some r.key := by rw [Shared.keyAt, hrec, Option.map_some, hk]
  refine ⟨fun x => ?_, fun x b' hb' => ?_, fun key => ?_⟩
  · have hrest : Linked (nextOf (sh.link hasher r.key b).bucketStorage) (sh.hashTable x) (chains x) := by
      apply (h.linked x).congr
      intro b' hb'
      rw [nextOf_link sh r.key b b' hb, if_neg fun (e : b = b') => hout x (e ▸ hb')]
    show Linked _ (Function.update sh.hashTable (hashTableIndex hasher r.key) (some b) x) _
    by_cases hx : x = hashTableIndex hasher r.key
    · subst hx
      have hnext : nextOf (sh.link hasher r.key b).bucketStorage b = sh.hashTable (hashTableIndex hasher r.key) := by
        rw [nextOf_link sh r.key b b hb, if_pos rfl]
      rw [linkedChains, Function.update_self, Function.update_self]
      exact ⟨rfl, hnext ▸ hrest⟩
    · rw [linkedChains, Function.update_of_ne hx, Function.update_of_ne hx]
      exact hrest
  · show ∃ rec', (sh.link hasher r.key b).recordAt b' = some rec' ∧ _
    rw [recordAt_link]
    rcases mem_linkedChains.1 hb' with ⟨rfl, rfl⟩ | hb'
    · exact ⟨rec, hrec, by rw [hk]⟩
    · exact h.record x b' hb'
  · show mapOf (sh.log ++ _) key = (((sh.link hasher r.key b).bucketIn _ key).bind
      (sh.link hasher r.key b).recordAt).elim _ _
    rw [mapOf_concat, bucketIn_link sh chains hkb, funext (recordAt_link sh r.key b)]
    by_cases hrk : r.key = key
    · rw [if_pos hrk, if_pos hrk, Option.bind_some, hrec]
      exact hv.symm
    · rw [if_neg hrk, if_neg hrk]
      exact h.map key

/-! ### What stays -/

/-- Buckets are linked in front of their chains, linked buckets keep their keys, what a search finds it finds again, and
control blocks keep their records. -/
structure Grows (hasher : Bytes → Nat) (sh sh' : Shared N σ) (chains chains' : Fin N → List Nat) : Prop where
  chain : ∀ x, ∃ l, chains' x = l ++ chains x
  key : ∀ x, ∀ b ∈ chains x, sh'.keyAt b = sh.keyAt b
  found : ∀ key b, sh.bucketIn (chains (hashTableIndex hasher key)) key = some b →
    sh'.bucketIn (chains' (hashTableIndex hasher key)) key = some b
  record : ∀ (c : Nat) (rec : Record), sh.controls[c]?.map Control.record = some rec →
    sh'.controls[c]?.map Control.record = some rec
  log : sh.log <+: sh'.log

theorem grows_newBucket (hasher : Bytes → Nat) (sh : Shared N σ) (chains : Fin N → List Nat) :
    Grows hasher sh { sh with bucketStorage := sh.bucketStorage ++ [⟨none, none⟩] } chains chains := by
  refine ⟨fun _ => ⟨[], rfl⟩, fun _ b _ => keyAt_newBucket sh b, fun key b h => ?_, fun _ _ h => h, List.prefix_rfl⟩
  rw [bucketIn_congr fun b _ => keyAt_newBucket sh b]
  exact h

theorem grows_exchange (hlt : ∀ b c, sh.loadPointer b = some c → c < sh.controls.length) {b : Nat}
    (hb : b < sh.bucketStorage.length) (hk : ∀ x, b ∈ chains x → sh.keyAt b = some r.key) (p : Nat)
    {log : List LogEntry} (hlog : sh.log <+: log) :
    Grows hasher sh { sh.exchange B r p b with log := log } chains chains := by
  have hkey : ∀ x, ∀ b' ∈ chains x, (sh.exchange B r p b).keyAt b' = sh.keyAt b' := by
    intro x b' hb'
    rw [keyAt_exchange hlt hb]
    split
    · rename_i hbb
      subst hbb
      exact (hk x hb').symm
    · rfl
  refine ⟨fun _ => ⟨[], rfl⟩, hkey, fun key b' h => ?_, fun c rec h => exchange_record B sh r p b h, hlog⟩
  exact (bucketIn_congr (fun b' hb' => hkey _ b' hb') key).trans h

theorem grows_link (sh : Shared N σ) (chains : Fin N → List Nat) {b : Nat} (hk : sh.keyAt b = some r.key)
    (hno : sh.bucketIn (chains (hashTableIndex hasher r.key)) r.key = none) (e : LogEntry) :
    Grows hasher sh { sh.link hasher r.key b with log := sh.log ++ [e] } chains (linkedChains hasher chains r.key b) := by
  refine ⟨fun x => ?_, fun x b' _ => keyAt_link sh r.key b b', fun key b' h => ?_, fun c rec h => h,
    List.prefix_append _ _⟩
  · rw [linkedChains, Function.update_apply]
    split
    · rename_i hx
      exact ⟨[b], by rw [hx]; rfl⟩
    · exact ⟨[], rfl⟩
  · apply (bucketIn_link sh chains hk key).trans
    rw [if_neg, h]
    rintro rfl
    rw [h] at hno
    cases hno

end KeyValueStore
