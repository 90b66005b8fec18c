import KeyValueStore.Rest

/-!
# Calls one after another

A call that runs while no other one is in progress does what the function of the sequential program does: each step changes
the table as the statement that it models (`table_link`, `table_set_fresh` and the like), a search returns the bucket that
the loop finds and leaves the store as it was (`search_alone`), and a `put` frees at once the record that it replaces.  So
a store that is used by one call at a time returns what the sequential program returns, and keeps its table
(`one_by_one_sequential`).
-/

namespace KeyValueStore

open SinglyLinked ConcurrentHashTable References

variable {N : Nat} [NeZero N] {σ : Type} {B : Buffer σ} {Inv : σ → Prop} {hasher : Bytes → Nat} {s s' : State N σ}
  {sh sh' : Shared N σ} {i : Nat} {r : Request} {pc pc' : Pc} {chains : Fin N → List Nat} {file : σ} {rs : List Record}
  {key value : Bytes} {b c p : Nat} {block : Option Nat}

/-- The call runs, and no other one does. -/
def Alone (B : Buffer σ) (hasher : Bytes → Nat) (i : Nat) (r : Request) : Shared N σ × Pc → Shared N σ × Pc → Prop :=
  Relation.ReflTransGen fun x y => x.1.step B hasher i r x.2 = some y

theorem Alone.step (h : sh.step B hasher i r pc = some (sh', pc')) : Alone B hasher i r (sh, pc) (sh', pc') :=
  Relation.ReflTransGen.single h

/-! ### The table after a step -/

omit [NeZero N] in
private theorem table_newBucket (sh : Shared N σ) :
    ({ sh with bucketStorage := sh.bucketStorage ++ [⟨none, none⟩] } : Shared N σ).table = (getNewBucket sh.table).2 := by
  simp only [Shared.table, getNewBucket, List.map_append]
  rfl

private theorem map_modify {α β : Type} {f : α → α} (f' : β → β) {g : α → β} (h : ∀ a, g (f a) = f' (g a)) (l : List α)
    (j : Nat) : (l.modify j f).map g = (l.map g).modify j f' := by
  induction l generalizing j with
  | nil => simp
  | cons a l ih =>
    cases j with
    | zero => simp [h]
    | succ j => simp [ih]

private theorem table_link (sh : Shared N σ) (key : Bytes) (b : Nat) :
    (sh.link hasher key b).table = ConcurrentHashTable.storeBucket sh.table b (hashTableIndex hasher key) := by
  simp only [Shared.table, ConcurrentHashTable.storeBucket, ConcurrentHashTable.mk.injEq]
  refine ⟨rfl, ?_, rfl⟩
  rw [Shared.link]
  apply map_modify
  exact fun _ => rfl

omit [NeZero N] in
private theorem table_exchange (hlt : ∀ b c, sh.loadPointer b = some c → c < sh.controls.length) (r : Request) (p b : Nat) :
    (sh.exchange B r p b).table = { sh.table with
      bucketStorage := sh.table.bucketStorage.modify b fun b => { b with keyValueData := some p } } := by
  simp only [Shared.table, ConcurrentHashTable.mk.injEq]
  refine ⟨rfl, ?_, rfl⟩
  have hset : (some sh.controls.length).bind (sh.exchange B r p b).address = some p := by
    simp [Shared.address, Shared.exchange, Shared.newControl]
  refine (map_modify (fun b : Bucket => { b with keyValueData := some p })
    (fun bucket => congrArg (Bucket.mk bucket.nextBucket) hset) _ b).trans ?_
  -- the other pointers are those of old control blocks
  congr 1
  apply List.map_congr_left
  intro bucket hbucket
  obtain ⟨j, hj⟩ := List.mem_iff_getElem?.1 hbucket
  cases hc : bucket.keyValueData with
  | none => rfl
  | some c =>
    have hclt := hlt j c (by rw [Shared.loadPointer, hj, Option.bind_some, hc])
    simp only [Option.bind_some, Shared.address, Shared.exchange]
    rw [List.getElem?_append_left hclt]

omit [NeZero N] in
private theorem address_release (B : Buffer σ) (sh : Shared N σ) (c : Nat) : (sh.release B c).address = sh.address := by
  funext c'
  have h := (quiet_release B sh c).record c'
  have hdata := congrArg (Option.map Record.data) h
  rw [Option.map_map, Option.map_map] at hdata
  exact hdata

omit [NeZero N] in
private theorem table_release (B : Buffer σ) {x : Control} (hx : sh.controls[c]? = some x) (hone : x.useCount = 1) :
    (sh.release B c).table = { sh.table with buffer := B.free x.record.data sh.buffer } := by
  rw [Shared.table, address_release, release_bucketStorage, release_hashTable]
  simp only [Shared.table, ConcurrentHashTable.mk.injEq, and_true]
  rw [Shared.release, hx]
  simp [hone]

omit [NeZero N] in
private theorem release_acquire (B : Buffer σ) {x : Control} (hx : sh.controls[c]? = some x) (hlive : x.useCount ≠ 0) :
    (sh.acquire c).release B c = sh := by
  have hget : (sh.acquire c).controls[c]? = some { x with useCount := x.useCount + 1 } := by
    rw [Shared.acquire, List.getElem?_modify, hx]
    simp
  have hcontrols : (sh.acquire c).controls.set c x = sh.controls := by
    obtain ⟨hc, rfl⟩ := List.getElem?_eq_some_iff.1 hx
    rw [Shared.acquire, List.modify_eq_set_getElem?, hx]
    simp
  have hne : ¬ x.useCount + 1 = 1 := by omega
  rw [Shared.release, hget]
  simp only [Nat.add_sub_cancel, hcontrols, if_neg hne]
  rfl

/-! ### A search -/

/-- The bucket has a record that is read in the file. -/
def Readable (B : Buffer σ) (sh : Shared N σ) (b : Nat) : Prop :=
  ∃ c x, sh.loadPointer b = some c ∧ sh.controls[c]? = some x ∧ x.useCount ≠ 0 ∧
    string B sh.buffer x.record.data = some x.record.key ∧
    string B sh.buffer (x.record.data + x.record.key.length + 1) = some x.record.value

private theorem search_loop {l l' : List Nat} (hl : l = b :: l') (hlink : Linked (nextOf sh.bucketStorage) (some b) l)
    (hread : ∀ b ∈ l, Readable B sh b) :
    Alone B hasher i r (sh, .findLoad block b) (sh, .found block (sh.bucketIn l r.key)) := by
  induction l generalizing b l' with
  | nil => cases hl
  | cons x xs ih =>
    obtain ⟨rfl, rfl⟩ := List.cons.inj hl
    obtain ⟨c, y, hc, hy, hlive, hk, -⟩ := hread x (List.mem_cons_self ..)
    have hkey : sh.keyAt x = some y.record.key := by rw [Shared.keyAt, Shared.recordAt, hc, Option.bind_some, hy]; rfl
    have hload : Alone B hasher i r (sh, .findLoad block x) (sh.acquire c, .findCompare block x c) := by
      apply Alone.step
      simp only [Shared.step, hc]
      rfl
    have hstring : (sh.acquire c).keyString B c = some y.record.key := by
      rw [Shared.keyString, Shared.acquire, List.getElem?_modify, hy]
      simpa using hk
    have hcompare : Alone B hasher i r (sh.acquire c, .findCompare block x c)
        (sh.acquire c, .findDrop block x c (r.key = y.record.key)) := by
      apply Alone.step
      simp only [Shared.step, hstring]
      rfl
    have hdrop : Alone B hasher i r (sh.acquire c, .findDrop block x c (r.key = y.record.key))
        (sh, if r.key = y.record.key then .found block (some x) else .findNext block x) := by
      apply Alone.step
      simp only [Shared.step, release_acquire B hy hlive, decide_eq_true_eq]
    have hturn := (hload.trans hcompare).trans hdrop
    rw [bucketIn_cons, hkey]
    by_cases hrk : r.key = y.record.key
    · rw [if_pos hrk] at hturn
      rw [if_pos (congrArg some hrk.symm)]
      exact hturn
    · rw [if_neg hrk] at hturn
      rw [if_neg fun e => hrk (Option.some.inj e).symm]
      refine hturn.trans ?_
      obtain ⟨bucket, hb, -⟩ := Option.bind_eq_some_iff.1 hc
      have hnext := hlink.2
      rw [nextOf, hb, Option.bind_some] at hnext
      cases xs with
      | nil =>
        have hnone : bucket.nextBucket = none := hnext
        apply Alone.step
        simp only [Shared.step, hb, Option.bind_eq_bind, Option.bind_some, hnone]
        rfl
      | cons z zs =>
        have hsome : bucket.nextBucket = some z := hnext.1
        rw [hsome] at hnext
        have hmove : Alone B hasher i r (sh, .findNext block x) (sh, .findLoad block z) := by
          apply Alone.step
          simp only [Shared.step, hb, Option.bind_eq_bind, Option.bind_some, hsome]
          rfl
        exact hmove.trans (ih rfl hnext fun b hb => hread b (List.mem_cons_of_mem _ hb))

private theorem search_alone (hp : Published hasher sh chains)
    (hread : ∀ x, ∀ b ∈ chains x, Readable B sh b) :
    Alone B hasher i r (sh, sh.loadHead hasher r.key block)
      (sh, .found block (sh.bucketIn (chains (hashTableIndex hasher r.key)) r.key)) := by
  have hl := hp.linked (hashTableIndex hasher r.key)
  unfold Shared.loadHead
  cases hc : chains (hashTableIndex hasher r.key) with
  | nil =>
    rw [hc] at hl
    have hnone : sh.hashTable (hashTableIndex hasher r.key) = none := hl
    rw [hnone]
    exact Relation.ReflTransGen.refl
  | cons b l =>
    rw [hc] at hl
    have hhead := hl.1
    rw [hhead] at hl ⊢
    exact search_loop rfl hl fun b' hb' => hread _ b' (hc ▸ hb')

/-! ### The store of a record pointer -/

omit [NeZero N] in
/-- `KeyValuePair::set` of a bucket without record. -/
private theorem table_set_fresh (hlt : ∀ b c, sh.loadPointer b = some c → c < sh.controls.length)
    (hb : sh.loadPointer b = none) :
    (sh.exchange B r p b).table = ConcurrentHashTable.setPointer B sh.table b p := by
  have hold : (sh.table.bucketStorage[b]?.bind Bucket.keyValueData) = none := by
    rw [data_table, Shared.recordAt, hb]
    rfl
  rw [table_exchange hlt]
  simp only [ConcurrentHashTable.setPointer, hold]

omit [NeZero N] in
/-- `KeyValuePair::set` of a bucket whose record nobody else holds. -/
private theorem table_set_old (hlt : ∀ b c, sh.loadPointer b = some c → c < sh.controls.length)
    (hb : sh.loadPointer b = some c) {x : Control} (hx : sh.controls[c]? = some x) (hone : x.useCount = 1) :
    ((sh.exchange B r p b).release B c).table = ConcurrentHashTable.setPointer B sh.table b p := by
  have hold : (sh.table.bucketStorage[b]?.bind Bucket.keyValueData) = some x.record.data := by
    rw [data_table, Shared.recordAt, hb, Option.bind_some, hx]
    rfl
  have hx' : (sh.exchange B r p b).controls[c]? = some x := by
    rw [Shared.exchange, List.getElem?_append_left (hlt b c hb), hx]
  rw [table_release B hx' hone, table_exchange hlt]
  simp only [ConcurrentHashTable.setPointer, hold]
  rfl

/-! ### A call -/

private theorem get_alone (hp : Published hasher sh chains) (hread : ∀ x, ∀ b ∈ chains x, Readable B sh b) :
    Alone B hasher i (.get key) (sh, .called) (sh, .returned (.value (mapOf sh.log key))) := by
  have hcall : Alone B hasher i (.get key) (sh, .called) (sh, sh.loadHead hasher key none) := Alone.step rfl
  have hsearch : Alone B hasher i (.get key) (sh, sh.loadHead hasher key none)
      (sh, .found none (sh.bucketIn (chains (hashTableIndex hasher key)) key)) := search_alone hp hread
  refine (hcall.trans hsearch).trans ?_
  cases hfind : sh.bucketIn (chains (hashTableIndex hasher key)) key with
  | none =>
    rw [hp.map_of_absent hfind]
    exact Alone.step rfl
  | some b =>
    obtain ⟨c, x, hc, hx, hlive, hk, hv⟩ := hread _ b (bucketIn_eq_some hfind).1
    have hrec : sh.recordAt b = some x.record := by rw [Shared.recordAt, hc, Option.bind_some, hx]; rfl
    rw [hp.map_of_found hfind hrec]
    have hload : Alone B hasher i (.get key) (sh, .found none (some b)) (sh.acquire c, .readValue c) := by
      apply Alone.step
      simp only [Shared.step, hc]
      rfl
    have hvalue : (sh.acquire c).valueString B c = some x.record.value := by
      have hget : (sh.acquire c).controls[c]? = some { x with useCount := x.useCount + 1 } := by
        rw [Shared.acquire, List.getElem?_modify, hx]
        simp
      simp only [Shared.valueString, hget, Option.bind_eq_bind, Option.bind_some]
      show (string B sh.buffer x.record.data).bind _ = _
      rw [hk]
      exact hv
    have hcopy : Alone B hasher i (.get key) (sh.acquire c, .readValue c)
        (sh.acquire c, .dropValue c x.record.value) := by
      apply Alone.step
      simp only [Shared.step, hvalue]
      rfl
    have hdrop : Alone B hasher i (.get key) (sh.acquire c, .dropValue c x.record.value)
        (sh, .returned (.value x.record.value)) := by
      apply Alone.step
      simp only [Shared.step, release_acquire B hx hlive]
    exact (hload.trans hcopy).trans hdrop

private theorem copy_alone {t : σ} {isNew : Bool}
    (hcopy : ConcurrentHashTable.copyValue B p r.value (ConcurrentHashTable.copyKey B p r.key sh.buffer) = some t) :
    Alone B hasher i r (sh, .copyKey p b isNew) ({ sh with buffer := t }, .setPointer p b isNew) := by
  have hkey : Alone B hasher i r (sh, .copyKey p b isNew)
      ({ sh with buffer := ConcurrentHashTable.copyKey B p r.key sh.buffer }, .copyValue p b isNew) := Alone.step rfl
  refine hkey.trans (Alone.step ?_)
  simp only [Shared.step, hcopy]
  rfl

private theorem put_new_alone (hasher : Bytes → Nat) (hlt : ∀ b c, sh.loadPointer b = some c → c < sh.controls.length)
    {t : σ}
    (hcopy : ConcurrentHashTable.copyValue B p r.value (ConcurrentHashTable.copyKey B p r.key sh.buffer) = some t) :
    ∃ sh', Alone B hasher i r (sh, .found (some p) none) (sh', .returned (.ok true)) ∧
      sh'.table = ConcurrentHashTable.storeBucket (ConcurrentHashTable.setPointer B
        { (getNewBucket sh.table).2 with buffer := t } sh.bucketStorage.length p) sh.bucketStorage.length
        (hashTableIndex hasher r.key) := by
  let sh₁ : Shared N σ := { sh with bucketStorage := sh.bucketStorage ++ [⟨none, none⟩] }
  let sh₂ : Shared N σ := { sh₁ with buffer := t }
  have hptr : ∀ b, sh₂.loadPointer b = sh.loadPointer b := newBucket_loadPointer sh
  have hnone : sh₂.loadPointer sh.bucketStorage.length = none := by
    rw [hptr, Shared.loadPointer, List.getElem?_eq_none (Nat.le_refl _)]
    rfl
  have hnew : Alone B hasher i r (sh, .found (some p) none) (sh₁, .copyKey p sh.bucketStorage.length true) :=
    Alone.step rfl
  have hset : Alone B hasher i r (sh₂, .setPointer p sh.bucketStorage.length true)
      (sh₂.exchange B r p sh.bucketStorage.length, .storeBucket sh.bucketStorage.length) := by
    apply Alone.step
    simp only [Shared.step, hnone]
    rfl
  have hlt' : ∀ b c, sh₂.loadPointer b = some c → c < sh₂.controls.length :=
    fun b c hb => hlt b c ((hptr b).symm.trans hb)
  refine ⟨_, (((hnew.trans (copy_alone hcopy)).trans hset).trans (Alone.step rfl)).trans (Alone.step rfl), ?_⟩
  refine (table_link (sh₂.exchange B r p sh.bucketStorage.length) r.key sh.bucketStorage.length).trans ?_
  rw [table_set_fresh hlt' hnone]
  have htable : sh₂.table = { (getNewBucket sh.table).2 with buffer := t } := by
    rw [← table_newBucket sh]
    rfl
  rw [htable]

/-- A `put` of an old key, whose record nobody else holds. -/
private theorem put_old_alone (hasher : Bytes → Nat) (hlt : ∀ b c, sh.loadPointer b = some c → c < sh.controls.length)
    (hb : sh.loadPointer b = some c) {x : Control} (hx : sh.controls[c]? = some x) (hone : x.useCount = 1) {t : σ}
    (hcopy : ConcurrentHashTable.copyValue B p r.value (ConcurrentHashTable.copyKey B p r.key sh.buffer) = some t) :
    ∃ sh', Alone B hasher i r (sh, .found (some p) (some b)) (sh', .returned (.ok true)) ∧
      sh'.table = ConcurrentHashTable.setPointer B { sh.table with buffer := t } b p := by
  let sh₁ : Shared N σ := { sh with buffer := t }
  have hold : Alone B hasher i r (sh, .found (some p) (some b)) (sh, .copyKey p b false) := Alone.step rfl
  have hset : Alone B hasher i r (sh₁, .setPointer p b false)
      ({ sh₁.exchange B r p b with log := sh.log ++ [⟨some i, r.key, r.value⟩] }, .dropOld c b false) := by
    apply Alone.step
    have hb' : sh₁.loadPointer b = some c := hb
    simp only [Shared.step, hb']
    rfl
  refine ⟨_, (((hold.trans (copy_alone hcopy)).trans hset).trans (Alone.step rfl)).trans (Alone.step rfl), ?_⟩
  have hlog : ∀ (sh : Shared N σ) (log : List LogEntry),
      (({ sh with log := log } : Shared N σ).release B c).table = (sh.release B c).table := by
    intro sh log
    simp only [Shared.release]
    split <;> rfl
  have hset : ((sh₁.exchange B r p b).release B c).table = ConcurrentHashTable.setPointer B sh₁.table b p :=
    table_set_old hlt hb hx hone
  exact (hlog (sh₁.exchange B r p b) _).trans hset

/-! ### A call while the store is at rest -/

omit [NeZero N] in
private theorem State.AtRest.useCount_eq_one (hrest : s.AtRest) (h : Counted s) (hb : s.shared.loadPointer b = some c)
    {x : Control} (hx : s.shared.controls[c]? = some x) : x.useCount = 1 := by
  have hthreads : ¬ 0 < holders Thread.control s.threads c := by
    intro hpos
    obtain ⟨th, hmem, hth⟩ := holders_pos.1 hpos
    exact hrest th hmem (running_of_control hth)
  have hbuckets : holders Bucket.keyValueData s.shared.bucketStorage c ≤ 1 := by
    apply holders_le_one
    intro j j' a a' hj hj' ha ha'
    refine h.unique j j' c ?_ ?_
    · rw [Shared.loadPointer, hj, Option.bind_some, ha]
    · rw [Shared.loadPointer, hj', Option.bind_some, ha']
  have hcount := h.counts c x hx
  have := holders_bucket_pos hb
  omega

omit [NeZero N] in
theorem Counted.readable (h : Counted s) {bs : List Payload}
    (hf : FileHolds B sh'.buffer bs (live s.shared.controls)) (hcontrols : sh'.controls = s.shared.controls)
    (hstorage : sh'.bucketStorage = s.shared.bucketStorage) (hb : s.shared.loadPointer b = some c) : Readable B sh' b := by
  obtain ⟨x, hx, hlive⟩ := h.bucket_live hb
  have hrec : x.record ∈ live s.shared.controls := mem_live.2 ⟨c, x, hx, hlive, rfl⟩
  refine ⟨c, x, ?_, hcontrols ▸ hx, hlive, hf.string_key hrec, hf.string_value hrec⟩
  rw [Shared.loadPointer, hstorage]
  exact hb

/-- With any file that holds the records, the loop of the sequential program finds the bucket that a search finds. -/
theorem Settled.find_eq (h : Settled hasher B Inv s) (hrest : s.AtRest) {was : Nat → Bytes → Prop}
    (hc : Coherent hasher was s chains) {t : σ} {bs : List Payload} (hf : FileHolds B t bs (live s.shared.controls))
    (key : Bytes) : findBucketWithKey B hasher { s.shared.table with buffer := t } key =
      some (s.shared.bucketIn (chains (hashTableIndex hasher key)) key, hashTableIndex hasher key) := by
  have hholds := h.holds hrest
  have hrep := hholds.represents.buffer (s := t) (hf.reads fun _ hx => hholds.mem hx)
  rw [hrep.find_eq key, h.lookup_eq hrest hc key]

/-- A call that runs while the store is at rest does what the function of the sequential program does. -/
private theorem Settled.put_alone (hB : B.Lawful Inv) (h : Settled hasher B Inv s) (hrest : s.AtRest) (i : Nat)
    (key value : Bytes) :
    ∃ sh' ok, Alone B hasher i (.put key value) (s.shared, .called) (sh', .returned (.ok ok)) ∧
      ConcurrentHashTable.put B hasher s.shared.table key value = some (ok, sh'.table) := by
  have hmutex := hrest.mutex h.safe.exclusive
  have hfile := h.safe.fileHolds hmutex
  obtain ⟨pend, hstored⟩ := h.safe.stored
  obtain ⟨chains, hc⟩ := h.coherent
  have hlock : Alone B hasher i (.put key value) (s.shared, .called) ({ s.shared with writeMutex := some i }, .locked) := by
    apply Alone.step
    simp only [Shared.step, hmutex, if_true]
  rcases ha : B.alloc (key.length + 1 + value.length + 1) s.shared.buffer with ⟨_ | p, t⟩
  · -- `alloc` returns `nullptr`
    have hfail : Alone B hasher i (.put key value) ({ s.shared with writeMutex := some i }, .locked)
        ({ s.shared with writeMutex := some i, buffer := t }, .unlock false) := by
      apply Alone.step
      simp only [Shared.step, Request.key, Request.value, ha]
    refine ⟨_, false, (hlock.trans hfail).trans (Alone.step rfl), ?_⟩
    have ha' : B.alloc (key.length + 1 + value.length + 1) s.shared.table.buffer = (none, t) := ha
    simp only [ConcurrentHashTable.put, ha']
    rfl
  · obtain ⟨hi₁, size, hn, hf₁, hap⟩ := hfile.alloc_some hB hstored.inv ha
    have hne := hfile.block_ne (by omega) hn hap
    obtain ⟨u, hcopy, -, -⟩ := hf₁.copy hB hi₁ hne hn
    let sh : Shared N σ := { s.shared with writeMutex := some i, buffer := t }
    have halloc : Alone B hasher i (.put key value) ({ s.shared with writeMutex := some i }, .locked)
        (sh, .findHead (some p)) := by
      apply Alone.step
      simp only [Shared.step, Request.key, Request.value, ha]
      rfl
    have hpub : Published hasher sh chains := hc.published.quiet ⟨rfl, rfl, rfl, rfl⟩
    have hread : ∀ x, ∀ b ∈ chains x, Readable B sh b := by
      intro x b hb
      obtain ⟨c, hptr⟩ := hc.published.loadPointer hb
      exact h.safe.counted.readable hf₁ rfl rfl hptr
    have hsearch : Alone B hasher i (.put key value) (sh, sh.loadHead hasher key (some p))
        (sh, .found (some p) (sh.bucketIn (chains (hashTableIndex hasher key)) key)) := search_alone hpub hread
    have hfound := ((hlock.trans halloc).trans (Alone.step rfl)).trans hsearch
    have hfind : findBucketWithKey B hasher sh.table key =
        some (sh.bucketIn (chains (hashTableIndex hasher key)) key, hashTableIndex hasher key) :=
      h.find_eq hrest hc hf₁ key
    have ha' : B.alloc (key.length + 1 + value.length + 1) s.shared.table.buffer = (some p, t) := ha
    have htable : ({ s.shared.table with buffer := t } : ConcurrentHashTable N σ) = sh.table := rfl
    have hcopy' : ConcurrentHashTable.copyValue B p value (ConcurrentHashTable.copyKey B p key sh.table.buffer) = some u :=
      hcopy
    have hlt : ∀ b c, sh.loadPointer b = some c → c < sh.controls.length := h.safe.counted.bucket_lt
    have hlen : sh.table.bucketStorage.length = sh.bucketStorage.length := List.length_map _
    cases hres : sh.bucketIn (chains (hashTableIndex hasher key)) key with
    | none =>
      rw [hres] at hfound hfind
      obtain ⟨sh', hrun, hsh'⟩ := put_new_alone (i := i) (r := .put key value) hasher hlt hcopy'
      refine ⟨sh', true, hfound.trans hrun, ?_⟩
      rw [hsh']
      simp only [ConcurrentHashTable.put, ha', htable, hfind, Option.bind_eq_bind, Option.bind_some]
      simp only [getNewBucket, hcopy', Option.bind_some, hlen]
      rfl
    | some b =>
      rw [hres] at hfound hfind
      obtain ⟨c, hptr⟩ := hc.published.loadPointer (bucketIn_eq_some hres).1
      obtain ⟨x, hx, -⟩ := h.safe.counted.bucket_live hptr
      have hone := hrest.useCount_eq_one h.safe.counted hptr hx
      have hptr' : sh.loadPointer b = some c := hptr
      have hx' : sh.controls[c]? = some x := hx
      obtain ⟨sh', hrun, hsh'⟩ := put_old_alone (i := i) (r := .put key value) hasher hlt hptr' hx' hone hcopy'
      refine ⟨sh', true, hfound.trans hrun, ?_⟩
      rw [hsh']
      simp only [ConcurrentHashTable.put, ha', htable, hfind, Option.bind_eq_bind, Option.bind_some, hcopy']
      rfl

namespace ConcurrentHashTable

/-- A call of the sequential program. -/
def perform (B : Buffer σ) (hasher : Bytes → Nat) (t : ConcurrentHashTable N σ) :
    Request → Option (Result × ConcurrentHashTable N σ)
  | .get key => (get B hasher t key).map fun v => (.value v, t)
  | .put key value => (put B hasher t key value).map fun x => (.ok x.1, x.2)

/-- One call after another. -/
def performAll (B : Buffer σ) (hasher : Bytes → Nat) :
    ConcurrentHashTable N σ → List Request → Option (List Result × ConcurrentHashTable N σ)
  | t, [] => some ([], t)
  | t, r :: rs => do
    let (result, t) ← perform B hasher t r
    let (results, t) ← performAll B hasher t rs
    return (result :: results, t)

end ConcurrentHashTable

private theorem Settled.perform_alone (hB : B.Lawful Inv) (h : Settled hasher B Inv s) (hrest : s.AtRest) (i : Nat)
    (r : Request) :
    ∃ sh' res, Alone B hasher i r (s.shared, .called) (sh', .returned res) ∧
      perform B hasher s.shared.table r = some (res, sh'.table) := by
  cases r with
  | get key =>
    obtain ⟨chains, hc⟩ := h.coherent
    have hfile := h.safe.fileHolds (hrest.mutex h.safe.exclusive)
    have hread : ∀ x, ∀ b ∈ chains x, Readable B s.shared b := by
      intro x b hb
      obtain ⟨c, hptr⟩ := hc.published.loadPointer hb
      exact h.safe.counted.readable hfile rfl rfl hptr
    refine ⟨s.shared, _, get_alone hc.published hread, ?_⟩
    rw [perform, (h.holds hrest).get hasher key, h.current_eq hrest key]
    rfl
  | put key value =>
    obtain ⟨sh', ok, hrun, hput⟩ := h.put_alone hB hrest i key value
    exact ⟨sh', _, hrun, by rw [perform, hput]; rfl⟩

/-! ### Calls one after another -/

/-- The steps of the call `i`. -/
def State.Runs (B : Buffer σ) (hasher : Bytes → Nat) (i : Nat) : State N σ → State N σ → Prop :=
  Relation.ReflTransGen fun s s' => s.step B hasher i = some s'

/-- Every call returns before the next one is made. -/
inductive OneByOne (B : Buffer σ) (hasher : Bytes → Nat) : State N σ → List (Request × Result) → State N σ → Prop
  | nil (s : State N σ) : OneByOne B hasher s [] s
  | call {s s₁ s₂ : State N σ} {r : Request} {res : Result} {l : List (Request × Result)} (hr : r.NulFree)
      (hrun : State.Runs B hasher s.threads.length (s.call r) s₁)
      (hret : s₁.threads[s.threads.length]? = some ⟨r, .returned res⟩) (hnext : OneByOne B hasher s₁ l s₂) :
    OneByOne B hasher s ((r, res) :: l) s₂

theorem Alone.runs {x y : Shared N σ × Pc} (h : Alone B hasher i r x y) (hsh : s.shared = x.1)
    (hth : s.threads[i]? = some ⟨r, x.2⟩) : State.Runs B hasher i s ⟨y.1, s.threads.set i ⟨r, y.2⟩⟩ := by
  obtain ⟨hlt, hget⟩ := List.getElem?_eq_some_iff.1 hth
  induction h with
  | refl =>
    have hs : s = ⟨x.1, s.threads.set i ⟨r, x.2⟩⟩ := by
      rw [← hsh, ← hget, List.set_getElem_self]
    exact hs ▸ Relation.ReflTransGen.refl
  | @tail y z _ hstep ih =>
    refine ih.tail ?_
    have hi : (s.threads.set i ⟨r, y.2⟩)[i]? = some ⟨r, y.2⟩ := List.getElem?_set_self hlt
    simp [State.step, hlt, hstep]

theorem State.Runs.reaches (h : State.Runs B hasher i s s') : Reaches B hasher s s' := by
  induction h with
  | refl => exact Relation.ReflTransGen.refl
  | tail _ hstep ih => exact ih.tail (.step i hstep)

/-- A run of one call ends in one state. -/
theorem State.Runs.unique {s₁ s₂ : State N σ} (h₁ : State.Runs B hasher i s s₁) (h₂ : State.Runs B hasher i s s₂)
    {r₁ r₂ : Request} {res₁ res₂ : Result} (hr₁ : s₁.threads[i]? = some ⟨r₁, .returned res₁⟩)
    (hr₂ : s₂.threads[i]? = some ⟨r₂, .returned res₂⟩) : s₁ = s₂ := by
  have hstop : ∀ {s s' : State N σ} {r : Request} {res : Result}, s.threads[i]? = some ⟨r, .returned res⟩ →
      State.Runs B hasher i s s' → s = s' := by
    intro s s' r res hret hrun
    rcases Relation.ReflTransGen.cases_head hrun with rfl | ⟨s₃, hstep, -⟩
    · rfl
    · simp [State.step, hret, Shared.step] at hstep
  have hfun : Relator.RightUnique fun s s' : State N σ => s.step B hasher i = some s' :=
    fun _ _ _ hb hc => Option.some.inj (hb.symm.trans hc)
  rcases Relation.ReflTransGen.total_of_right_unique hfun h₁ h₂ with h | h
  · exact hstop hr₁ h
  · exact (hstop hr₂ h).symm

/-- The call that is made while the store is at rest, to its end. -/
theorem Settled.call (hB : B.Lawful Inv) (h : Settled hasher B Inv s) (hrest : s.AtRest) {r : Request} (hr : r.NulFree) :
    ∃ s₁ res, State.Runs B hasher s.threads.length (s.call r) s₁ ∧
      s₁.threads[s.threads.length]? = some ⟨r, .returned res⟩ ∧
      perform B hasher s.shared.table r = some (res, s₁.shared.table) ∧ Settled hasher B Inv s₁ ∧ s₁.AtRest := by
  obtain ⟨sh', res, halone, hperform⟩ := h.perform_alone hB hrest s.threads.length r
  have hth : (s.call r).threads[s.threads.length]? = some ⟨r, .called⟩ := by simp [State.call]
  have hrun : State.Runs B hasher s.threads.length (s.call r)
      ⟨sh', (s.call r).threads.set s.threads.length ⟨r, .returned res⟩⟩ := halone.runs rfl hth
  have hsettled := (h.step hB (.call r hr)).reaches hB hrun.reaches
  refine ⟨_, res, hrun, List.getElem?_set_self (List.getElem?_eq_some_iff.1 hth).1, hperform, hsettled, fun th hmem => ?_⟩
  obtain ⟨j, hj⟩ := List.mem_iff_getElem?.1 hmem
  rcases getElem?_set_cases hj with ⟨-, rfl⟩ | ⟨hne, hj⟩
  · exact fun hrunning => hrunning
  · rcases getElem?_concat_cases hj with ⟨rfl, -⟩ | hj
    · exact absurd rfl hne
    · exact hrest th (List.mem_of_getElem? hj)

/-! ### Over the code's buffer -/

private theorem fires_locked (h : Fires B hasher sh i r pc sh' .locked) :
    pc = .called ∧ sh'.buffer = sh.buffer ∧ ∃ key value, r = .put key value := by
  generalize hpc' : Pc.locked = pc' at h
  cases h with
  | lock hr => exact ⟨rfl, rfl, _, _, hr⟩
  | getHead => unfold Shared.loadHead at hpc'; split at hpc' <;> cases hpc'
  | loadHead => unfold Shared.loadHead at hpc'; split at hpc' <;> cases hpc'
  | dropCompared => split at hpc' <;> cases hpc'
  | dropOld => unfold Shared.afterSet at hpc'; split at hpc' <;> cases hpc'
  | setFresh => unfold Shared.afterSet at hpc'; split at hpc' <;> cases hpc'
  | _ => cases hpc'

/-- A call that runs alone allocates in the file that it started with, so its run is the same over two allocators that agree
there. -/
theorem State.Runs.withAlloc {f : Nat → σ → Option Nat × σ} (h : State.Runs B hasher i s s')
    (hth : s.threads[i]? = some ⟨r, .called⟩) (hf : ∀ key value, r = .put key value →
      f (key.length + 1 + value.length + 1) s.shared.buffer = B.alloc (key.length + 1 + value.length + 1) s.shared.buffer) :
    State.Runs (B.withAlloc f) hasher i s s' := by
  -- until the allocation the file stays as it is
  suffices h' : State.Runs (B.withAlloc f) hasher i s s' ∧ ∃ pc, s'.threads[i]? = some ⟨r, pc⟩ ∧
      (pc = .called → s'.shared.buffer = s.shared.buffer) ∧
      (pc = .locked → s'.shared.buffer = s.shared.buffer ∧ ∃ key value, r = .put key value) from h'.1
  induction h with
  | refl => exact ⟨Relation.ReflTransGen.refl, _, hth, fun _ => rfl, by rintro ⟨⟩⟩
  | @tail s₁ s₂ _ hstep ih =>
    obtain ⟨hrun, pc, hpc, hcalled, hlocked⟩ := ih
    have hsame : s₁.step (B.withAlloc f) hasher i = s₁.step B hasher i := by
      refine State.step_withAlloc fun r' hr' => ?_
      obtain ⟨rfl, rfl⟩ := Thread.mk.inj (Option.some.inj (hpc.symm.trans hr'))
      obtain ⟨hbuffer, key, value, rfl⟩ := hlocked rfl
      rw [hbuffer]
      exact hf key value rfl
    refine ⟨hrun.tail (hsame.trans hstep), ?_⟩
    obtain ⟨r', pc₁, sh', pc', hth', hfires, rfl⟩ := State.step_fires hstep
    obtain ⟨rfl, rfl⟩ := Thread.mk.inj (Option.some.inj (hpc.symm.trans hth'))
    refine ⟨pc', List.getElem?_set_self (List.getElem?_eq_some_iff.1 hpc).1, ?_, ?_⟩
    · rintro rfl
      exact absurd rfl (fires_started hfires)
    · rintro rfl
      obtain ⟨rfl, hkeep, hput⟩ := fires_locked hfires
      exact ⟨hkeep.trans (hcalled rfl), hput⟩

private theorem perform_withAlloc {f : Nat → σ → Option Nat × σ} {t : ConcurrentHashTable N σ}
    (hf : ∀ key value, r = .put key value →
      f (key.length + 1 + value.length + 1) t.buffer = B.alloc (key.length + 1 + value.length + 1) t.buffer) :
    perform (B.withAlloc f) hasher t r = perform B hasher t r := by
  cases r with
  | get key => rw [perform, perform, get_withAlloc]
  | put key value => rw [perform, perform, put_withAlloc (hf key value rfl)]

/-- The call as a step of the sequential program. -/
def Request.op : Request → StoreOp
  | .get key => .get key
  | .put key value => .put key value

private theorem step_of_perform {t t' : ConcurrentHashTable N σ} {res : Result}
    (h : perform B hasher t r = some (res, t')) :
    ∃ e, Process.step B ⟨hasher, t⟩ r.op = some (e, ⟨hasher, t'⟩) := by
  cases r with
  | get key =>
    obtain ⟨v, hv, he⟩ := Option.map_eq_some_iff.1 h
    obtain ⟨-, rfl⟩ := Prod.mk.inj he
    exact ⟨_, by rw [Request.op, Process.step, hv]; rfl⟩
  | put key value =>
    obtain ⟨x, hx, he⟩ := Option.map_eq_some_iff.1 h
    obtain ⟨-, rfl⟩ := Prod.mk.inj he
    exact ⟨_, by rw [Request.op, Process.step, hx]; rfl⟩

section

variable {dbSize : Nat} {s s' : State N FileBackedBuffer}

/-- The call that is made at rest, where its allocation splits no stale block. -/
private theorem Settled.call_plain (h : Settled hasher (guardedBuffer dbSize) (FileBackedBuffer.Sound dbSize) s)
    (hrest : s.AtRest) (hr : r.NulFree) (hns : ¬ r.op.StaleSplit s.shared.buffer) :
    ∃ s₁ res, State.Runs (plainBuffer dbSize) hasher s.threads.length (s.call r) s₁ ∧
      s₁.threads[s.threads.length]? = some ⟨r, .returned res⟩ ∧
      perform (plainBuffer dbSize) hasher s.shared.table r = some (res, s₁.shared.table) ∧
      Settled hasher (guardedBuffer dbSize) (FileBackedBuffer.Sound dbSize) s₁ ∧ s₁.AtRest := by
  have hf : ∀ key value, r = .put key value → allocPlain (key.length + 1 + value.length + 1) s.shared.buffer =
      (guardedBuffer dbSize).alloc (key.length + 1 + value.length + 1) s.shared.buffer := by
    rintro key value rfl
    rw [guardedBuffer_alloc, allocUnlessStale_eq hns]
  obtain ⟨s₁, res, hrun, hret, hperform, hsettled, hrest'⟩ := h.call (guardedBuffer_lawful dbSize) hrest hr
  have hth : (s.call r).threads[s.threads.length]? = some ⟨r, .called⟩ := by simp [State.call]
  refine ⟨s₁, res, hrun.withAlloc hth hf, hret, ?_, hsettled, hrest'⟩
  rw [plainBuffer_eq, perform_withAlloc hf, hperform]

/-- Calls one after another return what the sequential program does. -/
theorem OneByOne.sequential {l : List (Request × Result)} (hl : OneByOne (plainBuffer dbSize) hasher s l s')
    (h : Settled hasher (guardedBuffer dbSize) (FileBackedBuffer.Sound dbSize) s) (hrest : s.AtRest)
    (hns : Process.NoStaleSplit dbSize ⟨hasher, s.shared.table⟩ (l.map fun x => x.1.op)) :
    performAll (plainBuffer dbSize) hasher s.shared.table (l.map Prod.fst) = some (l.map Prod.snd, s'.shared.table) := by
  induction hl with
  | nil s => rfl
  | @call s s₁ s₂ r res l hr hrun hret hnext ih =>
    obtain ⟨hop, hnext'⟩ := hns
    obtain ⟨s₁', res', hrun', hret', hperform, hsettled, hrest'⟩ := h.call_plain hrest hr hop
    obtain rfl := hrun.unique hrun' hret hret'
    obtain ⟨-, hpc⟩ := Thread.mk.inj (Option.some.inj (hret.symm.trans hret'))
    obtain rfl := Pc.returned.inj hpc
    obtain ⟨e, hstep⟩ := step_of_perform hperform
    simp only [List.map_cons, performAll, hperform, Option.bind_eq_bind, Option.bind_some,
      ih hsettled hrest' (hnext' _ hstep)]
    rfl

private theorem Settled.one_by_one (h : Settled hasher (guardedBuffer dbSize) (FileBackedBuffer.Sound dbSize) s)
    (hrest : s.AtRest) {requests : List Request} (hr : ∀ r ∈ requests, r.NulFree)
    (hns : Process.NoStaleSplit dbSize ⟨hasher, s.shared.table⟩ (requests.map Request.op)) :
    ∃ l s', l.map Prod.fst = requests ∧ OneByOne (plainBuffer dbSize) hasher s l s' := by
  induction requests generalizing s with
  | nil => exact ⟨[], s, rfl, .nil s⟩
  | cons r requests ih =>
    have hnul := hr r (List.mem_cons_self ..)
    obtain ⟨hop, hnext⟩ := hns
    obtain ⟨s₁, res, hrun, hret, hperform, hsettled, hrest'⟩ := h.call_plain hrest hnul hop
    obtain ⟨e, hstep⟩ := step_of_perform hperform
    obtain ⟨l, s', hl, hnext⟩ :=
      ih hsettled hrest' (fun r hmem => hr r (List.mem_cons_of_mem _ hmem)) (hnext _ hstep)
    exact ⟨(r, res) :: l, s', by rw [List.map_cons, hl], .call hnul hrun hret hnext⟩

end

private theorem opened_table (hf : FileHolds B file (rs.map Record.block) rs) {t : ConcurrentHashTable N σ}
    (ht : ConcurrentHashTable.load B hasher file = some t) (hs : State.opened B hasher file = some s) :
    s.shared.table = t := by
  obtain ⟨t', ht', -, h⟩ := load_holds (N := N) hasher hf
  obtain rfl := Option.some.inj (ht.symm.trans ht')
  have hlen : t.bucketStorage.length = rs.length := by simpa using h.represents.length
  rw [State.opened, ht, Option.map_some, hf.recordsIn_eq] at hs
  obtain rfl := Option.some.inj hs
  obtain ⟨buffer, bucketStorage, hashTable⟩ := t
  simp only [Shared.table, ConcurrentHashTable.mk.injEq, true_and, and_true]
  apply List.ext_getElem?
  intro j
  rw [List.getElem?_map, List.getElem?_mapIdx]
  rcases Nat.lt_or_ge j rs.length with hj | hj
  · have hx : ((rs.map fun r => (r, hashTableIndex (N := N) hasher r.key)).map entry)[j]? =
        some (entry (rs[j], hashTableIndex hasher rs[j].key)) := by
      simp [hj]
    obtain ⟨b, hb, hd⟩ := h.represents.bucket hx
    have hb : bucketStorage[j]? = some b := hb
    have haddress : rs.reverse[rs.length - 1 - j]? = some rs[j] := by
      rw [List.getElem?_reverse (by omega), List.getElem?_eq_getElem (by omega)]
      congr 2
      omega
    have hd : b.keyValueData = some rs[j].data := hd
    rw [hb, Option.map_some, Option.map_some, Option.bind_some]
    congr 1
    simp only [Shared.address, List.getElem?_map, haddress, Option.map_some]
    rw [← hd]
  · have hlen : bucketStorage.length = rs.length := hlen
    rw [List.getElem?_eq_none (by omega)]
    rfl

/-- From any state that a run without a stale split reaches while no call is in progress, calls that are made one after
another return what the sequential program returns on the table of that state, and leave its table, and every list of calls
can be made so, as long as no allocation of the sequential program splits a stale block.  The first of these tables is the one
that the constructor makes. -/
theorem one_by_one_sequential {dbSize : Nat} {file : FileBackedBuffer} (hi : file.Sound dbSize) {rs : List Record}
    (hf : FileHolds (plainBuffer dbSize) file (rs.map Record.block) rs) (hasher : Bytes → Nat) :
    ∃ s₀, State.opened (N := N) (plainBuffer dbSize) hasher file = some s₀ ∧
      ConcurrentHashTable.load (plainBuffer dbSize) hasher file = some s₀.shared.table ∧
      ∀ states L, Run (plainBuffer dbSize) hasher s₀ states L → NoStaleSplitIn states L → (states L).AtRest →
        ∀ requests : List Request, (∀ r ∈ requests, r.NulFree) →
          Process.NoStaleSplit dbSize ⟨hasher, (states L).shared.table⟩ (requests.map Request.op) →
          (∃ l s', l.map Prod.fst = requests ∧ OneByOne (plainBuffer dbSize) hasher (states L) l s') ∧
          ∀ l s', l.map Prod.fst = requests → OneByOne (plainBuffer dbSize) hasher (states L) l s' →
            performAll (plainBuffer dbSize) hasher (states L).shared.table requests =
              some (l.map Prod.snd, s'.shared.table) := by
  obtain ⟨s₀, hs₀, hopen⟩ := opened_of_holds (N := N) hf hasher
  obtain ⟨t, ht, -, -⟩ := load_holds (N := N) hasher hf
  refine ⟨s₀, hs₀, by rw [ht, opened_table hf ht hs₀], fun states L hrun hns hrest requests hr hops => ?_⟩
  have h := (hopen.settled hi hf.guarded).reaches (guardedBuffer_lawful dbSize) (hrun.guarded hns).reaches
  refine ⟨h.one_by_one hrest hr hops, ?_⟩
  rintro l s' rfl hl
  exact hl.sequential h hrest (by rwa [List.map_map] at hops)

theorem one_by_one_sequential_of_one_bucket :
    ∃ s₀, State.opened (N := 1) (plainBuffer 220) List.length (emptyFile 220 (by decide)) = some s₀ ∧
      ConcurrentHashTable.load (plainBuffer 220) List.length (emptyFile 220 (by decide)) = some s₀.shared.table ∧
      ∀ states L, Run (plainBuffer 220) List.length s₀ states L → NoStaleSplitIn states L → (states L).AtRest →
        ∀ requests : List Request, (∀ r ∈ requests, r.NulFree) →
          Process.NoStaleSplit 220 ⟨List.length, (states L).shared.table⟩ (requests.map Request.op) →
          (∃ l s', l.map Prod.fst = requests ∧ OneByOne (plainBuffer 220) List.length (states L) l s') ∧
          ∀ l s', l.map Prod.fst = requests → OneByOne (plainBuffer 220) List.length (states L) l s' →
            performAll (plainBuffer 220) List.length (states L).shared.table requests =
              some (l.map Prod.snd, s'.shared.table) := by
  obtain ⟨hi, hs⟩ := emptyFile_sound 220 (by decide) (by decide)
  have hf : FileHolds (plainBuffer 220) (emptyFile 220 (by decide)) (([] : List Record).map Record.block) [] :=
    fileHolds_empty hs
  exact one_by_one_sequential hi hf List.length

end KeyValueStore
