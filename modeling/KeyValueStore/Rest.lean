import KeyValueStore.Durability
import KeyValueStore.Progress
import Mathlib.Data.List.Sort

/-!
# The store at rest

While no call is in progress the buckets, chains and records are those of a table of the sequential program: the pointers of
the buckets are the addresses of their records (`Shared.table`), each used block is the record of one bucket, and the table
holds the map of the log (`store_at_rest`).  For this every bucket must have a record (`Filled`) and every key of the log a
bucket (`Keyed`).
-/

namespace KeyValueStore

open SinglyLinked ConcurrentHashTable References

variable {N : Nat} {σ : Type} {B : Buffer σ} {Inv : σ → Prop} {hasher : Bytes → Nat} {s s' : State N σ}
  {sh sh' : Shared N σ} {i : Nat} {r : Request} {pc pc' : Pc} {chains : Fin N → List Nat} {file : σ} {rs : List Record}

/-- The address of the record of a control block. -/
def Shared.address (sh : Shared N σ) (c : Nat) : Option Nat := sh.controls[c]?.map fun x => x.record.data

/-- The table of the sequential program. -/
def Shared.table (sh : Shared N σ) : ConcurrentHashTable N σ :=
  { buffer := sh.buffer
    bucketStorage := sh.bucketStorage.map fun b => { b with keyValueData := b.keyValueData.bind sh.address }
    hashTable := sh.hashTable }

/-- The records of the buckets, in the order in which the buckets were made. -/
def Shared.records (sh : Shared N σ) : List Record := (List.range sh.bucketStorage.length).filterMap sh.recordAt

/-- No call is in progress. -/
def State.AtRest (s : State N σ) : Prop := ∀ th ∈ s.threads, ¬ th.pc.Running

private theorem nextOf_table (sh : Shared N σ) (b : Nat) : nextOf sh.table.bucketStorage b = nextOf sh.bucketStorage b := by
  rw [Shared.table, nextOf, nextOf, List.getElem?_map]
  cases sh.bucketStorage[b]? <;> rfl

/-- The pointer of a bucket is the address of its record. -/
theorem data_table (sh : Shared N σ) (b : Nat) :
    (sh.table.bucketStorage[b]?.bind Bucket.keyValueData) = (sh.recordAt b).map Record.data := by
  rw [Shared.table, List.getElem?_map, Shared.recordAt, Shared.loadPointer]
  cases sh.bucketStorage[b]? with
  | none => rfl
  | some bucket =>
    cases hc : bucket.keyValueData with
    | none => simp [hc]
    | some c =>
      simp only [Option.map_some, Option.bind_some, hc, Shared.address]
      cases sh.controls[c]? <;> rfl

private theorem running_of_critical (h : pc.Critical) : pc.Running := by
  cases pc with
  | called => cases h
  | returned => cases h
  | _ => trivial

theorem running_of_control {c : Nat} (h : pc.control = some c) : pc.Running := by
  cases pc with
  | called => cases h
  | returned => cases h
  | _ => trivial

theorem State.AtRest.mutex (h : s.AtRest) (hx : Exclusive s) : s.shared.writeMutex = none := by
  cases hm : s.shared.writeMutex with
  | none => rfl
  | some i =>
    have hi := List.getElem?_eq_getElem (hx.lt i hm)
    exact absurd (running_of_critical ((hx.owner i _ hi).2 hm)) (h _ (List.mem_of_getElem? hi))

private theorem State.AtRest.live_iff (h : s.AtRest) (hc : Counted s) {c : Nat} {x : Control}
    (hx : s.shared.controls[c]? = some x) : x.useCount ≠ 0 ↔ ∃ b, s.shared.loadPointer b = some c := by
  rw [hc.useCount_ne_zero hx, or_iff_left]
  rintro ⟨i, th, hi, hth⟩
  exact h th (List.mem_of_getElem? hi) (running_of_control hth)

/-! ### Buckets, records and keys -/

/-- The bucket that a call has made and to which it has not yet given a record. -/
def Pc.unfilled : Pc → Option Nat
  | .copyKey _ b true => some b
  | .copyValue _ b true => some b
  | .setPointer _ b true => some b
  | _ => none

/-- Every bucket has a record, or it is one that a call has just made. -/
def Filled (s : State N σ) : Prop :=
  ∀ b < s.shared.bucketStorage.length, (∃ c, s.shared.loadPointer b = some c) ∨
    ∃ (i : Nat) (th : Thread), s.threads[i]? = some th ∧ th.pc.unfilled = some b

/-- Every key of the log is the key of a bucket, and every bucket has a key of the log, or it is about to be linked. -/
structure Keyed (s : State N σ) : Prop where
  logged : ∀ e ∈ s.shared.log, ∃ b, s.shared.keyAt b = some e.key
  bucket : ∀ b key, s.shared.keyAt b = some key → (∃ e ∈ s.shared.log, e.key = key) ∨
    ∃ (i : Nat) (r : Request), s.threads[i]? = some ⟨r, .storeBucket b⟩ ∧ r.key = key

/-- The other calls keep the buckets that they have made. -/
theorem Filled.of_step (h : Filled s) (hth : s.threads[i]? = some ⟨r, pc⟩)
    (hold : ∀ b < sh'.bucketStorage.length, b < s.shared.bucketStorage.length ∨ pc'.unfilled = some b)
    (hptr : ∀ b c, s.shared.loadPointer b = some c → ∃ c', sh'.loadPointer b = some c')
    (hown : ∀ b, pc.unfilled = some b → pc'.unfilled = some b ∨ ∃ c, sh'.loadPointer b = some c) :
    Filled ⟨sh', s.threads.set i ⟨r, pc'⟩⟩ := by
  have hi : (s.threads.set i ⟨r, pc'⟩)[i]? = some ⟨r, pc'⟩ :=
    List.getElem?_set_self (List.getElem?_eq_some_iff.1 hth).1
  intro b hb
  rcases hold b hb with hb | hb
  · rcases h b hb with ⟨c, hc⟩ | ⟨j, th, hj, hun⟩
    · exact Or.inl (hptr b c hc)
    · by_cases hij : i = j
      · subst hij
        obtain rfl := Option.some.inj (hth.symm.trans hj)
        rcases hown b hun with hun | hc
        · exact Or.inr ⟨i, _, hi, hun⟩
        · exact Or.inl hc
      · exact Or.inr ⟨j, th, by rw [List.getElem?_set_ne hij, hj], hun⟩
  · exact Or.inr ⟨i, _, hi, hb⟩

/-- Keys stay, and a new one is that of the call, which links its bucket next. -/
theorem Keyed.of_step (h : Keyed s) (hth : s.threads[i]? = some ⟨r, pc⟩)
    (hkeep : ∀ b key, s.shared.keyAt b = some key → sh'.keyAt b = some key)
    (hlog : ∀ e ∈ s.shared.log, e ∈ sh'.log)
    (hadd : ∀ e ∈ sh'.log, e ∈ s.shared.log ∨ ∃ b, sh'.keyAt b = some e.key)
    (hnew : ∀ b key, sh'.keyAt b = some key → s.shared.keyAt b = some key ∧ pc ≠ .storeBucket b ∨
      pc' = .storeBucket b ∧ r.key = key ∨ ∃ e ∈ sh'.log, e.key = key) :
    Keyed ⟨sh', s.threads.set i ⟨r, pc'⟩⟩ := by
  refine ⟨fun e he => ?_, fun b key hb => ?_⟩
  · rcases hadd e he with he | hb
    · obtain ⟨b, hb⟩ := h.logged e he
      exact ⟨b, hkeep b _ hb⟩
    · exact hb
  · rcases hnew b key hb with ⟨hb, hpc⟩ | ⟨rfl, hk⟩ | he
    · rcases h.bucket b key hb with ⟨e, he, hk⟩ | ⟨j, r', hj, hk⟩
      · exact Or.inl ⟨e, hlog e he, hk⟩
      · -- another call is about to link the bucket
        refine Or.inr ⟨j, r', ?_, hk⟩
        rw [List.getElem?_set_ne, hj]
        rintro rfl
        exact hpc (by simpa using congrArg (Option.map Thread.pc) (hth.symm.trans hj))
    · exact Or.inr ⟨i, r, List.getElem?_set_self (List.getElem?_eq_some_iff.1 hth).1, hk⟩
    · exact Or.inl he

/-- A new bucket gets its record. -/
theorem Keyed.fill (h : Keyed s) (hs : Safe B Inv s) {p b : Nat} (hth : s.threads[i]? = some ⟨r, .setPointer p b true⟩)
    (hb : b < s.shared.bucketStorage.length) (hnone : s.shared.loadPointer b = none) :
    Keyed ⟨s.shared.exchange B r p b, s.threads.set i ⟨r, .storeBucket b⟩⟩ := by
  have hkey : ∀ b', (s.shared.exchange B r p b).keyAt b' = if b = b' then some r.key else s.shared.keyAt b' :=
    keyAt_exchange hs.counted.bucket_lt hb p
  have hempty : s.shared.keyAt b = none := by rw [Shared.keyAt, Shared.recordAt, hnone]; rfl
  refine h.of_step hth (fun b' key hb' => ?_) (fun e he => he) (fun e he => Or.inl he) fun b' key hb' => ?_
  · rw [hkey, if_neg, hb']
    rintro rfl
    rw [hempty] at hb'
    cases hb'
  · rw [hkey] at hb'
    split at hb'
    · rename_i hbb
      subst hbb
      exact Or.inr (Or.inl ⟨rfl, Option.some.inj hb'⟩)
    · exact Or.inl ⟨hb', by simp⟩

/-- A `put` takes effect, at a bucket that has its key. -/
theorem Keyed.effect (h : Keyed s) (hth : s.threads[i]? = some ⟨r, pc⟩) {b : Nat} (hb : s.shared.keyAt b = some r.key)
    (hkey : ∀ b', sh'.keyAt b' = s.shared.keyAt b') (hlog : sh'.log = s.shared.log ++ [⟨some i, r.key, r.value⟩])
    (hpc : ∀ b', pc = .storeBucket b' → b' = b) : Keyed ⟨sh', s.threads.set i ⟨r, pc'⟩⟩ := by
  refine h.of_step hth (fun b' key hb' => (hkey b').trans hb') (fun e he => ?_) (fun e he => ?_) fun b' key hb' => ?_
  · rw [hlog]
    exact List.mem_append_left _ he
  · rw [hlog] at he
    rcases List.mem_append.1 he with he | he
    · exact Or.inl he
    · rw [List.mem_singleton.1 he]
      exact Or.inr ⟨b, (hkey b).trans hb⟩
  · rw [hkey] at hb'
    by_cases hbb : pc = .storeBucket b'
    · obtain rfl := hpc b' hbb
      refine Or.inr (Or.inr ⟨⟨some i, r.key, r.value⟩, ?_, Option.some.inj (hb.symm.trans hb')⟩)
      rw [hlog]
      exact List.mem_append_right _ (List.mem_singleton_self _)
    · exact Or.inl ⟨hb', hbb⟩

variable [NeZero N]

private theorem fires_unfilled (h : Fires B hasher sh i r pc sh' pc') {b : Nat} (hb : pc.unfilled = some b) :
    pc'.unfilled = some b ∨ ∃ p, pc = .setPointer p b true := by
  cases h with
  | @copyKey p b' isNew => cases isNew <;> exact Or.inl hb
  | @copyValue p b' isNew s hs => cases isNew <;> exact Or.inl hb
  | @setFresh p b' isNew hn =>
    cases isNew with
    | true => exact Or.inr ⟨p, by rw [Option.some.inj hb]⟩
    | false => cases hb
  | @setOld p b' c isNew hc =>
    cases isNew with
    | true => exact Or.inr ⟨p, by rw [Option.some.inj hb]⟩
    | false => cases hb
  | _ => cases hb

theorem Filled.step (h : Filled s) (hr : InRange s) (hs : Step B hasher s s') : Filled s' := by
  rcases hs.cases with ⟨r, -, rfl⟩ | ⟨i, r, pc, sh', pc', hth, hf, rfl⟩
  · intro b hb
    rcases h b hb with hc | ⟨j, th, hj, hun⟩
    · exact Or.inl hc
    · exact Or.inr ⟨j, th, getElem?_of_extends (List.prefix_append ..) hj, hun⟩
  · have hown := fun b => fires_unfilled hf (b := b)
    by_cases hpub : pc.Publishes
    · rcases fires_publishes hf hpub with ⟨p, rfl, rfl, rfl⟩ | ⟨p, b, isNew, rfl, -, rfl⟩ | ⟨b, rfl, rfl, rfl⟩
      · apply h.of_step hth
        · intro b hb
          rw [List.length_append, List.length_singleton] at hb
          rcases Nat.lt_succ_iff_lt_or_eq.1 hb with hb | rfl
          · exact Or.inl hb
          · exact Or.inr rfl
        · exact fun b c hc => ⟨c, (newBucket_loadPointer s.shared b).trans hc⟩
        · exact fun b hb => by cases hb
      · have hb := hr.thread_lt i _ b hth rfl
        have hptr : ∀ b', (s.shared.exchange B r p b).loadPointer b' =
            if b = b' then some s.shared.controls.length else s.shared.loadPointer b' := exchange_loadPointer B hb r p
        apply h.of_step hth
        · intro b' hb'
          exact Or.inl (by simpa [Shared.exchange] using hb')
        · intro b' c hc
          show ∃ c', (s.shared.exchange B r p b).loadPointer b' = some c'
          rw [hptr]
          split
          · exact ⟨_, rfl⟩
          · exact ⟨c, hc⟩
        · intro b' hb'
          rcases hown b' hb' with hun | ⟨p', hp'⟩
          · exact Or.inl hun
          · obtain ⟨-, rfl, -⟩ := Pc.setPointer.inj hp'
            exact Or.inr ⟨_, (hptr b).trans (if_pos rfl)⟩
      · apply h.of_step hth
        · exact fun b' hb' => Or.inl (by simpa [Shared.link] using hb')
        · exact fun b' c hc => ⟨c, (link_loadPointer s.shared r.key b b').trans hc⟩
        · exact fun b' hb' => by cases hb'
    · have hq := fires_quiet hf hpub
      apply h.of_step hth
      · exact fun b hb => Or.inl (hq.bucketStorage ▸ hb)
      · exact fun b c hc => ⟨c, (hq.loadPointer b).trans hc⟩
      · intro b hb
        rcases hown b hb with hun | ⟨p, rfl⟩
        · exact Or.inl hun
        · exact absurd trivial hpub

theorem Keyed.step {was : Nat → Bytes → Prop} (h : Keyed s) (hs : Safe B Inv s) (hc : Coherent hasher was s chains)
    (hstep : Step B hasher s s') : Keyed s' := by
  rcases hstep.cases with ⟨r, -, rfl⟩ | ⟨i, r, pc, sh', pc', hth, hf, rfl⟩
  · refine ⟨h.logged, fun b key hb => ?_⟩
    rcases h.bucket b key hb with he | ⟨j, r', hj, hk⟩
    · exact Or.inl he
    · exact Or.inr ⟨j, r', getElem?_of_extends (List.prefix_append ..) hj, hk⟩
  · by_cases hpub : pc.Publishes
    · obtain ⟨key, value, rfl⟩ := (hc.knows i _ hth).typed.put_of_critical (critical_of_publishes hpub)
      have hput := ((hc.knows i _ hth).put key value rfl).2
      rcases fires_publishes hf hpub with ⟨p, rfl, rfl, rfl⟩ | ⟨p, b, isNew, rfl, hpc', rfl⟩ | ⟨b, rfl, rfl, rfl⟩
      · refine h.of_step hth (fun b k hb => ?_) (fun e he => he) (fun e he => Or.inl he) fun b k hb => Or.inl ⟨?_, by simp⟩
        · exact (keyAt_newBucket s.shared b).trans hb
        · exact (keyAt_newBucket s.shared b).symm.trans hb
      · cases isNew with
        | true =>
          obtain ⟨hlt, -, hnone, -⟩ : b < s.shared.bucketStorage.length ∧ (∀ x, b ∉ chains x) ∧
            s.shared.loadPointer b = none ∧ Absent hasher s.shared chains key := hput
          rcases hpc' with ⟨rfl, -⟩ | ⟨c, -, hptr⟩
          · exact h.fill hs hth hlt hnone
          · rw [hnone] at hptr
            cases hptr
        | false =>
          have hb : Located hasher s.shared chains key b := hput
          obtain ⟨hmem, hk⟩ := bucketIn_eq_some hb
          refine h.effect hth (b := b) hk (fun b' => ?_) rfl (by simp)
          exact keyAt_exchange_of_eq (r := .put key value) hs.counted.bucket_lt (hc.published.lt hmem) hk p b'
      · obtain ⟨-, -, rec, hrec, hk, -⟩ := hput
        have hkb : s.shared.keyAt b = some key := by rw [Shared.keyAt, hrec, Option.map_some, hk]; rfl
        exact h.effect hth (b := b) hkb (keyAt_link s.shared key b) rfl (by simp)
    · have hq := fires_quiet hf hpub
      refine h.of_step hth (fun b k hb => (hq.keyAt b).trans hb) (fun e he => hq.log.symm ▸ he)
        (fun e he => Or.inl (hq.log ▸ he)) fun b k hb => Or.inl ⟨(hq.keyAt b).symm.trans hb, ?_⟩
      rintro rfl
      exact hpub trivial

/-! ### The invariants in a run -/

theorem JustOpened.filled (hopen : JustOpened hasher rs file s) : Filled s := by
  intro b hb
  rw [hopen.length_bucketStorage] at hb
  exact Or.inl ⟨_, (hopen.loadPointer b).trans (if_pos hb)⟩

theorem JustOpened.keyed (hopen : JustOpened hasher rs file s) : Keyed s := by
  have hkey : ∀ b, s.shared.keyAt b = rs[b]?.map Record.key := fun b => by rw [Shared.keyAt, hopen.recordAt]
  refine ⟨fun e he => ?_, fun b key hb => Or.inl ?_⟩
  · rw [hopen.log] at he
    obtain ⟨rec, hrec, rfl⟩ := List.mem_map.1 he
    obtain ⟨b, hb⟩ := List.mem_iff_getElem?.1 hrec
    exact ⟨b, by rw [hkey, hb]; rfl⟩
  · rw [hkey] at hb
    obtain ⟨rec, hrec, rfl⟩ := Option.map_eq_some_iff.1 hb
    rw [hopen.log]
    exact ⟨_, List.mem_map_of_mem (List.mem_of_getElem? hrec), rfl⟩

/-- What holds in every state that is reached. -/
structure Settled (hasher : Bytes → Nat) (B : Buffer σ) (Inv : σ → Prop) (s : State N σ) : Prop where
  safe : Safe B Inv s
  descending : Descending s
  filled : Filled s
  keyed : Keyed s
  coherent : ∃ chains, Coherent hasher (fun _ _ => True) s chains

theorem JustOpened.settled (hopen : JustOpened hasher rs file s) (hi : Inv file)
    (hf : FileHolds B file (rs.map Record.block) rs) : Settled hasher B Inv s :=
  ⟨hopen.safe hi hf, hopen.descending, hopen.filled, hopen.keyed, _, hopen.coherent _⟩

theorem Settled.step (hB : B.Lawful Inv) (h : Settled hasher B Inv s) (hs : Step B hasher s s') :
    Settled hasher B Inv s' := by
  obtain ⟨chains, hc⟩ := h.coherent
  exact ⟨h.safe.step hB hs, h.descending.step h.safe.exclusive h.safe.inRange hs, h.filled.step h.safe.inRange hs,
    h.keyed.step h.safe hc hs, hc.step h.safe hs (fun _ _ h => h) fun _ _ _ _ => trivial⟩

theorem Settled.reaches (hB : B.Lawful Inv) (h : Settled hasher B Inv s) (hs : Reaches B hasher s s') :
    Settled hasher B Inv s' := by
  induction hs with
  | refl => exact h
  | tail _ hstep ih => exact ih.step hB hstep

/-! ### The table at rest -/

theorem Settled.recordAt (h : Settled hasher B Inv s) (hrest : s.AtRest) {b : Nat} (hb : b < s.shared.bucketStorage.length) :
    ∃ rec, s.shared.recordAt b = some rec := by
  rcases h.filled b hb with ⟨c, hc⟩ | ⟨i, th, hi, hun⟩
  · obtain ⟨x, hx, -⟩ := h.safe.counted.bucket_live hc
    exact ⟨x.record, by rw [Shared.recordAt, hc, Option.bind_some, hx]; rfl⟩
  · refine absurd ?_ (hrest th (List.mem_of_getElem? hi))
    generalize th.pc = pc at hun
    cases pc <;> first | cases hun | trivial

private theorem filterMap_getElem? {α β : Type} {f : α → Option β} {l : List α} (h : ∀ a ∈ l, ∃ b, f a = some b) (j : Nat) :
    (l.filterMap f)[j]? = l[j]?.bind f := by
  induction l generalizing j with
  | nil => rfl
  | cons a l ih =>
    obtain ⟨b, hb⟩ := h a (List.mem_cons_self ..)
    rw [List.filterMap_cons_some hb]
    cases j with
    | zero => exact hb.symm
    | succ j => exact ih (fun a ha => h a (List.mem_cons_of_mem _ ha)) j

theorem Settled.records (h : Settled hasher B Inv s) (hrest : s.AtRest) (b : Nat) :
    s.shared.records[b]? = s.shared.recordAt b := by
  rw [Shared.records, filterMap_getElem? fun b hb => h.recordAt hrest (List.mem_range.1 hb)]
  rcases Nat.lt_or_ge b s.shared.bucketStorage.length with hb | hb
  · rw [List.getElem?_range hb, Option.bind_some]
  · rw [List.getElem?_eq_none (by simpa using hb), Option.bind_none]
    cases hrec : s.shared.recordAt b with
    | none => rfl
    | some rec => exact absurd (lt_of_recordAt hrec) (Nat.not_lt.2 hb)

/-- The records of the buckets are those in use. -/
theorem Settled.perm (h : Settled hasher B Inv s) (hrest : s.AtRest) :
    s.shared.records.Perm (live s.shared.controls) := by
  have hfile := h.safe.fileHolds (hrest.mutex h.safe.exclusive)
  have hbucket : ∀ {b : Nat} {rec : Record}, s.shared.records[b]? = some rec → ∃ c x,
      s.shared.loadPointer b = some c ∧ s.shared.controls[c]? = some x ∧ x.record = rec := by
    intro b rec hb
    rw [h.records hrest] at hb
    obtain ⟨c, hc, hx⟩ := Option.bind_eq_some_iff.1 hb
    obtain ⟨x, hx, hrec⟩ := Option.map_eq_some_iff.1 hx
    exact ⟨c, x, hc, hx, hrec⟩
  rw [List.perm_ext_iff_of_nodup]
  · intro rec
    rw [mem_live, List.mem_iff_getElem?]
    constructor
    · rintro ⟨b, hb⟩
      obtain ⟨c, x, hc, hx, rfl⟩ := hbucket hb
      exact ⟨c, x, hx, (hrest.live_iff h.safe.counted hx).2 ⟨b, hc⟩, rfl⟩
    · rintro ⟨c, x, hx, hlive, rfl⟩
      obtain ⟨b, hb⟩ := (hrest.live_iff h.safe.counted hx).1 hlive
      exact ⟨b, by rw [h.records hrest, Shared.recordAt, hb, Option.bind_some, hx]; rfl⟩
  · -- two buckets with one record would hold one block
    rw [List.nodup_iff_getElem?_ne_getElem?]
    intro b b' hlt hb' he
    have hrec := List.getElem?_eq_getElem hb'
    obtain ⟨c, x, hc, hx, hxr⟩ := hbucket (he.trans hrec)
    obtain ⟨c', x', hc', hx', hxr'⟩ := hbucket hrec
    have := h.safe.accounted.bucket b b' _ ⟨c, x, hc, hx, congrArg Record.data hxr⟩
      ⟨c', x', hc', hx', congrArg Record.data hxr'⟩
    omega
  · exact List.Nodup.of_map _ (hfile.nodup_data (l := []))

/-- The records with the places of their buckets. -/
def Shared.placed (hasher : Bytes → Nat) (sh : Shared N σ) : List (Record × Fin N) :=
  sh.records.map fun rec => (rec, hashTableIndex hasher rec.key)

private theorem Shared.map_fst_placed (hasher : Bytes → Nat) (sh : Shared N σ) :
    (sh.placed hasher).map Prod.fst = sh.records := by
  rw [Shared.placed, List.map_map]
  exact List.map_id _

private theorem Settled.placed (h : Settled hasher B Inv s) (hrest : s.AtRest) (b : Nat) :
    (s.shared.placed hasher)[b]? = (s.shared.recordAt b).map fun rec => (rec, hashTableIndex hasher rec.key) := by
  rw [Shared.placed, List.getElem?_map, h.records hrest]

/-- The chains are those of a table whose buckets were linked in the order in which they were made. -/
private theorem Settled.chain_eq (h : Settled hasher B Inv s) (hrest : s.AtRest) {was : Nat → Bytes → Prop}
    (hc : Coherent hasher was s chains) (x : Fin N) :
    chains x = chain (((s.shared.placed hasher).map entry).map Entry.index) x := by
  have hdesc : (chains x).Pairwise (· > ·) := (hc.published.linked x).pairwise h.descending.next_lt
  apply hdesc.eq_of_mem_iff (chain_descending _ x)
  intro b
  rw [mem_chain, List.getElem?_map, List.getElem?_map, h.placed hrest]
  constructor
  · intro hb
    obtain ⟨rec, hrec, rfl⟩ := hc.published.record x b hb
    rw [hrec]
    rfl
  · intro hb
    obtain ⟨e, he, rfl⟩ := Option.map_eq_some_iff.1 hb
    obtain ⟨y, hy, rfl⟩ := Option.map_eq_some_iff.1 he
    obtain ⟨rec, hrec, rfl⟩ := Option.map_eq_some_iff.1 hy
    obtain ⟨c, hptr, -⟩ := Option.bind_eq_some_iff.1 hrec
    rcases hc.linked b c hptr with ⟨x, hx⟩ | ⟨i, r, hi⟩
    · obtain ⟨rec', hrec', rfl⟩ := hc.published.record x b hx
      obtain rfl := Option.some.inj (hrec.symm.trans hrec')
      exact hx
    · exact absurd trivial (hrest _ (List.mem_of_getElem? hi))

/-- At rest the store is a table of the sequential program. -/
theorem Settled.holds (h : Settled hasher B Inv s) (hrest : s.AtRest) :
    Holds B s.shared.table (s.shared.placed hasher) (live s.shared.controls) := by
  have hfile := h.safe.fileHolds (hrest.mutex h.safe.exclusive)
  have hperm := h.perm hrest
  rw [← Shared.map_fst_placed hasher] at hperm
  obtain ⟨chains, hc⟩ := h.coherent
  refine ⟨⟨?_, fun x => ?_, ?_⟩, hfile, hperm⟩
  · apply List.ext_getElem?
    intro b
    rw [List.getElem?_map, List.getElem?_map, List.getElem?_map, h.placed hrest]
    have hdata := data_table s.shared b
    cases hb : s.shared.table.bucketStorage[b]? with
    | none =>
      rw [hb] at hdata
      cases hrec : s.shared.recordAt b with
      | none => rfl
      | some rec => rw [hrec] at hdata; cases hdata
    | some bucket =>
      have hlt : b < s.shared.bucketStorage.length := by
        simpa [Shared.table] using (List.getElem?_eq_some_iff.1 hb).1
      obtain ⟨rec, hrec⟩ := h.recordAt hrest hlt
      rw [hb, hrec] at hdata
      rw [hrec]
      exact congrArg some hdata
  · rw [← h.chain_eq hrest hc x]
    exact (hc.published.linked x).congr fun b _ => nextOf_table s.shared b
  · exact hfile.reads fun x hx => hperm.mem_iff.1 (List.mem_map_of_mem hx)

/-- A lookup finds the bucket that a search finds. -/
theorem Settled.lookup_eq (h : Settled hasher B Inv s) (hrest : s.AtRest) {was : Nat → Bytes → Prop}
    (hc : Coherent hasher was s chains) (key : Bytes) :
    lookup ((s.shared.placed hasher).map entry) (hashTableIndex hasher key) key =
      s.shared.bucketIn (chains (hashTableIndex hasher key)) key := by
  rw [lookup_eq_find?, ← h.chain_eq hrest hc, Shared.bucketIn]
  apply List.find?_congr
  intro b hb
  rw [List.getElem?_map, h.placed hrest, Shared.keyAt]
  cases s.shared.recordAt b with
  | none => rfl
  | some rec => simp [entry]

/-- The table holds the map of the log. -/
theorem Settled.current_eq (h : Settled hasher B Inv s) (hrest : s.AtRest) (key : Bytes) :
    current (s.shared.placed hasher) (hashTableIndex hasher key) key = mapOf s.shared.log key := by
  obtain ⟨chains, hc⟩ := h.coherent
  rw [current_eq_lookup, h.lookup_eq hrest hc, hc.published.map key]
  cases s.shared.bucketIn (chains (hashTableIndex hasher key)) key with
  | none => rfl
  | some b =>
    rw [Option.bind_some, Option.bind_some, h.placed hrest]
    cases s.shared.recordAt b <;> rfl

/-- At rest the table is one of the sequential program.  It reads the map of the log, and if the file had one record for each
key an iteration visits the keys of the log once, with their values. -/
structure AtRestHolds (hasher : Bytes → Nat) (B : Buffer σ) (rs : List Record) (s : State N σ) : Prop where
  holds : ∃ xs rs', Holds B s.shared.table xs rs'
  get : ∀ key, ConcurrentHashTable.get B hasher s.shared.table key = some (mapOf s.shared.log key)
  pairs : (rs.map Record.key).Nodup → ∃ ps, pairs B s.shared.table = some ps ∧ (ps.map Prod.fst).Nodup ∧
    (∀ key, key ∈ ps.map Prod.fst ↔ ∃ e ∈ s.shared.log, e.key = key) ∧ ∀ p ∈ ps, p.2 = mapOf s.shared.log p.1

theorem Settled.pairs (h : Settled hasher B Inv s) (hrest : s.AtRest) (hone : OneBucket s.shared) :
    ∃ ps, ConcurrentHashTable.pairs B s.shared.table = some ps ∧ (ps.map Prod.fst).Nodup ∧
      (∀ key, key ∈ ps.map Prod.fst ↔ ∃ e ∈ s.shared.log, e.key = key) ∧ ∀ p ∈ ps, p.2 = mapOf s.shared.log p.1 := by
  have hkey : ∀ {b : Nat} {key : Bytes}, (s.shared.records.map Record.key)[b]? = some key ↔ s.shared.keyAt b = some key := by
    intro b key
    rw [List.getElem?_map, h.records hrest, Shared.keyAt]
  refine ⟨s.shared.records.map fun rec => (rec.key, rec.value), ?_, ?_, fun key => ?_, fun p hp => ?_⟩
  · apply (h.holds hrest).represents.pairs_eq
    rw [Shared.placed, List.map_map, List.map_map, List.map_map]
    rfl
  · rw [List.map_map, List.nodup_iff_getElem?_ne_getElem?]
    intro b b' hlt hb' he
    have hb := hkey.1 (List.getElem?_eq_getElem hb')
    have := hone b b' _ (hkey.1 (he.trans (hkey.2 hb))) hb
    omega
  · rw [List.map_map]
    constructor
    · intro hk
      obtain ⟨b, hb⟩ := List.mem_iff_getElem?.1 hk
      rcases h.keyed.bucket b key (hkey.1 hb) with he | ⟨i, r, hi, -⟩
      · exact he
      · exact absurd trivial (hrest _ (List.mem_of_getElem? hi))
    · rintro ⟨e, he, rfl⟩
      obtain ⟨b, hb⟩ := h.keyed.logged e he
      exact List.mem_of_getElem? (hkey.2 hb)
  · obtain ⟨rec, hrec, rfl⟩ := List.mem_map.1 hp
    obtain ⟨b, hb⟩ := List.mem_iff_getElem?.1 hrec
    rw [h.records hrest] at hb
    obtain ⟨chains, hc⟩ := h.coherent
    obtain ⟨c, hptr, -⟩ := Option.bind_eq_some_iff.1 hb
    have hkb : s.shared.keyAt b = some rec.key := by rw [Shared.keyAt, hb]; rfl
    -- the only bucket with the key is the one that a search finds
    rcases hc.linked b c hptr with ⟨x, hx⟩ | ⟨i, r, hi⟩
    · obtain rfl := hc.published.index hx hkb
      cases hfind : s.shared.bucketIn (chains (hashTableIndex hasher rec.key)) rec.key with
      | none => exact absurd hkb (bucketIn_eq_none.1 hfind b hx)
      | some b' =>
        obtain rfl := hone b b' rec.key hkb (bucketIn_eq_some hfind).2
        exact (hc.published.map_of_found hfind hb).symm
    · exact absurd trivial (hrest _ (List.mem_of_getElem? hi))

private theorem JustOpened.atRestHolds (hB : B.Lawful Inv) (hopen : JustOpened hasher rs file s) (hi : Inv file)
    (hf : FileHolds B file (rs.map Record.block) rs) (hs : Reaches B hasher s s') (hrest : s'.AtRest) :
    AtRestHolds hasher B rs s' := by
  have h := (hopen.settled hi hf).reaches hB hs
  obtain ⟨-, -, hone, -⟩ := hopen.reaches hB (hopen.safe hi hf) hs
  refine ⟨⟨_, _, h.holds hrest⟩, fun key => ?_, fun hkeys => h.pairs hrest (hone hkeys)⟩
  rw [(h.holds hrest).get hasher key, h.current_eq hrest key]

theorem AtRestHolds.withAlloc (h : AtRestHolds hasher B rs s) {f : Nat → σ → Option Nat × σ} :
    AtRestHolds hasher (B.withAlloc f) rs s := by
  refine ⟨?_, fun key => by rw [get_withAlloc, h.get], h.pairs⟩
  obtain ⟨xs, rs', hholds⟩ := h.holds
  exact ⟨xs, rs', ⟨hholds.represents.data, hholds.represents.chains, hholds.represents.reads⟩, hholds.file.withAlloc,
    hholds.perm⟩

/-- In every state that a run from a file of records reaches without a stale split while no call is in progress, the store is
a table of the sequential program that holds the map of the log. -/
theorem store_at_rest {dbSize : Nat} {file : FileBackedBuffer} (hi : file.Sound dbSize) {rs : List Record}
    (hf : FileHolds (plainBuffer dbSize) file (rs.map Record.block) rs) (hasher : Bytes → Nat) :
    ∃ s₀, State.opened (N := N) (plainBuffer dbSize) hasher file = some s₀ ∧
      ∀ states L, Run (plainBuffer dbSize) hasher s₀ states L → NoStaleSplitIn states L → (states L).AtRest →
        AtRestHolds hasher (plainBuffer dbSize) rs (states L) := by
  obtain ⟨s₀, hs₀, hopen⟩ := opened_of_holds (N := N) hf hasher
  refine ⟨s₀, hs₀, fun states L h hns hrest => ?_⟩
  exact (hopen.atRestHolds (guardedBuffer_lawful dbSize) hi hf.guarded (h.guarded hns).reaches hrest).withAlloc

theorem store_at_rest_of_one_bucket :
    ∃ s₀, State.opened (N := 1) (plainBuffer 220) List.length (emptyFile 220 (by decide)) = some s₀ ∧
      ∀ states L, Run (plainBuffer 220) List.length s₀ states L → NoStaleSplitIn states L → (states L).AtRest →
        AtRestHolds List.length (plainBuffer 220) [] (states L) := by
  obtain ⟨hi, hs⟩ := emptyFile_sound 220 (by decide) (by decide)
  have hf : FileHolds (plainBuffer 220) (emptyFile 220 (by decide)) (([] : List Record).map Record.block) [] :=
    fileHolds_empty hs
  exact store_at_rest hi hf List.length

end KeyValueStore
