import KeyValueStore.Accounting
import KeyValueStore.GuardedRuns
import KeyValueStore.Linearizable

/-!
# A kill while calls read

A record that was replaced stays in the file as long as a call holds it.  A process that opens the file then finds two
records of one key, and takes the oldest.  So the file keeps the map if and only if no call holds the oldest record of a key
with another value than the map has (`OldestCurrent`); where the file held several records of a key from the start, their
buckets count too.
-/

namespace KeyValueStore

open SinglyLinked ConcurrentHashTable References

variable {N : Nat} {σ : Type} {B : Buffer σ} {Inv : σ → Prop} {hasher : Bytes → Nat} {s s' : State N σ}
  {sh sh' : Shared N σ} {i : Nat} {r : Request} {pc pc' : Pc} {chains : Fin N → List Nat} {file : σ} {rs : List Record}

/-- The control block has a record, and no older one has a record of its key. -/
def Oldest (sh : Shared N σ) (c : Nat) (x : Control) : Prop :=
  sh.controls[c]? = some x ∧ x.useCount ≠ 0 ∧
    ∀ c' < c, ∀ x', sh.controls[c']? = some x' → x'.useCount ≠ 0 → x'.record.key ≠ x.record.key

/-- The oldest record of a key has the value of the map if a call holds it, or one of several buckets of the key. -/
structure OldestCurrent (s : State N σ) : Prop where
  held : ∀ (i : Nat) (th : Thread) (c : Nat) (x : Control), s.threads[i]? = some th → th.pc.control = some c →
    Oldest s.shared c x → x.record.value = mapOf s.shared.log x.record.key
  doubled : ∀ (b b' c : Nat) (x : Control), b ≠ b' → s.shared.keyAt b = s.shared.keyAt b' →
    s.shared.loadPointer b = some c → Oldest s.shared c x → x.record.value = mapOf s.shared.log x.record.key

/-! ### The oldest record -/

private theorem lastValue_live (controls : List Control) (key : Bytes) :
    lastValue (live controls) key =
      (controls.find? fun x => x.useCount ≠ 0 ∧ x.record.key = key).elim [] fun x => x.record.value := by
  have hfilter : ((live controls).filter fun r => r.key = key) =
      ((controls.filter fun x => x.useCount ≠ 0 ∧ x.record.key = key).map Control.record).reverse := by
    rw [live, List.filter_reverse, List.filter_map, List.filter_filter]
    congr 2
    apply List.filter_congr
    intro x _
    simp [and_comm]
  rw [lastValue, hfilter, List.getLast?_reverse, List.head?_map, List.head?_filter]
  cases controls.find? _ <;> rfl

private theorem oldest_iff {key : Bytes} {x : Control} :
    (sh.controls.find? fun x => x.useCount ≠ 0 ∧ x.record.key = key) = some x ↔
      x.record.key = key ∧ ∃ c, Oldest sh c x := by
  rw [List.find?_eq_some_iff_getElem]
  constructor
  · rintro ⟨hx, c, hc, rfl, hmin⟩
    obtain ⟨hlive, rfl⟩ := of_decide_eq_true hx
    refine ⟨rfl, c, List.getElem?_eq_getElem hc, hlive, fun c' hc' x' hx' hlive' hk => ?_⟩
    have hno := hmin c' hc'
    rw [List.getElem?_eq_getElem (by omega)] at hx'
    obtain rfl := Option.some.inj hx'
    simp [hlive', hk] at hno
  · rintro ⟨rfl, c, hx, hlive, hmin⟩
    obtain ⟨hc, rfl⟩ := List.getElem?_eq_some_iff.1 hx
    refine ⟨by simp [hlive], c, hc, rfl, fun c' hc' => ?_⟩
    have hno := hmin c' hc' _ (List.getElem?_eq_getElem (by omega))
    simpa [or_iff_not_imp_left] using hno

/-- While no `put` holds the mutex the file holds records only. -/
theorem Safe.fileHolds (hs : Safe B Inv s) (hm : s.shared.writeMutex = none) :
    FileHolds B s.shared.buffer ((live s.shared.controls).map Record.block) (live s.shared.controls) := by
  obtain ⟨pend, hp⟩ := hs.stored
  have hidle : pend = [] := by
    apply hp.idle
    intro j th hj
    cases hb : th.pc.block with
    | none => rfl
    | some p => exact absurd (critical_of_block hb) (hs.exclusive.not_critical hm hj)
  have hfile := hp.file
  rw [hidle] at hfile
  exact hfile

variable [NeZero N]

private theorem OldestCurrent.bucket_current {was : Nat → Bytes → Prop} (h : OldestCurrent s) (hs : Safe B Inv s)
    (hc : Coherent hasher was s chains) (hm : s.shared.writeMutex = none) {b c : Nat} {x : Control}
    (hb : s.shared.loadPointer b = some c) (hold : Oldest s.shared c x) :
    x.record.value = mapOf s.shared.log x.record.key := by
  have hrec : s.shared.recordAt b = some x.record := by
    rw [Shared.recordAt, hb, Option.bind_some, hold.1]
    rfl
  have hkey : s.shared.keyAt b = some x.record.key := by rw [Shared.keyAt, hrec, Option.map_some]
  rcases hc.linked b c hb with ⟨y, hy⟩ | ⟨i, r, hi⟩
  · obtain rfl := hc.published.index hy hkey
    cases hfind : s.shared.bucketIn (chains (hashTableIndex hasher x.record.key)) x.record.key with
    | none => exact absurd hkey (bucketIn_eq_none.1 hfind b hy)
    | some b' =>
      by_cases hbb : b = b'
      · subst hbb
        exact (hc.published.map_of_found hfind hrec).symm
      · exact h.doubled b b' c x hbb (hkey.trans (bucketIn_eq_some hfind).2.symm) hb hold
  · exact absurd trivial (hs.exclusive.not_critical hm hi)

/-- The file keeps the map if the oldest records are current. -/
theorem oldestCurrent_iff {was : Nat → Bytes → Prop} (hs : Safe B Inv s) (hc : Coherent hasher was s chains)
    (hm : s.shared.writeMutex = none) :
    OldestCurrent s ↔ ∀ key, lastValue (live s.shared.controls) key = mapOf s.shared.log key := by
  constructor
  · intro h key
    rw [lastValue_live]
    cases hfind : s.shared.controls.find? fun x => x.useCount ≠ 0 ∧ x.record.key = key with
    | none =>
      -- a linked bucket with the key would hold a record of it
      symm
      apply hc.published.map_of_absent
      rw [bucketIn_eq_none]
      intro b hb hk
      obtain ⟨rec, hrec, -⟩ := hc.published.record _ b hb
      rw [Shared.keyAt, hrec, Option.map_some] at hk
      obtain ⟨c, hptr, hx⟩ := Option.bind_eq_some_iff.1 hrec
      obtain ⟨x, hx', hlive⟩ := hs.counted.bucket_live hptr
      rw [hx', Option.map_some] at hx
      have hno := List.find?_eq_none.1 hfind x (List.mem_of_getElem? hx')
      simp [hlive, Option.some.inj hx, Option.some.inj hk] at hno
    | some x =>
      obtain ⟨rfl, c, hold⟩ := oldest_iff.1 hfind
      rw [Option.elim_some]
      rcases (hs.counted.useCount_ne_zero hold.1).1 hold.2.1 with ⟨b, hb⟩ | ⟨i, th, hi, hth⟩
      · exact h.bucket_current hs hc hm hb hold
      · exact h.held i th c x hi hth hold
  · intro h
    have hvalue : ∀ {c : Nat} {x : Control}, Oldest s.shared c x → x.record.value = mapOf s.shared.log x.record.key := by
      intro c x hold
      rw [← h, lastValue_live, oldest_iff.2 ⟨rfl, c, hold⟩]
      rfl
    exact ⟨fun i th c x _ _ hold => hvalue hold, fun b b' c x _ _ _ hold => hvalue hold⟩

/-! ### One bucket for a key -/

/-- No two buckets have the same key. -/
def OneBucket (sh : Shared N σ) : Prop :=
  ∀ b b' key, sh.keyAt b = some key → sh.keyAt b' = some key → b = b'

private theorem JustOpened.oneBucket (hopen : JustOpened hasher rs file s) (hkeys : (rs.map Record.key).Nodup) :
    OneBucket s.shared := by
  intro b b' key hb hb'
  rw [Shared.keyAt, hopen.recordAt, ← List.getElem?_map] at hb hb'
  exact (List.getElem?_inj (List.getElem?_eq_some_iff.1 hb).1 hkeys).1 (hb.trans hb'.symm)

/-- A new bucket is filled while no bucket has its key. -/
theorem OneBucket.fill {was : Nat → Bytes → Prop} (h : OneBucket s.shared) (hs : Safe B Inv s)
    (hc : Coherent hasher was s chains) {p b : Nat} (hth : s.threads[i]? = some ⟨r, .setPointer p b true⟩) :
    OneBucket (s.shared.exchange B r p b) := by
  obtain ⟨key, value, rfl⟩ := (hc.knows i _ hth).typed.put_of_critical rfl
  obtain ⟨hb, -, -, habs⟩ : b < s.shared.bucketStorage.length ∧ (∀ x, b ∉ chains x) ∧ s.shared.loadPointer b = none ∧
    Absent hasher s.shared chains key := ((hc.knows i _ hth).put key value rfl).2
  have hnone : ∀ b', s.shared.keyAt b' ≠ some key := by
    intro b' hk
    obtain ⟨rec, hrec, -⟩ := Option.map_eq_some_iff.1 hk
    obtain ⟨c, hptr, -⟩ := Option.bind_eq_some_iff.1 hrec
    rcases hc.linked b' c hptr with ⟨x, hx⟩ | ⟨j, r', hj⟩
    · obtain rfl := hc.published.index hx hk
      exact bucketIn_eq_none.1 habs b' hx hk
    · -- a call that is about to link a bucket would hold the mutex too
      obtain rfl := hs.exclusive.eq_of_critical hth hj rfl trivial
      rw [hth] at hj
      cases hj
  intro b₁ b₂ k h₁ h₂
  rw [keyAt_exchange hs.counted.bucket_lt hb] at h₁ h₂
  split at h₁ <;> split at h₂
  · exact (‹b = b₁›).symm.trans ‹b = b₂›
  · exact absurd (h₂.trans h₁.symm) (hnone b₂)
  · exact absurd (h₁.trans h₂.symm) (hnone b₁)
  · exact h b₁ b₂ k h₁ h₂

theorem OneBucket.step {was : Nat → Bytes → Prop} (h : OneBucket s.shared) (hs : Safe B Inv s)
    (hc : Coherent hasher was s chains) (hstep : Step B hasher s s') : OneBucket s'.shared := by
  have hsame : (∀ b, s'.shared.keyAt b = s.shared.keyAt b) → OneBucket s'.shared := by
    intro hkey b b' key hb hb'
    rw [hkey] at hb hb'
    exact h b b' key hb hb'
  rcases hstep.cases with ⟨r, -, rfl⟩ | ⟨i, r, pc, sh', pc', hth, hf, rfl⟩
  · exact h
  · by_cases hpub : pc.Publishes
    · rcases fires_publishes hf hpub with ⟨p, -, -, rfl⟩ | ⟨p, b, isNew, rfl, -, rfl⟩ | ⟨b, -, -, rfl⟩
      · exact hsame (keyAt_newBucket s.shared)
      · cases isNew with
        | true => exact h.fill hs hc hth
        | false =>
          obtain ⟨key, value, rfl⟩ := (hc.knows i _ hth).typed.put_of_critical rfl
          have hb : Located hasher s.shared chains key b := ((hc.knows i _ hth).put key value rfl).2
          obtain ⟨hmem, hk⟩ := bucketIn_eq_some hb
          exact hsame (keyAt_exchange_of_eq (r := .put key value) hs.counted.bucket_lt (hc.published.lt hmem) hk p)
      · exact hsame (keyAt_link s.shared r.key b)
    · exact hsame (fires_quiet hf hpub).keyAt

/-! ### The puts that returned -/

/-- The `put` has taken effect. -/
def Pc.Effective : Pc → Prop
  | .dropOld _ _ isNew => isNew = false
  | .unlock ok => ok = true
  | .returned (.ok ok) => ok = true
  | _ => False

/-- The entries of the log belong to `put`s that took effect. -/
def Recorded (s : State N σ) : Prop :=
  ∀ e ∈ s.shared.log, ∀ i, e.thread = some i →
    ∃ pc, s.threads[i]? = some ⟨.put e.key e.value, pc⟩ ∧ pc.Effective

theorem fires_effective (h : Fires B hasher sh i r pc sh' pc') (he : pc.Effective) : pc'.Effective := by
  cases h with
  | dropOld =>
    obtain rfl := he
    rfl
  | unlock => exact he
  | _ => cases he

/-- An entry that a step adds to the log is that of the call. -/
theorem fires_log (h : Fires B hasher sh i r pc sh' pc') :
    sh'.log = sh.log ∨ sh'.log = sh.log ++ [⟨some i, r.key, r.value⟩] ∧ pc.Publishes ∧ pc'.Effective := by
  by_cases hp : pc.Publishes
  · rcases fires_publishes h hp with ⟨p, -, -, rfl⟩ | ⟨p, b, isNew, -, hpc', rfl⟩ | ⟨b, -, rfl, rfl⟩
    · exact Or.inl rfl
    · cases isNew with
      | true => exact Or.inl rfl
      | false =>
        refine Or.inr ⟨rfl, hp, ?_⟩
        rcases hpc' with ⟨rfl, -⟩ | ⟨c, rfl, -⟩ <;> rfl
    · exact Or.inr ⟨rfl, hp, rfl⟩
  · exact Or.inl (fires_quiet h hp).log

theorem Recorded.step {was : Nat → Bytes → Prop} (h : Recorded s) (hc : Coherent hasher was s chains)
    (hs : Step B hasher s s') : Recorded s' := by
  intro e he j hj
  rcases hs.cases with ⟨r, -, rfl⟩ | ⟨i, r, pc, sh', pc', hth, hf, rfl⟩
  · obtain ⟨pc, hpc, heff⟩ := h e he j hj
    exact ⟨pc, getElem?_of_extends (List.prefix_append ..) hpc, heff⟩
  · have hi : (s.threads.set i ⟨r, pc'⟩)[i]? = some ⟨r, pc'⟩ :=
      List.getElem?_set_self (List.getElem?_eq_some_iff.1 hth).1
    have hold : e ∈ s.shared.log → ∃ pc₁, (s.threads.set i ⟨r, pc'⟩)[j]? = some ⟨.put e.key e.value, pc₁⟩ ∧ pc₁.Effective := by
      intro he
      obtain ⟨pc₁, hpc₁, heff⟩ := h e he j hj
      by_cases hij : i = j
      · subst hij
        obtain ⟨rfl, rfl⟩ := Thread.mk.inj (Option.some.inj (hth.symm.trans hpc₁))
        exact ⟨pc', hi, fires_effective hf heff⟩
      · exact ⟨pc₁, by rw [List.getElem?_set_ne hij, hpc₁], heff⟩
    rcases fires_log hf with hlog | ⟨hlog, hpub, heff⟩
    · exact hold (hlog ▸ he)
    · replace he : e ∈ s.shared.log ++ [⟨some i, r.key, r.value⟩] := hlog ▸ he
      rcases List.mem_append.1 he with he | he
      · exact hold he
      · obtain rfl := List.mem_singleton.1 he
        obtain rfl : i = j := Option.some.inj hj
        obtain ⟨key, value, rfl⟩ := (hc.knows i _ hth).typed.put_of_critical (critical_of_publishes hpub)
        exact ⟨pc', hi, heff⟩

/-- The log holds exactly the `put`s that returned `true`. -/
structure Acknowledged (s : State N σ) : Prop where
  returned : ∀ e ∈ s.shared.log, ∀ i, e.thread = some i →
    s.threads[i]? = some ⟨.put e.key e.value, .returned (.ok true)⟩
  logged : ∀ (i : Nat) (key value : Bytes), s.threads[i]? = some ⟨.put key value, .returned (.ok true)⟩ →
    ⟨some i, key, value⟩ ∈ s.shared.log

private theorem Recorded.acknowledged {was : Nat → Bytes → Prop} (h : Recorded s) (hs : Safe B Inv s)
    (hc : Coherent hasher was s chains) (hm : s.shared.writeMutex = none) : Acknowledged s := by
  refine ⟨fun e he i hi => ?_, fun i key value hi => ((hc.knows i _ hi).put key value rfl).2 rfl⟩
  obtain ⟨pc, hpc, heff⟩ := h e he i hi
  have hno : ¬ pc.Critical := hs.exclusive.not_critical hm hpc
  cases pc with
  | dropOld => exact absurd trivial hno
  | unlock => exact absurd trivial hno
  | returned result =>
    cases result with
    | value value => cases heff
    | ok ok =>
      obtain rfl : ok = true := heff
      exact hpc
  | _ => cases heff

/-! ### The kill -/

/-- The invariants, in every state that is reached. -/
theorem JustOpened.reaches (hB : B.Lawful Inv) (hopen : JustOpened hasher rs file s) (hsafe : Safe B Inv s)
    (hs : Reaches B hasher s s') :
    Safe B Inv s' ∧ Recorded s' ∧ ((rs.map Record.key).Nodup → OneBucket s'.shared) ∧
      ∃ chains, Coherent hasher (fun _ _ => True) s' chains := by
  induction hs with
  | refl =>
    refine ⟨hsafe, fun e he i hi => ?_, hopen.oneBucket, _, hopen.coherent _⟩
    rw [hopen.log] at he
    obtain ⟨rec, -, rfl⟩ := List.mem_map.1 he
    cases hi
  | tail _ hstep ih =>
    obtain ⟨hsafe, hrec, hone, chains, hc⟩ := ih
    exact ⟨hsafe.step hB hstep, hrec.step hc hstep, fun hkeys => (hone hkeys).step hsafe hc hstep,
      hc.step hsafe hstep (fun _ _ h => h) fun _ _ _ _ => trivial⟩

/-- In every state that a run without a stale split reaches while no `put` holds the mutex, a process that opens the file
finds for every key the value of the last `put` that returned `true` if and only if the oldest records are current.  If the
file had one record for each key, so has the table one bucket. -/
theorem puts_durable_iff {dbSize : Nat} {file : FileBackedBuffer} (hi : file.Sound dbSize) {rs : List Record}
    (hf : FileHolds (plainBuffer dbSize) file (rs.map Record.block) rs) (hasher : Bytes → Nat) :
    ∃ s₀, State.opened (N := N) (plainBuffer dbSize) hasher file = some s₀ ∧
      ∀ states L, Run (plainBuffer dbSize) hasher s₀ states L → NoStaleSplitIn states L →
        (states L).shared.writeMutex = none → Acknowledged (states L) ∧
          ((∀ hasher' key, getAfterReopen N (plainBuffer dbSize) hasher' (states L).shared.buffer key =
              some (mapOf (states L).shared.log key)) ↔ OldestCurrent (states L)) ∧
          ((rs.map Record.key).Nodup → OneBucket (states L).shared) := by
  obtain ⟨s₀, hs₀, hopen⟩ := opened_of_holds (N := N) hf hasher
  refine ⟨s₀, hs₀, fun states L h hns hm => ?_⟩
  obtain ⟨hsafe, hrec, hone, chains, hc⟩ :=
    hopen.reaches (guardedBuffer_lawful dbSize) (hopen.safe hi hf.guarded) (h.guarded hns).reaches
  refine ⟨hrec.acknowledged hsafe hc hm, ?_, hone⟩
  simp only [oldestCurrent_iff hsafe hc hm, plainBuffer_eq, getAfterReopen_withAlloc,
    getAfterReopen_eq (hsafe.fileHolds hm), Option.some.injEq]
  exact ⟨fun h key => h hasher key, fun h _ => h⟩

theorem puts_durable_of_one_bucket :
    ∃ s₀, State.opened (N := 1) (plainBuffer 220) List.length (emptyFile 220 (by decide)) = some s₀ ∧
      ∀ states L, Run (plainBuffer 220) List.length s₀ states L → NoStaleSplitIn states L →
        (states L).shared.writeMutex = none → Acknowledged (states L) ∧
          ((∀ hasher' key, getAfterReopen 1 (plainBuffer 220) hasher' (states L).shared.buffer key =
              some (mapOf (states L).shared.log key)) ↔ OldestCurrent (states L)) ∧
          ((([] : List Record).map Record.key).Nodup → OneBucket (states L).shared) := by
  obtain ⟨hi, hs⟩ := emptyFile_sound 220 (by decide) (by decide)
  have hf : FileHolds (plainBuffer 220) (emptyFile 220 (by decide)) (([] : List Record).map Record.block) [] :=
    fileHolds_empty hs
  exact puts_durable_iff hi hf List.length

/-- A `get` has loaded the record of the first `put`, and the second `put` has returned `true`: a kill loses the second
value. -/
theorem put_not_durable :
    ∃ s₀ states L, State.opened (N := 1) (plainBuffer 220) List.length (emptyFile 220 (by decide)) = some s₀ ∧
      Run (plainBuffer 220) List.length s₀ states L ∧ (states L).shared.writeMutex = none ∧
      (states L).threads = [⟨.put [97] [49], .returned (.ok true)⟩, ⟨.get [97], .readValue 0⟩,
        ⟨.put [97] [50], .returned (.ok true)⟩] ∧
      mapOf (states L).shared.log [97] = [50] ∧
      getAfterReopen 1 (plainBuffer 220) List.length (states L).shared.buffer [97] = some [49] := by
  let calls : List (Request ⊕ Nat) := .inl (.put [97] [49]) :: List.replicate 9 (.inr 0) ++
    .inl (.get [97]) :: List.replicate 5 (.inr 1) ++ .inl (.put [97] [50]) :: List.replicate 12 (.inr 2)
  have hcalls : ∀ r ∈ calls.filterMap Sum.getLeft?, r.NulFree := by decide
  have hany : ((State.opened (N := 1) (plainBuffer 220) List.length (emptyFile 220 (by decide))).any fun s₀ =>
      (s₀.run (plainBuffer 220) List.length calls).any fun s => s.shared.writeMutex = none ∧
        s.threads = [⟨.put [97] [49], .returned (.ok true)⟩, ⟨.get [97], .readValue 0⟩,
          ⟨.put [97] [50], .returned (.ok true)⟩] ∧
        mapOf s.shared.log [97] = [50] ∧
        getAfterReopen 1 (plainBuffer 220) List.length s.shared.buffer [97] = some [49]) = true := by
    decide +kernel
  obtain ⟨s₀, hs₀, hany⟩ := (Option.any_eq_true _ _).1 hany
  obtain ⟨s, hs, hfinal⟩ := (Option.any_eq_true _ _).1 hany
  obtain ⟨states, hrun, rfl⟩ := exists_run hs hcalls
  exact ⟨s₀, states, _, hs₀, hrun, of_decide_eq_true hfinal⟩

end KeyValueStore
