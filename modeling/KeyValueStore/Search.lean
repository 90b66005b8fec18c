import KeyValueStore.Opened
import KeyValueStore.Published

/-!
# What a call knows

A reader stands on a bucket of the chain of its key.  Buckets are linked in front of it, never behind it, and the buckets
that it has passed have other keys, so at the end of the chain the key was absent when the search began (`Standing`).  A
writer knows, as it holds the mutex, whether its key is in the table, and stores its record into the bucket of the key or
into a new one (`Pc.Writes`).  These facts are kept by every step, together with the published buckets (`Coherent`).
-/

namespace KeyValueStore

open SinglyLinked ConcurrentHashTable

variable {N : Nat} {σ : Type} {B : Buffer σ} {Inv : σ → Prop} {hasher : Bytes → Nat} {s s' : State N σ}
  {sh sh' : Shared N σ} {i : Nat} {r : Request} {pc pc' : Pc} {chains chains' : Fin N → List Nat} {key : Bytes}
  {b : Nat} {absent absent' : Prop} {was was' : Bytes → Prop}

/-- The record of a control block that a call holds can be read. -/
theorem Safe.readable (h : Safe B Inv s) {th : Thread} (hth : s.threads[i]? = some th) {c : Nat}
    (hc : th.pc.control = some c) : ∃ rec, s.shared.controls[c]?.map Control.record = some rec ∧
      s.shared.keyString B c = some rec.key ∧ s.shared.valueString B c = some rec.value := by
  obtain ⟨pend, hstored⟩ := h.stored
  obtain ⟨x, hx, hlive⟩ := h.counted.thread_live hth hc
  have hrec : x.record ∈ live s.shared.controls := mem_live.2 ⟨c, x, hx, hlive, rfl⟩
  have hkey : string B s.shared.buffer x.record.data = some x.record.key := hstored.file.string_key hrec
  have hvalue : string B s.shared.buffer (x.record.data + x.record.key.length + 1) = some x.record.value :=
    hstored.file.string_value hrec
  refine ⟨x.record, by rw [hx]; rfl, ?_, ?_⟩
  · rw [Shared.keyString, hx]
    exact hkey
  · simp only [Shared.valueString, hx, Option.bind_eq_bind, Option.bind_some, hkey, hvalue]

variable [NeZero N]

/-- A search for the key finds the bucket. -/
def Located (hasher : Bytes → Nat) (sh : Shared N σ) (chains : Fin N → List Nat) (key : Bytes) (b : Nat) : Prop :=
  sh.bucketIn (chains (hashTableIndex hasher key)) key = some b

/-- No linked bucket has the key. -/
def Absent (hasher : Bytes → Nat) (sh : Shared N σ) (chains : Fin N → List Nat) (key : Bytes) : Prop :=
  sh.bucketIn (chains (hashTableIndex hasher key)) key = none

/-- The call stands on a bucket of the chain of the key.  What it finds from there on is what a search finds, and if it finds
nothing the key is absent. -/
def Standing (hasher : Bytes → Nat) (sh : Shared N σ) (chains : Fin N → List Nat) (key : Bytes) (absent : Prop) (b : Nat) :
    Prop :=
  ∃ l l', chains (hashTableIndex hasher key) = l ++ b :: l' ∧
    (∀ b', sh.bucketIn (b :: l') key = some b' → Located hasher sh chains key b') ∧
    (sh.bucketIn (b :: l') key = none → absent)

/-- The call has made its first step and not yet its last. -/
def Pc.Running : Pc → Prop
  | .called => False
  | .returned _ => False
  | _ => True

/-- What a call knows of its search, and of the values `was` that the map has held for its key. -/
def Pc.Searches (hasher : Bytes → Nat) (sh : Shared N σ) (chains : Fin N → List Nat) (key : Bytes) (absent : Prop)
    (was : Bytes → Prop) : Pc → Prop
  | .findLoad _ b => Standing hasher sh chains key absent b
  | .findCompare _ b c => Standing hasher sh chains key absent b ∧
      ∃ rec, sh.controls[c]?.map Control.record = some rec ∧ sh.keyAt b = some rec.key
  | .findDrop _ b _ equal => Standing hasher sh chains key absent b ∧ (equal = true ↔ sh.keyAt b = some key)
  | .findNext _ b => Standing hasher sh chains key absent b ∧ sh.keyAt b ≠ some key
  | .found _ none => absent
  | .found _ (some b) => Located hasher sh chains key b
  | .readValue c => ∃ rec, sh.controls[c]?.map Control.record = some rec ∧ was rec.value
  | .dropValue _ value => was value
  | .returned (.value value) => was value
  | _ => True

/-- The bucket into which a `put` stores its record. -/
def Target (hasher : Bytes → Nat) (sh : Shared N σ) (chains : Fin N → List Nat) (key : Bytes) (b : Nat) (isNew : Bool) :
    Prop :=
  if isNew then
    b < sh.bucketStorage.length ∧ (∀ x, b ∉ chains x) ∧ sh.loadPointer b = none ∧ Absent hasher sh chains key
  else
    Located hasher sh chains key b

/-- The `put` took effect. -/
def Logged (sh : Shared N σ) (i : Nat) (r : Request) : Prop := ⟨some i, r.key, r.value⟩ ∈ sh.log

/-- What a `put` knows of the bucket of its key. -/
def Pc.Writes (hasher : Bytes → Nat) (sh : Shared N σ) (chains : Fin N → List Nat) (i : Nat) (r : Request) : Pc → Prop
  | .copyKey _ b isNew => Target hasher sh chains r.key b isNew
  | .copyValue _ b isNew => Target hasher sh chains r.key b isNew
  | .setPointer _ b isNew => Target hasher sh chains r.key b isNew
  | .dropOld _ _ isNew => isNew = false ∧ Logged sh i r
  | .storeBucket b => (∀ x, b ∉ chains x) ∧ Absent hasher sh chains r.key ∧
      ∃ rec, sh.recordAt b = some rec ∧ rec.key = r.key ∧ rec.value = r.value
  | .unlock ok => ok = true → Logged sh i r
  | .returned (.ok ok) => ok = true → Logged sh i r
  | _ => True

/-- A `get` is never in the critical section, a `put` always but at its ends. -/
def Thread.Typed (th : Thread) : Prop :=
  match th.request with
  | .get _ => ¬ th.pc.Critical ∧ ∀ ok, th.pc ≠ .returned (.ok ok)
  | .put _ _ => th.pc.Critical ∨ th.pc = .called ∨ ∃ ok, th.pc = .returned (.ok ok)

/-- What a call knows.  A `get` knows that its key was absent at some time, a `put` that it is. -/
structure Thread.Knows (hasher : Bytes → Nat) (sh : Shared N σ) (chains : Fin N → List Nat) (i : Nat)
    (was : Bytes → Prop) (th : Thread) : Prop where
  typed : th.Typed
  get : ∀ key, th.request = .get key → th.pc.Searches hasher sh chains key (was []) was
  put : ∀ key value, th.request = .put key value →
    th.pc.Searches hasher sh chains key (Absent hasher sh chains key) (fun _ => True) ∧
      th.pc.Writes hasher sh chains i th.request

/-! ### A search while the chains grow -/

private theorem Standing.grow (h : Standing hasher sh chains key absent b) (hg : Grows hasher sh sh' chains chains')
    (ha : absent → absent') : Standing hasher sh' chains' key absent' b := by
  obtain ⟨l, l', hl, hfound, hnone⟩ := h
  obtain ⟨l₀, hl₀⟩ := hg.chain (hashTableIndex hasher key)
  have hsame : sh'.bucketIn (b :: l') key = sh.bucketIn (b :: l') key := by
    refine bucketIn_congr (fun b' hb' => hg.key (hashTableIndex hasher key) b' ?_) key
    rw [hl]
    exact List.mem_append_right _ hb'
  refine ⟨l₀ ++ l, l', by rw [hl₀, hl, List.append_assoc], fun b' hb' => ?_, fun hno => ha (hnone (hsame ▸ hno))⟩
  exact hg.found key b' (hfound b' (hsame ▸ hb'))

theorem Standing.mem (h : Standing hasher sh chains key absent b) : b ∈ chains (hashTableIndex hasher key) := by
  obtain ⟨l, l', hl, -⟩ := h
  rw [hl]
  exact List.mem_append_right _ (List.mem_cons_self ..)

private theorem Pc.Searches.grow (h : pc.Searches hasher sh chains key absent was) (hg : Grows hasher sh sh' chains chains')
    (ha : absent → absent') (hw : ∀ v, was v → was' v) : pc.Searches hasher sh' chains' key absent' was' := by
  -- the bucket on which the call stands is linked, so its key stays
  have hkey : ∀ {b : Nat}, Standing hasher sh chains key absent b → sh'.keyAt b = sh.keyAt b :=
    fun hs => hg.key _ _ hs.mem
  cases pc with
  | findLoad => exact Standing.grow h hg ha
  | findCompare =>
    obtain ⟨hs, rec, hrec, hk⟩ := h
    exact ⟨hs.grow hg ha, rec, hg.record _ rec hrec, (hkey hs).trans hk⟩
  | findDrop =>
    obtain ⟨hs, hk⟩ := h
    refine ⟨hs.grow hg ha, ?_⟩
    rw [hkey hs]
    exact hk
  | findNext =>
    obtain ⟨hs, hk⟩ := h
    refine ⟨hs.grow hg ha, ?_⟩
    rw [hkey hs]
    exact hk
  | found block bucket =>
    cases bucket with
    | none => exact ha h
    | some b => exact hg.found key b h
  | readValue =>
    obtain ⟨rec, hrec, hv⟩ := h
    exact ⟨rec, hg.record _ rec hrec, hw _ hv⟩
  | dropValue => exact hw _ h
  | returned result =>
    cases result with
    | value value => exact hw _ h
    | ok => trivial
  | _ => trivial

theorem Quiet.grows (hasher : Bytes → Nat) (h : Quiet sh sh') (chains : Fin N → List Nat) :
    Grows hasher sh sh' chains chains := by
  refine ⟨fun _ => ⟨[], rfl⟩, fun _ b _ => h.keyAt b, fun key b hb => ?_, fun c rec hrec => ?_, ?_⟩
  · rw [h.bucketIn]
    exact hb
  · rw [h.record]
    exact hrec
  · exact h.log.symm ▸ List.prefix_rfl

private theorem Quiet.absent_iff (h : Quiet sh sh') : Absent hasher sh' chains key ↔ Absent hasher sh chains key := by
  rw [Absent, Absent, h.bucketIn]

private theorem Quiet.target (h : Quiet sh sh') {b : Nat} {isNew : Bool} (ht : Target hasher sh chains key b isNew) :
    Target hasher sh' chains key b isNew := by
  unfold Target at ht ⊢
  rw [h.bucketStorage, h.loadPointer, h.absent_iff, Located, h.bucketIn]
  exact ht

theorem Pc.Writes.quiet (h : pc.Writes hasher sh chains i r) (hq : Quiet sh sh') : pc.Writes hasher sh' chains i r := by
  have hlog : Logged sh i r → Logged sh' i r := fun h => (hq.grows hasher chains).log.subset h
  cases pc with
  | copyKey => exact hq.target h
  | copyValue => exact hq.target h
  | setPointer => exact hq.target h
  | dropOld => exact ⟨h.1, hlog h.2⟩
  | storeBucket b =>
    obtain ⟨hout, hno, rec, hrec, hk, hv⟩ := h
    exact ⟨hout, hq.absent_iff.2 hno, rec, (hq.recordAt b).trans hrec, hk, hv⟩
  | unlock => exact fun hok => hlog (h hok)
  | returned result =>
    cases result with
    | value => trivial
    | ok => exact fun hok => hlog (h hok)
  | _ => trivial

/-- What a call knows stays when another call makes a quiet step. -/
theorem Thread.Knows.quiet {th : Thread} (h : th.Knows hasher sh chains i was) (hq : Quiet sh sh')
    (hw : ∀ v, was v → was' v) : th.Knows hasher sh' chains i was' := by
  refine ⟨h.typed, fun key hr => ?_, fun key value hr => ?_⟩
  · exact (h.get key hr).grow (hq.grows hasher chains) (hw []) hw
  · obtain ⟨hs, hput⟩ := h.put key value hr
    exact ⟨hs.grow (hq.grows hasher chains) hq.absent_iff.2 fun _ h => h, hput.quiet hq⟩

private theorem Thread.Knows.grow {th : Thread} (h : th.Knows hasher sh chains i was)
    (hg : Grows hasher sh sh' chains chains')
    (hc : ¬ th.pc.Critical) (hw : ∀ v, was v → was' v) : th.Knows hasher sh' chains' i was' := by
  refine ⟨h.typed, fun key hr => (h.get key hr).grow hg (hw []) hw, fun key value hr => ?_⟩
  obtain ⟨-, hput⟩ := h.put key value hr
  obtain ⟨r, pc⟩ := th
  obtain rfl : r = .put key value := hr
  rcases h.typed with hcrit | rfl | ⟨ok, rfl⟩
  · exact absurd hcrit hc
  · exact ⟨trivial, trivial⟩
  · exact ⟨trivial, fun hok => hg.log.subset (hput hok)⟩

/-! ### The step of a search -/

private theorem running_loadHead {block : Option Nat} : (sh.loadHead hasher key block).Running := by
  unfold Shared.loadHead
  split <;> trivial

private theorem searches_loadHead (hp : Published hasher sh chains) {block : Option Nat}
    (hempty : Absent hasher sh chains key → absent) :
    (sh.loadHead hasher key block).Searches hasher sh chains key absent was := by
  have hl := hp.linked (hashTableIndex hasher key)
  unfold Shared.loadHead
  cases hc : chains (hashTableIndex hasher key) with
  | nil =>
    rw [hc] at hl
    rw [show sh.hashTable (hashTableIndex hasher key) = none from hl]
    apply hempty
    rw [Absent, hc]
    rfl
  | cons b l =>
    rw [hc] at hl
    rw [hl.1]
    refine ⟨[], l, hc, fun b' hb' => ?_, fun hno => hempty ?_⟩
    · rw [Located, hc]
      exact hb'
    · rw [Absent, hc]
      exact hno

/-- The record of a linked bucket. -/
theorem Published.control (hp : Published hasher sh chains) {x : Fin N} {b c : Nat} (hb : b ∈ chains x)
    (hc : sh.loadPointer b = some c) :
    ∃ rec, sh.controls[c]?.map Control.record = some rec ∧ sh.recordAt b = some rec ∧ sh.keyAt b = some rec.key := by
  obtain ⟨rec, hrec, -⟩ := hp.record x b hb
  refine ⟨rec, ?_, hrec, by rw [Shared.keyAt, hrec]; rfl⟩
  rw [Shared.recordAt, hc] at hrec
  exact hrec

private theorem Standing.located (h : Standing hasher sh chains key absent b) (hk : sh.keyAt b = some key) :
    Located hasher sh chains key b := by
  obtain ⟨l, l', -, hfound, -⟩ := h
  exact hfound b (by rw [bucketIn_cons, if_pos hk])

/-- The bucket has another key, and it is the last one. -/
theorem Standing.last (h : Standing hasher sh chains key absent b) (hp : Published hasher sh chains)
    (hk : sh.keyAt b ≠ some key) (hn : nextOf sh.bucketStorage b = none) : absent := by
  obtain ⟨l, l', hl, -, hnone⟩ := h
  have hl' := (hl ▸ hp.linked (hashTableIndex hasher key)).suffix
  rw [hn] at hl'
  obtain rfl := hl'.eq_nil
  apply hnone
  rw [bucketIn_cons, if_neg hk]
  rfl

/-- It is followed by another one. -/
theorem Standing.next (h : Standing hasher sh chains key absent b) (hp : Published hasher sh chains)
    (hk : sh.keyAt b ≠ some key) {b' : Nat} (hn : nextOf sh.bucketStorage b = some b') :
    Standing hasher sh chains key absent b' := by
  obtain ⟨l, l', hl, hfound, hnone⟩ := h
  have hl' := (hl ▸ hp.linked (hashTableIndex hasher key)).suffix
  rw [hn] at hl'
  rw [bucketIn_cons, if_neg hk] at hnone
  simp only [bucketIn_cons sh b, if_neg hk] at hfound
  cases l' with
  | nil => cases hl'
  | cons b₁ l₁ =>
    obtain rfl : b' = b₁ := Option.some.inj hl'.1
    exact ⟨l ++ [b], l₁, by rw [hl, List.append_assoc]; rfl, hfound, hnone⟩

/-- What a call knows of its search after a quiet step of its own. -/
theorem Pc.Searches.step (h : pc.Searches hasher sh chains r.key absent was) (hp : Published hasher sh chains)
    (hread : ∀ c, pc.control = some c → ∃ rec, sh.controls[c]?.map Control.record = some rec ∧
      sh.keyString B c = some rec.key ∧ sh.valueString B c = some rec.value)
    (hf : Fires B hasher sh i r pc sh' pc') (hempty : pc'.Running → Absent hasher sh chains r.key → absent)
    (hmiss : absent → was []) (hnow : pc'.Running → was (mapOf sh.log r.key)) :
    pc'.Searches hasher sh chains r.key absent was := by
  cases hf with
  | getHead => exact searches_loadHead hp (hempty running_loadHead)
  | loadHead => exact searches_loadHead hp (hempty running_loadHead)
  | load hc =>
    have hs : Standing hasher sh chains r.key absent _ := h
    obtain ⟨rec, hrec, -, hk⟩ := hp.control hs.mem hc
    exact ⟨hs, rec, hrec, hk⟩
  | compare hk =>
    -- the string that is compared is the key of the record
    obtain ⟨hs, rec, hrec, hkey⟩ := h
    obtain ⟨rec', hrec', hk', -⟩ := hread _ rfl
    obtain rfl := Option.some.inj (hrec.symm.trans hrec')
    obtain rfl := Option.some.inj (hk.symm.trans hk')
    refine ⟨hs, ?_⟩
    rw [hkey, decide_eq_true_iff, Option.some.injEq, eq_comm]
  | dropCompared =>
    obtain ⟨hs, hk⟩ := h
    split
    · exact hs.located (hk.1 ‹_›)
    · exact ⟨hs, fun h => absurd (hk.2 h) ‹_›⟩
  | last hb hn => exact h.1.last hp h.2 hn
  | next hn => exact h.1.next hp h.2 hn
  | miss => exact hmiss h
  | hit hc =>
    -- the record that is loaded now need not be the one that was compared, but it is the one of the map
    have hb : Located hasher sh chains r.key _ := h
    obtain ⟨rec, hrec, hat, -⟩ := hp.control (bucketIn_eq_some hb).1 hc
    exact ⟨rec, hrec, hp.map_of_found hb hat ▸ hnow trivial⟩
  | read hv =>
    obtain ⟨rec, hrec, hwas⟩ := h
    obtain ⟨rec', hrec', -, hv'⟩ := hread _ rfl
    obtain rfl := Option.some.inj (hrec.symm.trans hrec')
    obtain rfl := Option.some.inj (hv.symm.trans hv')
    exact hwas
  | dropRead => exact h
  | dropOld =>
    unfold Shared.afterSet
    split <;> trivial
  | setFresh =>
    unfold Shared.afterSet
    split <;> trivial
  | _ => trivial

/-! ### The step of a call -/

theorem Thread.Typed.step (h : (⟨r, pc⟩ : Thread).Typed) (hf : Fires B hasher sh i r pc sh' pc') :
    (⟨r, pc'⟩ : Thread).Typed := by
  cases r with
  | get key =>
    obtain ⟨hc, -⟩ : ¬ pc.Critical ∧ ∀ ok, pc ≠ .returned (.ok ok) := h
    show ¬ pc'.Critical ∧ ∀ ok, pc' ≠ .returned (.ok ok)
    cases hf with
    | getHead => unfold Shared.loadHead; split <;> simp [Pc.Critical, Pc.block]
    | loadHead => unfold Shared.loadHead; split <;> simp_all [Pc.Critical, Pc.block]
    | lock hr => cases hr
    | dropCompared => split <;> simp_all [Pc.Critical, Pc.block]
    | _ => simp_all [Pc.Critical, Pc.block]
  | put key value =>
    have h : pc.Critical ∨ pc = .called ∨ ∃ ok, pc = .returned (.ok ok) := h
    show pc'.Critical ∨ pc' = .called ∨ ∃ ok, pc' = .returned (.ok ok)
    cases hf with
    | getHead hr => cases hr
    | loadHead => exact Or.inl (critical_loadHead.2 (by simpa using h))
    | dropCompared => split <;> simp_all [Pc.Critical, Pc.block]
    | dropOld => exact Or.inl critical_afterSet
    | setFresh => exact Or.inl critical_afterSet
    | _ => simp_all [Pc.Critical, Pc.block]

/-- A `put` in its critical section. -/
theorem Thread.Typed.put_of_critical (h : (⟨r, pc⟩ : Thread).Typed) (hc : pc.Critical) :
    ∃ key value, r = .put key value := by
  cases r with
  | get key => exact absurd hc h.1
  | put key value => exact ⟨key, value, rfl⟩

/-- What a `put` knows of the bucket of its key after a quiet step of its own. -/
theorem Pc.Writes.step (h : pc.Writes hasher sh chains i r) (hs : pc.Searches hasher sh chains r.key absent was)
    (hf : Fires B hasher sh i r pc sh' pc') (hp : ¬ pc.Publishes) : pc'.Writes hasher sh chains i r := by
  cases hf with
  | getHead => unfold Shared.loadHead; split <;> trivial
  | loadHead => unfold Shared.loadHead; split <;> trivial
  | allocFail => exact fun hok => by cases hok
  | dropCompared => split <;> trivial
  | newBucket => exact absurd trivial hp
  | oldBucket => exact hs
  | copyKey => exact h
  | copyValue => exact h
  | setFresh => exact absurd trivial hp
  | setOld => exact absurd trivial hp
  | dropOld =>
    obtain ⟨rfl, hl⟩ := h
    exact fun _ => hl
  | storeBucket => exact absurd trivial hp
  | unlock => exact h
  | _ => trivial

theorem Thread.Knows.step (h : (⟨r, pc⟩ : Thread).Knows hasher sh chains i was) (hp : Published hasher sh chains)
    (hread : ∀ c, pc.control = some c → ∃ rec, sh.controls[c]?.map Control.record = some rec ∧
      sh.keyString B c = some rec.key ∧ sh.valueString B c = some rec.value)
    (hf : Fires B hasher sh i r pc sh' pc') (hnp : ¬ pc.Publishes) (hw : ∀ v, was v → was' v)
    (hnow : pc'.Running → was' (mapOf sh.log r.key)) : (⟨r, pc'⟩ : Thread).Knows hasher sh' chains i was' := by
  have hq : Quiet sh sh' := fires_quiet hf hnp
  have hg : Grows hasher sh sh chains chains := (Quiet.refl sh).grows hasher chains
  refine Thread.Knows.quiet ⟨h.typed.step hf, fun key hr => ?_, fun key value hr => ?_⟩ hq fun v hv => hv
  · obtain rfl : r = .get key := hr
    refine ((h.get key rfl).grow hg (hw []) hw).step hp hread hf (fun hrun habs => ?_) id hnow
    exact hp.map_of_absent habs ▸ hnow hrun
  · obtain rfl : r = .put key value := hr
    obtain ⟨hs, hput⟩ := h.put key value rfl
    exact ⟨hs.step hp hread hf (fun _ => id) (fun _ => trivial) fun _ => trivial, hput.step hs hf hnp⟩

private theorem fires_published (hlt : ∀ b c, sh.loadPointer b = some c → c < sh.controls.length)
    (hp : Published hasher sh chains) (hs : pc.Searches hasher sh chains r.key (Absent hasher sh chains r.key) was)
    (hw : pc.Writes hasher sh chains i r) (hf : Fires B hasher sh i r pc sh' pc') (hpub : pc.Publishes) :
    ∃ chains', Published hasher sh' chains' ∧ Grows hasher sh sh' chains chains' ∧
      (∀ absent was, pc'.Searches hasher sh' chains' r.key absent was) ∧ pc'.Writes hasher sh' chains' i r ∧
      ∀ b c, sh'.loadPointer b = some c →
        (∃ x, b ∈ chains' x) ∨ pc' = .storeBucket b ∨ pc ≠ .storeBucket b ∧ ∃ c', sh.loadPointer b = some c' := by
  rcases fires_publishes hf hpub with ⟨p, rfl, rfl, rfl⟩ | ⟨p, b, isNew, rfl, hpc', rfl⟩ | ⟨b, rfl, rfl, rfl⟩
  · refine ⟨chains, hp.newBucket, grows_newBucket hasher sh chains, fun _ _ => trivial, ?_, fun b c hb => ?_⟩
    · refine ⟨by simp, fun x hx => Nat.lt_irrefl _ (hp.lt hx), by simp [Shared.loadPointer], ?_⟩
      exact (bucketIn_congr (fun b _ => keyAt_newBucket sh b) r.key).trans hs
    · rw [newBucket_loadPointer] at hb
      exact Or.inr (Or.inr ⟨by simp, c, hb⟩)
  · cases isNew with
    | true =>
      obtain ⟨hb, hout, hnone, habs⟩ : b < sh.bucketStorage.length ∧ (∀ x, b ∉ chains x) ∧ sh.loadPointer b = none ∧
        Absent hasher sh chains r.key := hw
      have hpc : pc' = .storeBucket b := by
        rcases hpc' with ⟨h, -⟩ | ⟨c, -, hc⟩
        · exact h
        · rw [hnone] at hc
          cases hc
      subst hpc
      have hg : Grows hasher sh (sh.exchange B r p b) chains chains :=
        grows_exchange hlt hb (fun x hx => absurd hx (hout x)) p List.prefix_rfl
      refine ⟨chains, hp.fill hlt hb hout p, hg, fun _ _ => trivial,
        ⟨hout, ?_, (sh.newControl B r p).record, ?_, rfl, rfl⟩, fun b' c hb' => ?_⟩
      · exact (bucketIn_congr (hg.key _) r.key).trans habs
      · exact (recordAt_exchange hlt hb p b).trans (if_pos rfl)
      · replace hb' : (sh.exchange B r p b).loadPointer b' = some c := hb'
        rw [exchange_loadPointer B hb] at hb'
        split at hb'
        · rename_i hbb
          exact Or.inr (Or.inl (by rw [hbb]))
        · exact Or.inr (Or.inr ⟨by simp, c, hb'⟩)
    | false =>
      have hb : sh.bucketIn (chains (hashTableIndex hasher r.key)) r.key = some b := hw
      obtain ⟨hmem, hk⟩ := bucketIn_eq_some hb
      have hlog : (⟨some i, r.key, r.value⟩ : LogEntry) ∈ sh.log ++ [⟨some i, r.key, r.value⟩] :=
        List.mem_append_right _ (List.mem_singleton_self _)
      refine ⟨chains, hp.replace hlt hb p, ?_, ?_, ?_, fun b' c hb' => ?_⟩
      · exact grows_exchange hlt (hp.lt hmem) (fun _ _ => hk) p (List.prefix_append _ _)
      · rcases hpc' with ⟨rfl, -⟩ | ⟨c, rfl, -⟩ <;> exact fun _ _ => trivial
      · rcases hpc' with ⟨rfl, -⟩ | ⟨c, rfl, -⟩
        · exact fun _ => hlog
        · exact ⟨rfl, hlog⟩
      · replace hb' : (sh.exchange B r p b).loadPointer b' = some c := hb'
        rw [exchange_loadPointer B (hp.lt hmem)] at hb'
        split at hb'
        · rename_i hbb
          exact Or.inl ⟨_, hbb ▸ hmem⟩
        · exact Or.inr (Or.inr ⟨by simp, c, hb'⟩)
  · obtain ⟨hout, habs, rec, hrec, hk, hv⟩ := hw
    have hkb : sh.keyAt b = some r.key := by rw [Shared.keyAt, hrec, Option.map_some, hk]
    refine ⟨_, hp.link hout hrec hk hv, grows_link sh chains hkb habs _, fun _ _ => trivial, fun _ => ?_, fun b' c hb' => ?_⟩
    · exact List.mem_append_right _ (List.mem_singleton_self _)
    · replace hb' : (sh.link hasher r.key b).loadPointer b' = some c := hb'
      rw [link_loadPointer] at hb'
      by_cases hbb : b = b'
      · exact Or.inl ⟨hashTableIndex hasher r.key, mem_linkedChains.2 (Or.inl ⟨hbb.symm, rfl⟩)⟩
      · exact Or.inr (Or.inr ⟨by simpa using hbb, c, hb'⟩)

/-! ### The step of the store -/

/-- The buckets are published, every call knows what it has to know, and a bucket that has a record is linked, or it is
about to be. -/
structure Coherent (hasher : Bytes → Nat) (was : Nat → Bytes → Prop) (s : State N σ) (chains : Fin N → List Nat) :
    Prop where
  published : Published hasher s.shared chains
  knows : ∀ (i : Nat) (th : Thread), s.threads[i]? = some th → th.Knows hasher s.shared chains i (was i)
  linked : ∀ b c, s.shared.loadPointer b = some c →
    (∃ x, b ∈ chains x) ∨ ∃ (i : Nat) (r : Request), s.threads[i]? = some ⟨r, .storeBucket b⟩

theorem Coherent.step {was was' : Nat → Bytes → Prop} (hs : Safe B Inv s) (h : Coherent hasher was s chains)
    (hstep : Step B hasher s s') (hw : ∀ i v, was i v → was' i v)
    (hnow : ∀ (i : Nat) (th : Thread), s'.threads[i]? = some th → th.pc.Running → was' i (mapOf s'.shared.log th.request.key)) :
    ∃ chains', Coherent hasher was' s' chains' := by
  rcases hstep.cases with ⟨r, -, rfl⟩ | ⟨i, r, pc, sh', pc', hth, hf, rfl⟩
  · refine ⟨chains, h.published, fun j th hj => ?_, fun b c hb => ?_⟩
    · rcases getElem?_concat_cases hj with ⟨rfl, rfl⟩ | hj
      · refine ⟨?_, fun _ _ => trivial, fun _ _ _ => ⟨trivial, trivial⟩⟩
        cases r with
        | get key => exact ⟨by simp [Pc.Critical, Pc.block], by simp⟩
        | put key value => exact Or.inr (Or.inl rfl)
      · exact (h.knows j th hj).quiet (Quiet.refl _) (hw j)
    · rcases h.linked b c hb with hx | ⟨j, r', hj⟩
      · exact Or.inl hx
      · exact Or.inr ⟨j, r', getElem?_of_extends (List.prefix_append ..) hj⟩
  · have hown := h.knows i _ hth
    have hi : (s.threads.set i ⟨r, pc'⟩)[i]? = some ⟨r, pc'⟩ :=
      List.getElem?_set_self (List.getElem?_eq_some_iff.1 hth).1
    -- a bucket that another call is about to link
    have hother : ∀ b c, pc ≠ .storeBucket b → s.shared.loadPointer b = some c →
        (∃ x, b ∈ chains x) ∨ ∃ (j : Nat) (r' : Request), (s.threads.set i ⟨r, pc'⟩)[j]? = some ⟨r', .storeBucket b⟩ := by
      intro b c hpc hb
      rcases h.linked b c hb with hx | ⟨j, r', hj⟩
      · exact Or.inl hx
      · refine Or.inr ⟨j, r', ?_⟩
        rw [List.getElem?_set_ne, hj]
        rintro rfl
        exact hpc (by simpa using congrArg (Option.map Thread.pc) (hth.symm.trans hj))
    by_cases hpub : pc.Publishes
    · have hcrit := critical_of_publishes hpub
      obtain ⟨key, value, rfl⟩ := hown.typed.put_of_critical hcrit
      obtain ⟨hsearch, hput⟩ := hown.put key value rfl
      obtain ⟨chains', hp', hg, hsearch', hput', hlinked⟩ :=
        fires_published (r := .put key value) hs.counted.bucket_lt h.published hsearch hput hf hpub
      refine ⟨chains', hp', fun j th hj => ?_, fun b c hb => ?_⟩
      · rcases getElem?_set_cases hj with ⟨rfl, rfl⟩ | ⟨hne, hj⟩
        · refine ⟨hown.typed.step hf, fun k hr => by simp at hr, fun k v hr => ?_⟩
          obtain ⟨rfl, rfl⟩ := Request.put.inj hr
          exact ⟨hsearch' _ _, hput'⟩
        · exact (h.knows j th hj).grow hg (fun hc => hne (hs.exclusive.eq_of_critical hth hj hcrit hc)) (hw j)
      · rcases hlinked b c hb with hb | rfl | ⟨hpc, c', hb⟩
        · exact Or.inl hb
        · exact Or.inr ⟨i, _, hi⟩
        · rcases hother b c' hpc hb with ⟨x, hx⟩ | hj
          · obtain ⟨l, hl⟩ := hg.chain x
            refine Or.inl ⟨x, ?_⟩
            rw [hl]
            exact List.mem_append_right _ hx
          · exact Or.inr hj
    · have hq := fires_quiet hf hpub
      refine ⟨chains, h.published.quiet hq, fun j th hj => ?_, fun b c hb => ?_⟩
      · rcases getElem?_set_cases hj with ⟨rfl, rfl⟩ | ⟨hne, hj⟩
        · apply hown.step h.published (fun c hc => hs.readable hth hc) hf hpub (hw i)
          intro hrun
          rw [← hq.log]
          exact hnow i _ hi hrun
        · exact (h.knows j th hj).quiet hq (hw j)
      · refine hother b c ?_ (hq.loadPointer b ▸ hb)
        rintro rfl
        exact hpub trivial

end KeyValueStore
