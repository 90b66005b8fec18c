import KeyValueStore.HappensBefore
import KeyValueStore.Progress

/-!
# Which steps synchronize

A run with the call that makes each step (`Trace`).  A step synchronizes with a later one where the code makes it do so
(`Synchronizes`): the write mutex, the release store and the acquire load of a chain head and of a record pointer, the
decrements of a use count, and the mutex of the buffer.  So the steps of the critical sections are ordered
(`Traced.critical`).
-/

namespace KeyValueStore

open HappensBefore ConcurrentHashTable

variable {N : Nat} {σ : Type} {B : Buffer σ} {Inv : σ → Prop} {hasher : Bytes → Nat} {s s' : State N σ}
  {sh sh' : Shared N σ} {states : Nat → State N σ} {actor : Nat → Option Nat} {L R : Nat} {i j k m n : Nat}
  {r r' : Request} {pc pc' : Pc}

/-- The step `n` is one of the call `i`, which stands at `pc`. -/
def At (states : Nat → State N σ) (actor : Nat → Option Nat) (n i : Nat) (r : Request) (pc : Pc) : Prop :=
  actor n = some i ∧ (states n).threads[i]? = some ⟨r, pc⟩

/-- The bucket of which the next step loads the record pointer. -/
def Pc.loads : Pc → Option Nat
  | .findLoad _ bucket => some bucket
  | .found none bucket => bucket
  | _ => none

/-- The next step loads a chain head. -/
def Thread.LoadsHead : Thread → Prop
  | ⟨.get _, .called⟩ => True
  | ⟨_, .findHead _⟩ => True
  | _ => False

/-- The step stores the record pointer of the bucket. -/
def Sets (states : Nat → State N σ) (actor : Nat → Option Nat) (n b : Nat) : Prop :=
  ∃ i r p isNew, At states actor n i r (.setPointer p b isNew)

/-- The step links the bucket. -/
def Links (states : Nat → State N σ) (actor : Nat → Option Nat) (n b : Nat) : Prop :=
  ∃ i r, At states actor n i r (.storeBucket b)

/-- The step is a call of `alloc` or of `free`. -/
def UsesBuffer (states : Nat → State N σ) (actor : Nat → Option Nat) (n : Nat) : Prop :=
  ∃ i, actor n = some i ∧ ((∃ r, (states n).threads[i]? = some ⟨r, .locked⟩) ∨ ∃ c, Frees (states n) i c)

/-- The step makes the control block, whose pointer it stores. -/
def Creates (states : Nat → State N σ) (actor : Nat → Option Nat) (n c : Nat) : Prop :=
  ∃ b, Sets states actor n b ∧ (states n).shared.controls.length = c

theorem At.inj (h : At states actor n i r pc) (h' : At states actor n j r' pc') : i = j ∧ r = r' ∧ pc = pc' := by
  obtain rfl := Option.some.inj (h.1.symm.trans h'.1)
  obtain ⟨hr, hpc⟩ := Thread.mk.inj (Option.some.inj (h.2.symm.trans h'.2))
  exact ⟨rfl, hr, hpc⟩

variable [NeZero N]

/-- The step stores the head of the chain. -/
def StoresHead (hasher : Bytes → Nat) (states : Nat → State N σ) (actor : Nat → Option Nat) (n : Nat) (x : Fin N) : Prop :=
  ∃ i r b, At states actor n i r (.storeBucket b) ∧ hashTableIndex hasher r.key = x

/-- The step `m` synchronizes with the later step `n`. -/
inductive Synchronizes (hasher : Bytes → Nat) (states : Nat → State N σ) (actor : Nat → Option Nat) (m n : Nat) : Prop
  /-- The write mutex is unlocked, and locked. -/
  | mutex {i j : Nat} {r : Request} {key value : Bytes} {ok : Bool} (hm : At states actor m i r (.unlock ok))
    (hn : At states actor n j (.put key value) .called)
  /-- A chain head is loaded, and it is the one that was stored. -/
  | head {i j b : Nat} {r r' : Request} {pc : Pc} (hm : At states actor m i r (.storeBucket b))
    (hn : At states actor n j r' pc) (hload : (⟨r', pc⟩ : Thread).LoadsHead)
    (hx : hashTableIndex (N := N) hasher r.key = hashTableIndex hasher r'.key)
    (hlast : ∀ k, m < k → k < n → ¬ StoresHead hasher states actor k (hashTableIndex hasher r.key))
  /-- A record pointer is loaded, and it is the one that was stored. -/
  | pointer {j b : Nat} {r : Request} {pc : Pc} (hm : Sets states actor m b) (hn : At states actor n j r pc)
    (hload : pc.loads = some b) (hlast : ∀ k, m < k → k < n → ¬ Sets states actor k b)
  /-- Two copies of a pointer are dropped. -/
  | count {i j c : Nat} {r r' : Request} {pc pc' : Pc} (hm : At states actor m i r pc) (hn : At states actor n j r' pc')
    (hd : pc.drops = some c) (hd' : pc'.drops = some c)
  /-- `alloc` and `free` lock the mutex of the buffer. -/
  | buffer (hm : UsesBuffer states actor m) (hn : UsesBuffer states actor n)

/-- A run from `s`, with the call that makes each step; there is none when a call is made. -/
structure Trace (B : Buffer σ) (hasher : Bytes → Nat) (s : State N σ) (states : Nat → State N σ)
    (actor : Nat → Option Nat) (L : Nat) : Prop where
  start : states 0 = s
  call : ∀ n < L, actor n = none → ∃ r : Request, r.NulFree ∧ states (n + 1) = (states n).call r
  step : ∀ n < L, ∀ i, actor n = some i → (states n).step B hasher i = some (states (n + 1))

theorem Trace.run (h : Trace B hasher s states actor L) : Run B hasher s states L := by
  refine ⟨h.start, fun n hn => ?_⟩
  cases ha : actor n with
  | none =>
    obtain ⟨r, hr, hs⟩ := h.call n hn ha
    exact hs ▸ Step.call r hr
  | some i => exact Step.step i (h.step n hn i ha)

theorem Trace.guarded {dbSize : Nat} {s : State N FileBackedBuffer} {states : Nat → State N FileBackedBuffer}
    (h : Trace (plainBuffer dbSize) hasher s states actor L) (hns : NoStaleSplitIn states L) :
    Trace (guardedBuffer dbSize) hasher s states actor L :=
  ⟨h.start, h.call, fun n hn i hi => State.step_guarded (h.step n hn i hi) (hns n hn)⟩

/-- Every run is a trace. -/
theorem Run.trace (h : Run B hasher s states L) : ∃ actor, Trace B hasher s states actor L := by
  have hactor : ∀ n, ∃ a : Option Nat, n < L →
      (a = none → ∃ r : Request, r.NulFree ∧ states (n + 1) = (states n).call r) ∧
        ∀ i, a = some i → (states n).step B hasher i = some (states (n + 1)) := by
    intro n
    by_cases hn : n < L
    · generalize hs : states (n + 1) = t
      have hstep : Step B hasher (states n) t := hs ▸ h.step n hn
      cases hstep with
      | call r hr => exact ⟨none, fun _ => ⟨fun _ => ⟨r, hr, rfl⟩, by simp⟩⟩
      | step i hi => exact ⟨some i, fun _ => ⟨by simp, fun j hj => Option.some.inj hj ▸ hi⟩⟩
    · exact ⟨none, fun h => absurd h hn⟩
  choose actor hactor using hactor
  exact ⟨actor, h.start, fun n hn => (hactor n hn).1, fun n hn => (hactor n hn).2⟩

/-! ### What a step takes and leaves -/

/-- The mutex is locked in the first step of a `put`, and unlocked in the last one. -/
private theorem fires_owner (h : Fires B hasher sh i r pc sh' pc') :
    sh'.writeMutex = sh.writeMutex ∨
      (∃ key value, r = .put key value ∧ pc = .called ∧ sh.writeMutex = none ∧ sh'.writeMutex = some i) ∨
      ∃ ok, pc = .unlock ok ∧ sh'.writeMutex = none := by
  cases h with
  | lock hr hm => exact Or.inr (Or.inl ⟨_, _, hr, rfl, hm, rfl⟩)
  | unlock => exact Or.inr (Or.inr ⟨_, rfl, rfl⟩)
  | dropCompared => exact Or.inl (release_mutex ..)
  | dropRead => exact Or.inl (release_mutex ..)
  | dropOld => exact Or.inl (release_mutex ..)
  | _ => exact Or.inl rfl

/-- A step stores a record pointer, or it leaves them, and then it keeps its own copy or takes one from a bucket. -/
theorem fires_control (h : Fires B hasher sh i r pc sh' pc') :
    (∃ p b isNew log, pc = .setPointer p b isNew ∧ sh' = { sh.exchange B r p b with log := log } ∧
        pc'.control = sh.loadPointer b) ∨
      (∀ p b isNew, pc ≠ .setPointer p b isNew) ∧ sh'.controls.length = sh.controls.length ∧
        (∀ b, sh'.loadPointer b = sh.loadPointer b) ∧
        ∀ c, pc'.control = some c → pc.control = some c ∨ ∃ b, pc.loads = some b ∧ sh.loadPointer b = some c := by
  have hafter : ∀ {b c : Nat} {isNew : Bool}, (Shared.afterSet b isNew).control ≠ some c := by
    intro b c isNew
    unfold Shared.afterSet
    split <;> simp [Pc.control]
  have hhead : ∀ {key : Bytes} {block : Option Nat} {c : Nat}, (sh.loadHead hasher key block).control ≠ some c := by
    intro key block c
    unfold Shared.loadHead
    split <;> simp [Pc.control]
  have hrelease : ∀ c, (sh.release B c).controls.length = sh.controls.length := by
    intro c
    unfold Shared.release
    split <;> simp
  cases h with
  | getHead hr => exact Or.inr ⟨by simp, rfl, fun _ => rfl, fun c hc => absurd hc hhead⟩
  | loadHead => exact Or.inr ⟨by simp, rfl, fun _ => rfl, fun c hc => absurd hc hhead⟩
  | load hc =>
    refine Or.inr ⟨by simp, by simp [Shared.acquire], fun _ => rfl, fun c' hc' => Or.inr ⟨_, rfl, ?_⟩⟩
    exact hc.trans hc'
  | hit hc =>
    refine Or.inr ⟨by simp, by simp [Shared.acquire], fun _ => rfl, fun c' hc' => Or.inr ⟨_, rfl, ?_⟩⟩
    exact hc.trans hc'
  | dropCompared =>
    refine Or.inr ⟨by simp, hrelease _, release_loadPointer B sh _, fun c hc => ?_⟩
    split at hc <;> cases hc
  | dropRead => exact Or.inr ⟨by simp, hrelease _, release_loadPointer B sh _, fun c hc => by cases hc⟩
  | dropOld => exact Or.inr ⟨by simp, hrelease _, release_loadPointer B sh _, fun c hc => absurd hc hafter⟩
  | setFresh hb =>
    refine Or.inl ⟨_, _, _, _, rfl, rfl, ?_⟩
    rw [hb]
    unfold Shared.afterSet
    split <;> rfl
  | setOld hb => exact Or.inl ⟨_, _, _, _, rfl, rfl, hb.symm⟩
  | newBucket => exact Or.inr ⟨by simp, rfl, newBucket_loadPointer sh, fun c hc => by cases hc⟩
  | storeBucket => exact Or.inr ⟨by simp, rfl, link_loadPointer sh r.key _, fun c hc => by cases hc⟩
  | _ => exact Or.inr ⟨by simp, rfl, fun _ => rfl, fun c hc => Or.inl hc⟩

/-- A call keeps the pointer that it holds until it drops it. -/
theorem fires_holds (h : Fires B hasher sh i r pc sh' pc') {c : Nat} (hc : pc.control = some c) :
    pc'.control = some c ∨ pc.drops = some c := by
  cases h <;> simp_all [Pc.control, Pc.drops]

/-- A pointer is dropped, or no use count falls. -/
theorem fires_drop (h : Fires B hasher sh i r pc sh' pc') :
    (∃ c, pc.drops = some c ∧ sh' = sh.release B c) ∨
      pc.drops = none ∧ ∀ (c : Nat) (x : Control), sh.controls[c]? = some x →
        ∃ x', sh'.controls[c]? = some x' ∧ x.useCount ≤ x'.useCount := by
  have hacquire : ∀ (d c : Nat) (x : Control), sh.controls[c]? = some x →
      ∃ x', (sh.acquire d).controls[c]? = some x' ∧ x.useCount ≤ x'.useCount := by
    intro d c x hx
    rw [Shared.acquire, List.getElem?_modify, hx]
    refine ⟨_, rfl, ?_⟩
    split <;> simp
  have hexchange : ∀ (p b c : Nat) (x : Control), sh.controls[c]? = some x →
      ∃ x', (sh.exchange B r p b).controls[c]? = some x' ∧ x.useCount ≤ x'.useCount := by
    intro p b c x hx
    refine ⟨x, ?_, Nat.le_refl _⟩
    rw [Shared.exchange, List.getElem?_append_left (List.getElem?_eq_some_iff.1 hx).1, hx]
  cases h with
  | load hc => exact Or.inr ⟨rfl, hacquire _⟩
  | hit hc => exact Or.inr ⟨rfl, hacquire _⟩
  | dropCompared => exact Or.inl ⟨_, rfl, rfl⟩
  | dropRead => exact Or.inl ⟨_, rfl, rfl⟩
  | dropOld => exact Or.inl ⟨_, rfl, rfl⟩
  | @setFresh p b isNew hb => exact Or.inr ⟨rfl, hexchange p b⟩
  | @setOld p b c isNew hb => exact Or.inr ⟨rfl, hexchange p b⟩
  | _ => exact Or.inr ⟨rfl, fun c x hx => ⟨x, hx, Nat.le_refl _⟩⟩

/-- A call has a block from the step that allocates it to the one that publishes it. -/
theorem fires_block (h : Fires B hasher sh i r pc sh' pc') :
    (∀ p, pc'.block = some p → pc.block = some p ∨ pc = .locked) ∧
      ∀ p, pc.block = some p → pc'.block = some p ∨ ∃ b isNew, pc = .setPointer p b isNew := by
  have hafter : ∀ {b p : Nat} {isNew : Bool}, (Shared.afterSet b isNew).block ≠ some p := by
    intro b p isNew
    unfold Shared.afterSet
    split <;> simp [Pc.block]
  have hhead : ∀ {key : Bytes} {block : Option Nat}, (sh.loadHead hasher key block).block = block := by
    intro key block
    unfold Shared.loadHead
    split <;> rfl
  cases h with
  | getHead hr =>
    rw [hhead]
    exact ⟨fun p hp => Or.inl hp, fun p hp => Or.inl hp⟩
  | loadHead =>
    rw [hhead]
    exact ⟨fun p hp => Or.inl hp, fun p hp => Or.inl hp⟩
  | dropCompared => split <;> exact ⟨fun p hp => Or.inl hp, fun p hp => Or.inl hp⟩
  | dropOld => exact ⟨fun p hp => absurd hp hafter, fun p hp => by cases hp⟩
  | @setFresh p b isNew hb =>
    refine ⟨fun q hq => absurd hq hafter, fun q hq => Or.inr ⟨b, isNew, ?_⟩⟩
    obtain rfl := Option.some.inj hq
    rfl
  | _ => simp [Pc.block]

/-- A step links a bucket, or it leaves the heads and changes no link of an old bucket. -/
theorem fires_links (h : Fires B hasher sh i r pc sh' pc') :
    (∃ b log, pc = .storeBucket b ∧ pc' = .unlock true ∧ sh' = { sh.link hasher r.key b with log := log }) ∨
      (∀ b, pc ≠ .storeBucket b) ∧ sh'.hashTable = sh.hashTable ∧ sh.bucketStorage.length ≤ sh'.bucketStorage.length ∧
        ∀ b b', nextOf sh'.bucketStorage b = some b' → nextOf sh.bucketStorage b = some b' := by
  by_cases hpc : ∃ b, pc = .storeBucket b
  · obtain ⟨b, rfl⟩ := hpc
    cases h with
    | storeBucket => exact Or.inl ⟨b, _, rfl, rfl, rfl⟩
  · push Not at hpc
    rcases fires_chains h with ⟨htable, hlen, hnext⟩ | ⟨p, rfl, rfl, rfl⟩ | ⟨b, rfl, -, -⟩
    · exact Or.inr ⟨hpc, htable, Nat.le_of_eq hlen.symm, fun b b' hb => hnext b ▸ hb⟩
    · refine Or.inr ⟨hpc, rfl, by simp, fun b b' hb => ?_⟩
      obtain ⟨bucket, hbucket, hn⟩ := Option.bind_eq_some_iff.1 hb
      rcases getElem?_concat_cases hbucket with ⟨rfl, rfl⟩ | hbucket
      · cases hn
      · rw [nextOf, hbucket]
        exact hn
    · exact absurd rfl (hpc b)

/-- Outside of the critical section a call gets to a bucket from a head or along a link. -/
theorem fires_reaches (h : Fires B hasher sh i r pc sh' pc') (hc : ¬ pc'.Critical) {b : Nat} (hb : pc'.bucket = some b) :
    ¬ pc.Critical ∧ (pc.bucket = some b ∨
      ((⟨r, pc⟩ : Thread).LoadsHead ∧ sh.hashTable (hashTableIndex hasher r.key) = some b) ∨
        ∃ b₀, pc.bucket = some b₀ ∧ nextOf sh.bucketStorage b₀ = some b) := by
  have hhead : ∀ {key : Bytes} {block : Option Nat}, (sh.loadHead hasher key block).bucket = some b →
      sh.hashTable (hashTableIndex hasher key) = some b := by
    intro key block hb
    unfold Shared.loadHead at hb
    split at hb
    · cases hb
    · rename_i hx
      obtain rfl := Option.some.inj hb
      exact hx
  cases h with
  | getHead hr =>
    subst hr
    exact ⟨by simp [Pc.Critical, Pc.block], Or.inr (Or.inl ⟨trivial, hhead hb⟩)⟩
  | loadHead =>
    refine ⟨fun h => hc (critical_loadHead.2 h), Or.inr (Or.inl ⟨?_, hhead hb⟩)⟩
    cases r <;> trivial
  | next hn =>
    obtain rfl := Option.some.inj hb
    exact ⟨hc, Or.inr (Or.inr ⟨_, rfl, hn⟩)⟩
  | dropCompared =>
    split at hc <;> split at hb <;> exact ⟨hc, Or.inl hb⟩
  | newBucket => exact absurd rfl hc
  | setFresh hn => exact absurd critical_afterSet hc
  | setOld hn => exact absurd trivial hc
  | dropOld => exact absurd critical_afterSet hc
  | _ => first | exact ⟨hc, Or.inl hb⟩ | cases hb

/-! ### Traces in whose states the invariants hold -/

/-- A trace that starts with `R` records. -/
structure Traced (B : Buffer σ) (Inv : σ → Prop) (hasher : Bytes → Nat) (R : Nat) (states : Nat → State N σ)
    (actor : Nat → Option Nat) (L : Nat) : Prop where
  lawful : B.Lawful Inv
  call : ∀ n < L, actor n = none → ∃ r : Request, r.NulFree ∧ states (n + 1) = (states n).call r
  step : ∀ n < L, ∀ i, actor n = some i → (states n).step B hasher i = some (states (n + 1))
  safe : ∀ n ≤ L, Safe B Inv (states n)
  descending : ∀ n ≤ L, Descending (states n)
  threads : (states 0).threads = []
  buckets : (states 0).shared.bucketStorage.length = R
  controls : (states 0).shared.controls.length = R

theorem Trace.traced (hB : B.Lawful Inv) (h : Trace B hasher s states actor L) (hs : Safe B Inv s) {file : σ}
    {rs : List Record} (hopen : JustOpened hasher rs file s) :
    Traced B Inv hasher rs.length states actor L := by
  refine ⟨hB, h.call, h.step, fun n hn => ?_, fun n hn => ?_, ?_, ?_, ?_⟩
  · obtain ⟨chains, hsafe, -⟩ := (h.run.take hn).coherent hB hs hopen
    exact hsafe
  · exact ((h.run.take hn).descending hB hs hopen).1
  · rw [h.start, hopen.threads]
  · rw [h.start, hopen.length_bucketStorage]
  · rw [h.start, hopen.length_controls]

namespace Traced

variable {b c : Nat}

theorem fires (h : Traced B Inv hasher R states actor L) (hn : n < L) (hat : At states actor n i r pc) :
    ∃ sh' pc', Fires B hasher (states n).shared i r pc sh' pc' ∧
      states (n + 1) = ⟨sh', (states n).threads.set i ⟨r, pc'⟩⟩ := by
  obtain ⟨r', pc₁, sh', pc', hi, hf, hs⟩ := State.step_fires (h.step n hn i hat.1)
  obtain ⟨rfl, rfl⟩ := Thread.mk.inj (Option.some.inj (hat.2.symm.trans hi))
  exact ⟨sh', pc', hf, hs⟩

/-- The next step of a trace. -/
theorem cases (h : Traced B Inv hasher R states actor L) (hn : n < L) :
    (actor n = none ∧ ∃ r, states (n + 1) = (states n).call r) ∨
      ∃ i r pc sh' pc', At states actor n i r pc ∧ Fires B hasher (states n).shared i r pc sh' pc' ∧
        states (n + 1) = ⟨sh', (states n).threads.set i ⟨r, pc'⟩⟩ := by
  cases ha : actor n with
  | none =>
    obtain ⟨r, -, hs⟩ := h.call n hn ha
    exact Or.inl ⟨rfl, r, hs⟩
  | some i =>
    obtain ⟨r, pc, sh', pc', hi, hf, hs⟩ := State.step_fires (h.step n hn i ha)
    exact Or.inr ⟨i, r, pc, sh', pc', ⟨ha, hi⟩, hf, hs⟩

private theorem store_step (h : Traced B Inv hasher R states actor L) (hn : n < L) :
    Step B hasher (states n) (states (n + 1)) := by
  cases ha : actor n with
  | none =>
    obtain ⟨r, hr, hs⟩ := h.call n hn ha
    exact hs ▸ Step.call r hr
  | some i => exact Step.step i (h.step n hn i ha)

theorem reaches (h : Traced B Inv hasher R states actor L) (hmn : m ≤ n) (hn : n ≤ L) :
    Reaches B hasher (states m) (states n) := by
  induction n, hmn using Nat.le_induction with
  | base => exact .refl
  | succ n _ ih => exact (ih (by omega)).tail (h.store_step hn)

/-- A call after a step of the trace. -/
theorem thread_cases (h : Traced B Inv hasher R states actor L) (hn : n < L) {th : Thread}
    (hi : (states (n + 1)).threads[i]? = some th) :
    (states n).threads[i]? = some th ∨ th.pc = .called ∨
      ∃ r pc, At states actor n i r pc ∧ Fires B hasher (states n).shared i r pc (states (n + 1)).shared th.pc ∧
        th.request = r := by
  rcases h.cases hn with ⟨-, r, hs⟩ | ⟨j, r, pc, sh', pc', hat, hf, hs⟩ <;> rw [hs] at hi
  · rcases getElem?_concat_cases hi with ⟨-, rfl⟩ | hi
    · exact Or.inr (Or.inl rfl)
    · exact Or.inl hi
  · rcases getElem?_set_cases hi with ⟨rfl, rfl⟩ | ⟨-, hi⟩
    · refine Or.inr (Or.inr ⟨r, pc, hat, ?_, rfl⟩)
      rw [hs]
      exact hf
    · exact Or.inl hi

/-! ### The write mutex -/

theorem lock (h : Traced B Inv hasher R states actor L) :
    Lock actor (Synchronizes hasher states actor) (fun n => (states n).shared.writeMutex) L := by
  have howner : ∀ {n i : Nat} {r : Request} {pc : Pc} {sh' : Shared N σ} {pc' : Pc}, At states actor n i r pc →
      Fires B hasher (states n).shared i r pc sh' pc' →
      states (n + 1) = ⟨sh', (states n).threads.set i ⟨r, pc'⟩⟩ → n < L →
      (states (n + 1)).shared.writeMutex = (states n).shared.writeMutex ∨
        (∃ key value, r = .put key value ∧ pc = .called ∧ (states n).shared.writeMutex = none ∧
          (states (n + 1)).shared.writeMutex = some i) ∨
        ∃ ok, pc = .unlock ok ∧ (states n).shared.writeMutex = some i ∧ (states (n + 1)).shared.writeMutex = none := by
    intro n i r pc sh' pc' hat hf hs hn
    rw [hs]
    rcases fires_owner hf with hsame | hlock | ⟨ok, rfl, hm⟩
    · exact Or.inl hsame
    · exact Or.inr (Or.inl hlock)
    · exact Or.inr (Or.inr ⟨ok, rfl, ((h.safe n (Nat.le_of_lt hn)).exclusive.owner i _ hat.2).1 trivial, hm⟩)
  constructor
  · intro n hn
    rcases h.cases hn with ⟨-, r, hs⟩ | ⟨i, r, pc, sh', pc', hat, hf, hs⟩
    · exact Or.inl (by rw [hs]; rfl)
    · rcases howner hat hf hs hn with hsame | ⟨_, _, -, -, hfree, hown⟩ | ⟨_, -, hown, hfree⟩
      · exact Or.inl hsame
      · exact Or.inr ⟨i, Or.inl ⟨hat.1, hfree, hown⟩⟩
      · exact Or.inr ⟨i, Or.inr ⟨hat.1, hown, hfree⟩⟩
  · rintro i j m n hmn hn ⟨hi, hown, hfree⟩ ⟨hj, hfree', hown'⟩
    -- only the last step of a `put` gives the mutex back, and only the first one takes it
    obtain ⟨r, pc, sh', pc', hm, hf, hs⟩ := State.step_fires (h.step m (by omega) i hi)
    obtain ⟨r', pc₁, sh₁, pc₁', hm', hf', hs'⟩ := State.step_fires (h.step n hn j hj)
    have hgive := howner ⟨hi, hm⟩ hf hs (by omega)
    have htake := howner ⟨hj, hm'⟩ hf' hs' hn
    simp only [hown, hfree, hfree', hown', reduceCtorEq, and_false, exists_false, false_or, or_false,
      and_true] at hgive htake
    obtain ⟨ok, rfl⟩ := hgive
    obtain ⟨key, value, rfl, rfl⟩ := htake
    exact .mutex ⟨hi, hm⟩ ⟨hj, hm'⟩

/-- The steps of the critical sections are ordered. -/
theorem critical (h : Traced B Inv hasher R states actor L) (hmn : m < n) (hn : n < L) (hm : At states actor m i r pc)
    (hn' : At states actor n j r' pc') (hc : pc.Critical) (hc' : pc'.Critical) :
    Before actor (Synchronizes hasher states actor) m n :=
  h.lock.before hmn (Nat.le_of_lt hn) hm.1 (((h.safe m (by omega)).exclusive.owner i _ hm.2).1 hc) hn'.1
    (((h.safe n (by omega)).exclusive.owner j _ hn'.2).1 hc')

end Traced

end KeyValueStore
