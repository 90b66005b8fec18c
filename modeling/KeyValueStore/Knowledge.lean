import KeyValueStore.Trace

/-!
# What the calls know of

A call that holds a record knows of the step that published it, and a `get` that stands at a bucket knows of the step that
linked it: the pointers through which they got there were loaded with acquire semantics (`Traced.records`,
`Traced.bucketsKnown`).
-/

namespace KeyValueStore

open HappensBefore ConcurrentHashTable References

variable {N : Nat} [NeZero N] {σ : Type} {B : Buffer σ} {Inv : σ → Prop} {hasher : Bytes → Nat} {s s' : State N σ}
  {sh sh' : Shared N σ} {states : Nat → State N σ} {actor : Nat → Option Nat} {L R : Nat} {i j k m n b c : Nat}
  {r r' : Request} {pc pc' : Pc}

/-- The records that the buckets and the calls of the state `n` hold were there at the start or were published by a step.
For a bucket it is the last one that stored its pointer. -/
structure RecordsKnown (hasher : Bytes → Nat) (R : Nat) (states : Nat → State N σ) (actor : Nat → Option Nat) (n : Nat) :
    Prop where
  bucket : ∀ b c, (states n).shared.loadPointer b = some c →
    c < R ∨ ∃ k < n, Creates states actor k c ∧ Sets states actor k b ∧ ∀ l, k < l → l < n → ¬ Sets states actor l b
  call : ∀ (i : Nat) (th : Thread) (c : Nat), (states n).threads[i]? = some th → th.pc.control = some c →
    c < R ∨ ∃ k, Creates states actor k c ∧ Knows actor (Synchronizes hasher states actor) n i k

/-- The same for the buckets.  A bucket is linked once. -/
structure BucketsKnown (hasher : Bytes → Nat) (R : Nat) (states : Nat → State N σ) (actor : Nat → Option Nat) (n : Nat) :
    Prop where
  head : ∀ x b, (states n).shared.hashTable x = some b →
    b < R ∨ ∃ k < n, (∃ i r, At states actor k i r (.storeBucket b) ∧ hashTableIndex hasher r.key = x) ∧
      ∀ l, k < l → l < n → ¬ StoresHead hasher states actor l x
  next : ∀ b b', nextOf (states n).shared.bucketStorage b = some b' →
    b' < R ∨ ∃ k < n, Links states actor k b ∧
      ∃ k', Links states actor k' b' ∧ Before actor (Synchronizes hasher states actor) k' k
  call : ∀ (i : Nat) (th : Thread) (b : Nat), (states n).threads[i]? = some th → ¬ th.pc.Critical →
    th.pc.bucket = some b → b < R ∨ ∃ k, Links states actor k b ∧ Knows actor (Synchronizes hasher states actor) n i k
  linked : ∀ k < n, ∀ b, Links states actor k b → R ≤ b ∧ ∃ x b', (states n).shared.hashTable x = some b' ∧ b ≤ b'
  once : ∀ k < n, ∀ m < n, ∀ b, Links states actor k b → Links states actor m b → k = m
  fresh : ∀ (i : Nat) (th : Thread) (b : Nat), (states n).threads[i]? = some th → th.pc.fresh = some b → R ≤ b

/-- A call still knows the step that published its record. -/
private theorem RecordsKnown.call_succ (h : RecordsKnown hasher R states actor n) {th : Thread}
    (hi : (states n).threads[i]? = some th) (hc : th.pc.control = some c) :
    c < R ∨ ∃ k, Creates states actor k c ∧ Knows actor (Synchronizes hasher states actor) (n + 1) i k := by
  rcases h.call i th c hi hc with hlt | ⟨k, hk, hknow⟩
  · exact Or.inl hlt
  · exact Or.inr ⟨k, hk, hknow.mono (Nat.le_succ n)⟩

private theorem RecordsKnown.bucket_succ (h : RecordsKnown hasher R states actor n)
    (hb : (states n).shared.loadPointer b = some c) (hno : ¬ Sets states actor n b) : c < R ∨
      ∃ k < n + 1, Creates states actor k c ∧ Sets states actor k b ∧ ∀ l, k < l → l < n + 1 → ¬ Sets states actor l b := by
  rcases h.bucket b c hb with hlt | ⟨k, hk, hcr, hset, hlast⟩
  · exact Or.inl hlt
  · refine Or.inr ⟨k, by omega, hcr, hset, fun l hkl hl => ?_⟩
    rcases Nat.lt_succ_iff_lt_or_eq.1 hl with hl | rfl
    · exact hlast l hkl hl
    · exact hno

namespace Traced

/-! ### The records -/

/-- A store of a record pointer adds a control block. -/
theorem length_controls (h : Traced B Inv hasher R states actor L) (hn : n < L) (hset : Sets states actor n b) :
    (states (n + 1)).shared.controls.length = (states n).shared.controls.length + 1 := by
  obtain ⟨i, r, p, isNew, hat⟩ := hset
  obtain ⟨sh', pc', hf, hs⟩ := h.fires hn hat
  rw [hs]
  rcases fires_control hf with ⟨p', b', isNew', log, -, rfl, -⟩ | ⟨hpc, -⟩
  · simp [Shared.exchange]
  · exact absurd rfl (hpc p b isNew)

theorem controls_le (h : Traced B Inv hasher R states actor L) (hmn : m ≤ n) (hn : n ≤ L) :
    (states m).shared.controls.length ≤ (states n).shared.controls.length := by
  induction n, hmn using Nat.le_induction with
  | base => exact Nat.le_refl _
  | succ n _ ih =>
    apply Nat.le_trans (ih (by omega))
    rcases h.cases hn with ⟨-, r, hs⟩ | ⟨i, r, pc, sh', pc', -, hf, hs⟩ <;> rw [hs]
    · exact Nat.le_refl _
    · rcases fires_control hf with ⟨p, b, isNew, log, -, rfl, -⟩ | ⟨-, hlen, -⟩
      · simp [Shared.exchange]
      · exact Nat.le_of_eq hlen.symm

theorem creates_lt (h : Traced B Inv hasher R states actor L) (hk : Creates states actor k c) (hkn : k < n) (hn : n ≤ L) :
    c < (states n).shared.controls.length := by
  obtain ⟨b, hset, rfl⟩ := hk
  have := h.length_controls (Nat.lt_of_lt_of_le hkn hn) hset
  have := h.controls_le (show k + 1 ≤ n from hkn) hn
  omega

theorem creates_ge (h : Traced B Inv hasher R states actor L) (hk : Creates states actor k c) (hkn : k ≤ L) : R ≤ c := by
  obtain ⟨b, -, rfl⟩ := hk
  rw [← h.controls]
  exact h.controls_le (Nat.zero_le k) hkn

/-- A control block is made once. -/
theorem creates_inj (h : Traced B Inv hasher R states actor L) (hk : Creates states actor k c) (hm : Creates states actor m c)
    (hkL : k < L) (hmL : m < L) : k = m := by
  have hlt : ∀ {k m : Nat}, Creates states actor k c → Creates states actor m c → m < L → ¬ k < m := by
    intro k m hk hm hmL hlt
    have := h.creates_lt hk hlt (Nat.le_of_lt hmL)
    obtain ⟨b, -, hlen⟩ := hm
    omega
  have := hlt hk hm hmL
  have := hlt hm hk hkL
  omega

private theorem recordsKnown_exchange (h : Traced B Inv hasher R states actor L) (hn : n < L)
    (ih : RecordsKnown hasher R states actor n) {p b₀ : Nat} {isNew : Bool} {log : List LogEntry}
    (hat : At states actor n i r (.setPointer p b₀ isNew)) (hpc : pc'.control = (states n).shared.loadPointer b₀)
    (hs : states (n + 1) =
      ⟨{ (states n).shared.exchange B r p b₀ with log := log }, (states n).threads.set i ⟨r, pc'⟩⟩) :
    RecordsKnown hasher R states actor (n + 1) := by
  have hcr : Creates states actor n (states n).shared.controls.length := ⟨b₀, ⟨i, r, p, isNew, hat⟩, rfl⟩
  have hb₀ := (h.safe n (by omega)).inRange.thread_lt i _ b₀ hat.2 rfl
  constructor
  · intro b c hb
    rw [hs] at hb
    replace hb : ((states n).shared.exchange B r p b₀).loadPointer b = some c := hb
    rw [exchange_loadPointer B hb₀] at hb
    split at hb
    · rename_i hbb
      obtain rfl := Option.some.inj hb
      refine Or.inr ⟨n, Nat.lt_succ_self n, hcr, ⟨i, r, p, isNew, hbb ▸ hat⟩, fun l hl hl' => by omega⟩
    · rename_i hbb
      apply ih.bucket_succ hb
      rintro ⟨j, r', p', isNew', hat'⟩
      have := (hat.inj hat').2.2
      simp only [Pc.setPointer.injEq] at this
      exact hbb this.2.1
  · intro j th c hj hc
    rw [hs] at hj
    rcases getElem?_set_cases hj with ⟨rfl, rfl⟩ | ⟨-, hj⟩
    · -- the pointer that is replaced was stored in a critical section
      rcases ih.bucket b₀ c (hpc.symm.trans hc) with hlt | ⟨k, hk, hcr', ⟨j, r', p', isNew', hat'⟩, -⟩
      · exact Or.inl hlt
      · refine Or.inr ⟨k, hcr', knows_of_before (Nat.lt_succ_self n) hat.1 ?_⟩
        exact h.critical hk hn hat' hat rfl rfl
    · exact ih.call_succ hj hc

/-- Any other step: what a call holds then was loaded from a bucket. -/
private theorem recordsKnown_load (hat : At states actor n i r pc) (ih : RecordsKnown hasher R states actor n)
    (hpc : ∀ p b isNew, pc ≠ .setPointer p b isNew) (hload : ∀ b, sh'.loadPointer b = (states n).shared.loadPointer b)
    (hctrl : ∀ c, pc'.control = some c → pc.control = some c ∨
      ∃ b, pc.loads = some b ∧ (states n).shared.loadPointer b = some c)
    (hs : states (n + 1) = ⟨sh', (states n).threads.set i ⟨r, pc'⟩⟩) : RecordsKnown hasher R states actor (n + 1) := by
  constructor
  · intro b c hb
    rw [hs] at hb
    apply ih.bucket_succ (hload b ▸ hb)
    rintro ⟨j, r', p', isNew', hat'⟩
    exact hpc p' b isNew' (hat.inj hat').2.2
  · intro j th c hj hc
    rw [hs] at hj
    rcases getElem?_set_cases hj with ⟨rfl, rfl⟩ | ⟨-, hj⟩
    · rcases hctrl c hc with hc | ⟨b, hb, hload⟩
      · exact ih.call_succ hat.2 hc
      · rcases ih.bucket b c hload with hlt | ⟨k, hk, hcr, hset, hlast⟩
        · exact Or.inl hlt
        · refine Or.inr ⟨k, hcr, knows_of_before (Nat.lt_succ_self n) hat.1 ?_⟩
          exact before_of_sync hk (.pointer hset hat hb hlast)
    · exact ih.call_succ hj hc

theorem recordsKnown (h : Traced B Inv hasher R states actor L) (hn : n ≤ L) : RecordsKnown hasher R states actor n := by
  induction n with
  | zero =>
    refine ⟨fun b c hb => Or.inl ?_, fun i th c hi => by simp [h.threads] at hi⟩
    exact h.controls ▸ (h.safe 0 hn).counted.bucket_lt b c hb
  | succ n ih =>
    have ih := ih (by omega)
    rcases h.cases hn with ⟨ha, r, hs⟩ | ⟨i, r, pc, sh', pc', hat, hf, hs⟩
    · constructor
      · intro b c hb
        rw [hs] at hb
        apply ih.bucket_succ hb
        rintro ⟨i, r, p, isNew, hi, -⟩
        rw [ha] at hi
        cases hi
      · intro i th c hi hc
        rw [hs] at hi
        rcases getElem?_concat_cases hi with ⟨-, rfl⟩ | hi
        · cases hc
        · exact ih.call_succ hi hc
    · rcases fires_control hf with ⟨p, b₀, isNew, log, rfl, rfl, hpc⟩ | ⟨hpc, -, hload, hctrl⟩
      · exact h.recordsKnown_exchange hn ih hat hpc hs
      · exact recordsKnown_load hat ih hpc hload hctrl hs

/-- The step that published a record happens before those of the calls that hold it. -/
theorem records (h : Traced B Inv hasher R states actor L) (hn : n < L) (hat : At states actor n i r pc)
    (hc : pc.control = some c) :
    c < R ∨ ∃ k, Creates states actor k c ∧ Before actor (Synchronizes hasher states actor) k n := by
  rcases (h.recordsKnown (Nat.le_of_lt hn)).call i _ c hat.2 hc with hlt | ⟨k, hk, hknow⟩
  · exact Or.inl hlt
  · exact Or.inr ⟨k, hk, hknow.before hat.1⟩

/-! ### The buckets -/

theorem buckets_le (h : Traced B Inv hasher R states actor L) (hmn : m ≤ n) (hn : n ≤ L) :
    (states m).shared.bucketStorage.length ≤ (states n).shared.bucketStorage.length := by
  induction n, hmn using Nat.le_induction with
  | base => exact Nat.le_refl _
  | succ n _ ih =>
    apply Nat.le_trans (ih (by omega))
    rcases h.cases hn with ⟨-, r, hs⟩ | ⟨i, r, pc, sh', pc', -, hf, hs⟩ <;> rw [hs]
    · exact Nat.le_refl _
    · rcases fires_links hf with ⟨b, log, -, -, rfl⟩ | ⟨-, -, hlen, -⟩
      · simp [Shared.link]
      · exact hlen

private theorem links_cases (h : Traced B Inv hasher R states actor L) (hn : n < L) :
    (∃ i r b, At states actor n i r (.storeBucket b) ∧
        (states (n + 1)).threads = (states n).threads.set i ⟨r, .unlock true⟩ ∧
        ∃ log, (states (n + 1)).shared = { (states n).shared.link hasher r.key b with log := log }) ∨
      (∀ b, ¬ Links states actor n b) ∧ (states (n + 1)).shared.hashTable = (states n).shared.hashTable ∧
        ∀ b b', nextOf (states (n + 1)).shared.bucketStorage b = some b' →
          nextOf (states n).shared.bucketStorage b = some b' := by
  rcases h.cases hn with ⟨ha, r, hs⟩ | ⟨i, r, pc, sh', pc', hat, hf, hs⟩ <;> rw [hs]
  · refine Or.inr ⟨?_, rfl, fun _ _ => id⟩
    rintro b ⟨i, r, hi, -⟩
    rw [ha] at hi
    cases hi
  · rcases fires_links hf with ⟨b, log, rfl, rfl, rfl⟩ | ⟨hpc, htable, -, hnext⟩
    · exact Or.inl ⟨i, r, b, hat, rfl, log, rfl⟩
    · refine Or.inr ⟨?_, htable, hnext⟩
      rintro b ⟨j, r', hat'⟩
      exact hpc b (hat.inj hat').2.2

private theorem head_step (h : Traced B Inv hasher R states actor L) (hn : n < L)
    (hk : BucketsKnown hasher R states actor n) (x : Fin N) (b : Nat)
    (hb : (states (n + 1)).shared.hashTable x = some b) :
    b < R ∨ ∃ k < n + 1, (∃ i r, At states actor k i r (.storeBucket b) ∧ hashTableIndex hasher r.key = x) ∧
      ∀ l, k < l → l < n + 1 → ¬ StoresHead hasher states actor l x := by
  obtain ⟨hb, hno⟩ | ⟨i, r, hat, hx⟩ :
      ((states n).shared.hashTable x = some b ∧ ¬ StoresHead hasher states actor n x) ∨
        ∃ i r, At states actor n i r (.storeBucket b) ∧ hashTableIndex hasher r.key = x := by
    rcases h.links_cases hn with ⟨i, r, b₀, hat, -, log, hsh⟩ | ⟨hno, htable, -⟩
    · rw [hsh] at hb
      replace hb : Function.update (states n).shared.hashTable (hashTableIndex hasher r.key) (some b₀) x = some b := hb
      rw [Function.update_apply] at hb
      split at hb
      · rename_i hx
        obtain rfl := Option.some.inj hb
        exact Or.inr ⟨i, r, hat, hx.symm⟩
      · rename_i hx
        refine Or.inl ⟨hb, ?_⟩
        rintro ⟨j, r', b', hat', hx'⟩
        obtain ⟨-, rfl, -⟩ := hat.inj hat'
        exact hx hx'.symm
    · refine Or.inl ⟨htable ▸ hb, ?_⟩
      rintro ⟨i, r, b', hat, -⟩
      exact hno b' ⟨i, r, hat⟩
  · rcases hk.head x b hb with hlt | ⟨k, hkn, hst, hlast⟩
    · exact Or.inl hlt
    · refine Or.inr ⟨k, Nat.lt_succ_of_lt hkn, hst, fun l hkl hl => ?_⟩
      rcases Nat.lt_succ_iff_lt_or_eq.1 hl with hl | rfl
      · exact hlast l hkl hl
      · exact hno
  · exact Or.inr ⟨n, Nat.lt_succ_self n, ⟨i, r, hat, hx⟩, fun l hl hl' => by omega⟩

private theorem next_step (h : Traced B Inv hasher R states actor L) (hn : n < L)
    (hk : BucketsKnown hasher R states actor n) (b b' : Nat)
    (hb : nextOf (states (n + 1)).shared.bucketStorage b = some b') :
    b' < R ∨ ∃ k < n + 1, Links states actor k b ∧
      ∃ k', Links states actor k' b' ∧ Before actor (Synchronizes hasher states actor) k' k := by
  obtain hb | ⟨i, r, hat, hx⟩ : nextOf (states n).shared.bucketStorage b = some b' ∨
      ∃ i r, At states actor n i r (.storeBucket b) ∧
        (states n).shared.hashTable (hashTableIndex hasher r.key) = some b' := by
    rcases h.links_cases hn with ⟨i, r, b₀, hat, -, log, hsh⟩ | ⟨-, -, hnext⟩
    · rw [hsh] at hb
      rcases link_nextOf hb with hb | ⟨rfl, hx⟩
      · exact Or.inl hb
      · exact Or.inr ⟨i, r, hat, hx⟩
    · exact Or.inl (hnext b b' hb)
  · rcases hk.next b b' hb with hlt | ⟨k, hkn, hl⟩
    · exact Or.inl hlt
    · exact Or.inr ⟨k, Nat.lt_succ_of_lt hkn, hl⟩
  · -- the old head was linked in a critical section
    rcases hk.head _ b' hx with hlt | ⟨k, hkn, ⟨j, r', hat', -⟩, -⟩
    · exact Or.inl hlt
    · exact Or.inr ⟨n, Nat.lt_succ_self n, ⟨i, r, hat⟩, k, ⟨j, r', hat'⟩, h.critical hkn hn hat' hat trivial trivial⟩

private theorem call_step (h : Traced B Inv hasher R states actor L) (hn : n < L)
    (hk : BucketsKnown hasher R states actor n) (i : Nat) (th : Thread) (b : Nat)
    (hi : (states (n + 1)).threads[i]? = some th) (hc : ¬ th.pc.Critical) (hb : th.pc.bucket = some b) :
    b < R ∨ ∃ k, Links states actor k b ∧ Knows actor (Synchronizes hasher states actor) (n + 1) i k := by
  have hkeep : ∀ (th : Thread) (b : Nat), (states n).threads[i]? = some th → ¬ th.pc.Critical → th.pc.bucket = some b →
      b < R ∨ ∃ k, Links states actor k b ∧ Knows actor (Synchronizes hasher states actor) (n + 1) i k := by
    intro th b hi hc hb
    rcases hk.call i th b hi hc hb with hlt | ⟨k, hl, hknow⟩
    · exact Or.inl hlt
    · exact Or.inr ⟨k, hl, hknow.mono (Nat.le_succ n)⟩
  rcases h.thread_cases hn hi with hi | hcalled | ⟨r, pc, hat, hf, -⟩
  · exact hkeep th b hi hc hb
  · rw [hcalled] at hb
    cases hb
  · obtain ⟨hc, hold | ⟨hload, hx⟩ | ⟨b₀, hb₀, hnext⟩⟩ := fires_reaches hf hc hb
    · exact hkeep _ b hat.2 hc hold
    · rcases hk.head _ b hx with hlt | ⟨k, hkn, ⟨j, r', hat', hx'⟩, hlast⟩
      · exact Or.inl hlt
      · refine Or.inr ⟨k, ⟨j, r', hat'⟩, knows_of_before (Nat.lt_succ_self n) hat.1 ?_⟩
        exact before_of_sync hkn (.head hat' hat hload hx' (hx' ▸ hlast))
    · rcases hk.next b₀ b hnext with hlt | ⟨k, hkn, hlink, k', hlink', hbefore⟩
      · exact Or.inl hlt
      · -- the call knows of the step that linked the bucket before, which is the one that stored this link
        have hR := (hk.linked k hkn b₀ hlink).1
        rcases hk.call i _ b₀ hat.2 hc hb₀ with hlt | ⟨k₁, hlink₁, hknow⟩
        · omega
        · obtain rfl := hk.once k hkn k₁ hknow.lt b₀ hlink hlink₁
          exact Or.inr ⟨k', hlink', (hknow.trans hbefore).mono (Nat.le_succ n)⟩

private theorem linked_step (h : Traced B Inv hasher R states actor L) (hn : n < L)
    (hk : BucketsKnown hasher R states actor n) {k b : Nat} (hkn : k < n + 1) (hl : Links states actor k b) :
    R ≤ b ∧ ∃ x b', (states (n + 1)).shared.hashTable x = some b' ∧ b ≤ b' := by
  rcases h.links_cases hn with ⟨i, r, b₀, hat, -, log, hsh⟩ | ⟨hno, htable, -⟩
  · have hhead : (states (n + 1)).shared.hashTable (hashTableIndex hasher r.key) = some b₀ := by
      rw [hsh]
      exact Function.update_self ..
    rcases Nat.lt_succ_iff_lt_or_eq.1 hkn with hkn | rfl
    · obtain ⟨hR, x, b', hb', hle⟩ := hk.linked k hkn b hl
      have := (h.descending n (Nat.le_of_lt hn)).fresh i _ b₀ hat.2 rfl x b' hb'
      exact ⟨hR, _, b₀, hhead, by omega⟩
    · obtain ⟨j, r', hat'⟩ := hl
      obtain ⟨-, -, hpc⟩ := hat.inj hat'
      obtain rfl := Pc.storeBucket.inj hpc
      exact ⟨hk.fresh i _ b₀ hat.2 rfl, _, b₀, hhead, Nat.le_refl _⟩
  · rw [htable]
    rcases Nat.lt_succ_iff_lt_or_eq.1 hkn with hkn | rfl
    · exact hk.linked k hkn b hl
    · exact absurd hl (hno b)

/-- All heads are older than a bucket that is about to be linked. -/
private theorem once_step (h : Traced B Inv hasher R states actor L) (hn : n < L)
    (hk : BucketsKnown hasher R states actor n) (hkn : k < n + 1) (hmn : m < n + 1) (hl : Links states actor k b)
    (hl' : Links states actor m b) : k = m := by
  have hnew : ∀ k < n, Links states actor k b → ¬ Links states actor n b := by
    rintro k hkn hl ⟨i, r, hat⟩
    obtain ⟨-, x, b', hb', hle⟩ := hk.linked k hkn b hl
    have := (h.descending n (Nat.le_of_lt hn)).fresh i _ b hat.2 rfl x b' hb'
    omega
  rcases Nat.lt_succ_iff_lt_or_eq.1 hkn with hkn | rfl <;> rcases Nat.lt_succ_iff_lt_or_eq.1 hmn with hmn | rfl
  · exact hk.once k hkn m hmn b hl hl'
  · exact absurd hl' (hnew k hkn hl)
  · exact absurd hl (hnew m hmn hl')
  · rfl

private theorem fresh_step (h : Traced B Inv hasher R states actor L) (hn : n < L)
    (hk : BucketsKnown hasher R states actor n) (i : Nat) (th : Thread) (b : Nat)
    (hi : (states (n + 1)).threads[i]? = some th) (hb : th.pc.fresh = some b) : R ≤ b := by
  rcases h.thread_cases hn hi with hi | hcalled | ⟨r, pc, hat, hf, -⟩
  · exact hk.fresh i th b hi hb
  · rw [hcalled] at hb
    cases hb
  · rcases fires_fresh hf hb with hb | ⟨-, rfl⟩
    · exact hk.fresh i _ b hat.2 hb
    · exact h.buckets ▸ h.buckets_le (Nat.zero_le n) (Nat.le_of_lt hn)

theorem bucketsKnown (h : Traced B Inv hasher R states actor L) (hn : n ≤ L) : BucketsKnown hasher R states actor n := by
  induction n with
  | zero =>
    have hin := (h.safe 0 hn).inRange
    refine ⟨fun x b hb => Or.inl (h.buckets ▸ hin.head_lt x b hb), fun b b' hb => Or.inl (h.buckets ▸ hin.next_lt b b' hb),
      fun i th b hi => ?_, fun k hk => absurd hk (Nat.not_lt_zero k), fun k hk => absurd hk (Nat.not_lt_zero k),
      fun i th b hi => ?_⟩ <;> simp [h.threads] at hi
  | succ n ih =>
    have hk := ih (Nat.le_of_lt hn)
    exact ⟨h.head_step hn hk, h.next_step hn hk, h.call_step hn hk, fun k hkn b hl => h.linked_step hn hk hkn hl,
      fun k hkn m hmn b hl hl' => h.once_step hn hk hkn hmn hl hl', h.fresh_step hn hk⟩

/-- The step that linked a bucket happens before those of the `get`s that stand at it. -/
theorem reached (h : Traced B Inv hasher R states actor L) (hn : n < L) (hat : At states actor n i r pc)
    (hc : ¬ pc.Critical) (hb : pc.bucket = some b) :
    b < R ∨ ∃ k, Links states actor k b ∧ Before actor (Synchronizes hasher states actor) k n := by
  rcases (h.bucketsKnown (Nat.le_of_lt hn)).call i _ b hat.2 hc hb with hlt | ⟨k, hk, hknow⟩
  · exact Or.inl hlt
  · exact Or.inr ⟨k, hk, hknow.before hat.1⟩

end Traced

end KeyValueStore
