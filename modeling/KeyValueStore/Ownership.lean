import KeyValueStore.Firing
import KeyValueStore.References

/-!
# Who holds what

Three invariants of the concurrent store that do not look at the file.  The call that holds the write mutex is the one in its
critical section (`Exclusive`); a use count is the number of buckets and calls that hold a copy of the pointer (`Counted`);
and all buckets that a chain or a call refers to exist (`InRange`).
-/

namespace KeyValueStore

open ConcurrentHashTable References

variable {N : Nat} {σ : Type} {B : Buffer σ} {hasher : Bytes → Nat} {s s' : State N σ}
  {sh' : Shared N σ} {i : Nat} {r : Request} {pc pc' : Pc}

/-- The entries of a list after one of them is replaced. -/
theorem getElem?_set_cases {α : Type} {l : List α} {i j : Nat} {a b : α} (h : (l.set i a)[j]? = some b) :
    (i = j ∧ b = a) ∨ (i ≠ j ∧ l[j]? = some b) := by
  rw [List.getElem?_set] at h
  split at h
  · rename_i hij
    split at h
    · exact Or.inl ⟨hij, (Option.some.inj h).symm⟩
    · cases h
  · rename_i hij
    exact Or.inr ⟨hij, h⟩

/-- The entries of a list after one is added. -/
theorem getElem?_concat_cases {α : Type} {l : List α} {j : Nat} {a b : α} (h : (l ++ [a])[j]? = some b) :
    (j = l.length ∧ b = a) ∨ l[j]? = some b := by
  rcases Nat.lt_or_ge j l.length with hj | hj
  · rw [List.getElem?_append_left hj] at h
    exact Or.inr h
  · rw [List.getElem?_append_right hj] at h
    obtain ⟨hlt, he⟩ := List.getElem?_eq_some_iff.1 h
    have hj' : j - l.length = 0 := by simpa using hlt
    refine Or.inl ⟨by omega, ?_⟩
    rw [← he]
    simp [hj']

theorem getElem?_of_extends {α : Type} {l l' : List α} (h : l <+: l') {p : Nat} {a : α} (hp : l[p]? = some a) :
    l'[p]? = some a := by
  obtain ⟨t, rfl⟩ := h
  rw [List.getElem?_append_left (List.getElem?_eq_some_iff.1 hp).1, hp]

/-! ### The mutex -/

/-- The mutex belongs to the call in its critical section. -/
structure Exclusive (s : State N σ) : Prop where
  owner : ∀ i th, s.threads[i]? = some th → (th.pc.Critical ↔ s.shared.writeMutex = some i)
  lt : ∀ i, s.shared.writeMutex = some i → i < s.threads.length

theorem critical_of_block {p : Nat} (h : pc.block = some p) : pc.Critical := by
  cases pc <;> simp_all [Pc.block, Pc.Critical]

theorem critical_afterSet {b : Nat} {isNew : Bool} : (Shared.afterSet b isNew).Critical := by
  unfold Shared.afterSet
  split <;> trivial

/-- One call at most is in its critical section. -/
theorem Exclusive.eq_of_critical (h : Exclusive s) {j : Nat} {th th' : Thread} (hi : s.threads[i]? = some th)
    (hj : s.threads[j]? = some th') (hc : th.pc.Critical) (hc' : th'.pc.Critical) : i = j := by
  have h₁ := (h.owner i th hi).1 hc
  have h₂ := (h.owner j th' hj).1 hc'
  simpa [h₁] using h₂

/-- While the mutex is free there is none. -/
theorem Exclusive.not_critical (h : Exclusive s) (hm : s.shared.writeMutex = none) {th : Thread}
    (hi : s.threads[i]? = some th) : ¬ th.pc.Critical := by
  intro hc
  have hmutex := (h.owner i th hi).1 hc
  rw [hm] at hmutex
  cases hmutex

theorem release_mutex (B : Buffer σ) (sh : Shared N σ) (c : Nat) : (sh.release B c).writeMutex = sh.writeMutex := by
  unfold Shared.release
  split <;> rfl

/-! ### The use counts -/

/-- The control block of which the call holds a copy. -/
def Thread.control (th : Thread) : Option Nat := th.pc.control

structure Counted (s : State N σ) : Prop where
  counts : ∀ c x, s.shared.controls[c]? = some x →
    x.useCount = holders Bucket.keyValueData s.shared.bucketStorage c + holders Thread.control s.threads c
  bucket_lt : ∀ b c, s.shared.loadPointer b = some c → c < s.shared.controls.length
  thread_lt : ∀ (i : Nat) (th : Thread) (c : Nat), s.threads[i]? = some th → th.control = some c → c < s.shared.controls.length
  unique : ∀ b b' c, s.shared.loadPointer b = some c → s.shared.loadPointer b' = some c → b = b'

theorem holders_bucket_pos {sh : Shared N σ} {b c : Nat} (h : sh.loadPointer b = some c) :
    0 < holders Bucket.keyValueData sh.bucketStorage c := by
  obtain ⟨bucket, hb, hc⟩ := Option.bind_eq_some_iff.1 h
  exact holders_pos.2 ⟨bucket, List.mem_of_getElem? hb, hc⟩

/-- What a bucket holds is alive. -/
theorem Counted.bucket_live (h : Counted s) {b c : Nat} (hb : s.shared.loadPointer b = some c) :
    ∃ x, s.shared.controls[c]? = some x ∧ x.useCount ≠ 0 := by
  have hlt := h.bucket_lt b c hb
  refine ⟨_, List.getElem?_eq_getElem hlt, ?_⟩
  have := holders_bucket_pos hb
  rw [h.counts c _ (List.getElem?_eq_getElem hlt)]
  omega

/-- What a call holds is alive. -/
theorem Counted.thread_live (h : Counted s) {th : Thread} {c : Nat} (hth : s.threads[i]? = some th)
    (hc : th.control = some c) : ∃ x, s.shared.controls[c]? = some x ∧ x.useCount ≠ 0 := by
  have hlt := h.thread_lt i th c hth hc
  refine ⟨_, List.getElem?_eq_getElem hlt, ?_⟩
  have : 0 < holders Thread.control s.threads c := holders_pos.2 ⟨th, List.mem_of_getElem? hth, hc⟩
  rw [h.counts c _ (List.getElem?_eq_getElem hlt)]
  omega

/-- A step that changes no pointer. -/
private theorem Counted.quiet (h : Counted s) (hth : s.threads[i]? = some ⟨r, pc⟩)
    (hc : sh'.controls = s.shared.controls) (hp : ∀ b, sh'.loadPointer b = s.shared.loadPointer b)
    (hh : ∀ c, holders Bucket.keyValueData sh'.bucketStorage c = holders Bucket.keyValueData s.shared.bucketStorage c)
    (hpc : pc'.control = pc.control) : Counted ⟨sh', s.threads.set i ⟨r, pc'⟩⟩ := by
  have ht : ∀ c, holders Thread.control (s.threads.set i ⟨r, pc'⟩) c = holders Thread.control s.threads c :=
    fun c => holders_set_of_eq hth hpc
  refine ⟨fun c x hx => ?_, fun b c hb => ?_, fun j th c hj hth' => ?_, fun b b' c hb hb' => ?_⟩
  · rw [hc] at hx
    rw [hh, ht]
    exact h.counts c x hx
  · rw [hc]
    exact h.bucket_lt b c (hp b ▸ hb)
  · rw [hc]
    rcases getElem?_set_cases hj with ⟨rfl, rfl⟩ | ⟨-, hj⟩
    · exact h.thread_lt i _ c hth (hpc.symm.trans hth')
    · exact h.thread_lt j th c hj hth'
  · exact h.unique b b' c (hp b ▸ hb) (hp b' ▸ hb')

private theorem acquire_controls {sh : Shared N σ} {c c' : Nat} {x : Control} (h : (sh.acquire c).controls[c']? = some x) :
    ∃ y, sh.controls[c']? = some y ∧ x.useCount = y.useCount + if c = c' then 1 else 0 := by
  rw [Shared.acquire, List.getElem?_modify] at h
  obtain ⟨y, hy, rfl⟩ := Option.map_eq_some_iff.1 h
  refine ⟨y, hy, ?_⟩
  split <;> rfl

private theorem Counted.acquire (h : Counted s) (hth : s.threads[i]? = some ⟨r, pc⟩) {b c : Nat}
    (hb : s.shared.loadPointer b = some c) (hpc : pc.control = none) (hpc' : pc'.control = some c) :
    Counted ⟨s.shared.acquire c, s.threads.set i ⟨r, pc'⟩⟩ := by
  have ht : ∀ c', holders Thread.control (s.threads.set i ⟨r, pc'⟩) c' =
      holders Thread.control s.threads c' + if c = c' then 1 else 0 := fun c' => holders_set_of_none hth hpc hpc'
  have hlen : (s.shared.acquire c).controls.length = s.shared.controls.length := by simp [Shared.acquire]
  refine ⟨fun c' x hx => ?_, fun b' c' hb' => ?_, fun j th c' hj hth' => ?_, h.unique⟩
  · obtain ⟨y, hy, hxy⟩ := acquire_controls hx
    have hcount := h.counts c' y hy
    rw [hxy, ht, hcount]
    exact Nat.add_assoc ..
  · rw [hlen]
    exact h.bucket_lt b' c' hb'
  · rw [hlen]
    rcases getElem?_set_cases hj with ⟨rfl, rfl⟩ | ⟨-, hj⟩
    · obtain rfl : c = c' := Option.some.inj (hpc'.symm.trans hth')
      exact h.bucket_lt b c hb
    · exact h.thread_lt j th c' hj hth'

theorem newBucket_loadPointer (sh : Shared N σ) (b : Nat) :
    ({ sh with bucketStorage := sh.bucketStorage ++ [⟨none, none⟩] } : Shared N σ).loadPointer b = sh.loadPointer b := by
  simp only [Shared.loadPointer]
  rcases Nat.lt_trichotomy b sh.bucketStorage.length with hb | rfl | hb
  · rw [List.getElem?_append_left hb]
  · simp
  · have hold : sh.bucketStorage[b]? = none := List.getElem?_eq_none (Nat.le_of_lt hb)
    have hnew : (sh.bucketStorage ++ [⟨none, none⟩])[b]? = none :=
      List.getElem?_eq_none (by rw [List.length_append, List.length_singleton]; omega)
    rw [hold, hnew]

theorem release_loadPointer (B : Buffer σ) (sh : Shared N σ) (c b : Nat) :
    (sh.release B c).loadPointer b = sh.loadPointer b := by
  unfold Shared.release
  split <;> rfl

theorem release_bucketStorage (B : Buffer σ) (sh : Shared N σ) (c : Nat) :
    (sh.release B c).bucketStorage = sh.bucketStorage := by
  unfold Shared.release
  split <;> rfl

theorem release_hashTable (B : Buffer σ) (sh : Shared N σ) (c : Nat) : (sh.release B c).hashTable = sh.hashTable := by
  unfold Shared.release
  split <;> rfl

/-- The control blocks after one of them loses a copy. -/
theorem release_controls (B : Buffer σ) {sh : Shared N σ} {c : Nat} {x : Control} (hx : sh.controls[c]? = some x) :
    (sh.release B c).controls = sh.controls.set c { x with useCount := x.useCount - 1 } := by
  rw [Shared.release, hx]

private theorem Counted.release (h : Counted s) (hth : s.threads[i]? = some ⟨r, pc⟩) {c : Nat}
    (hpc : pc.control = some c) (hpc' : pc'.control = none) :
    Counted ⟨s.shared.release B c, s.threads.set i ⟨r, pc'⟩⟩ := by
  have ht : ∀ c', holders Thread.control (s.threads.set i ⟨r, pc'⟩) c' + (if c = c' then 1 else 0) =
      holders Thread.control s.threads c' := fun c' => holders_set_none hth hpc hpc'
  obtain ⟨x, hx, -⟩ := h.thread_live hth hpc
  have hlen : (s.shared.release B c).controls.length = s.shared.controls.length := by simp [release_controls B hx]
  refine ⟨fun c' y hy => ?_, fun b' c' hb' => ?_, fun j th c' hj hth' => ?_, fun b b' c' hb hb' => ?_⟩
  · rw [release_controls B hx] at hy
    change y.useCount = holders Bucket.keyValueData (s.shared.release B c).bucketStorage c' +
      holders Thread.control (s.threads.set i ⟨r, pc'⟩) c'
    rw [release_bucketStorage]
    have ht' := ht c'
    rcases getElem?_set_cases hy with ⟨rfl, rfl⟩ | ⟨hne, hy⟩
    · have hcount := h.counts c x hx
      rw [if_pos rfl] at ht'
      change x.useCount - 1 = _
      omega
    · have hcount := h.counts c' y hy
      rw [if_neg hne] at ht'
      omega
  · rw [hlen]
    exact h.bucket_lt b' c' (release_loadPointer B s.shared c b' ▸ hb')
  · rw [hlen]
    rcases getElem?_set_cases hj with ⟨rfl, rfl⟩ | ⟨-, hj⟩
    · simp [Thread.control, hpc'] at hth'
    · exact h.thread_lt j th c' hj hth'
  · exact h.unique b b' c' (release_loadPointer B s.shared c b ▸ hb) (release_loadPointer B s.shared c b' ▸ hb')

/-- The pointers after one of them is replaced by that of the new record. -/
theorem exchange_loadPointer (B : Buffer σ) {sh : Shared N σ} {b : Nat} (hb : b < sh.bucketStorage.length) (r : Request)
    (p b' : Nat) :
    (sh.exchange B r p b).loadPointer b' = if b = b' then some sh.controls.length else sh.loadPointer b' := by
  unfold Shared.loadPointer Shared.exchange
  rw [List.getElem?_modify]
  split
  · rename_i h
    subst h
    simp [hb]
  · simp

private theorem exchange_holders (B : Buffer σ) {sh : Shared N σ} {b : Nat} (hb : b < sh.bucketStorage.length)
    (r : Request) (p c : Nat) :
    holders Bucket.keyValueData (sh.exchange B r p b).bucketStorage c + (if sh.loadPointer b = some c then 1 else 0) =
      holders Bucket.keyValueData sh.bucketStorage c + if sh.controls.length = c then 1 else 0 := by
  have hget := List.getElem?_eq_getElem hb
  have hload : sh.loadPointer b = sh.bucketStorage[b].keyValueData := by rw [Shared.loadPointer, hget, Option.bind_some]
  let f : Bucket → Bucket := fun b => { b with keyValueData := some sh.controls.length }
  have hmod : holders Bucket.keyValueData (sh.bucketStorage.modify b f) c + (if sh.loadPointer b = some c then 1 else 0) =
      holders Bucket.keyValueData sh.bucketStorage c +
        if (f sh.bucketStorage[b]).keyValueData = some c then 1 else 0 := hload ▸ holders_modify hget
  simpa [Shared.exchange, f] using hmod

private theorem Counted.holders_bucket_lt (h : Counted s) {c : Nat}
    (hc : 0 < holders Bucket.keyValueData s.shared.bucketStorage c) : c < s.shared.controls.length := by
  obtain ⟨bucket, hmem, hbc⟩ := holders_pos.1 hc
  obtain ⟨b, hb, rfl⟩ := List.getElem_of_mem hmem
  apply h.bucket_lt b c
  rw [Shared.loadPointer, List.getElem?_eq_getElem hb, Option.bind_some, hbc]

private theorem Counted.holders_thread_lt (h : Counted s) {c : Nat} (hc : 0 < holders Thread.control s.threads c) :
    c < s.shared.controls.length := by
  obtain ⟨th, hmem, hth⟩ := holders_pos.1 hc
  obtain ⟨j, hj, rfl⟩ := List.getElem_of_mem hmem
  exact h.thread_lt j _ c (List.getElem?_eq_getElem hj) hth

/-- The pointer of a new record goes into a bucket; the call holds what was there. -/
private theorem Counted.exchange (h : Counted s) (hth : s.threads[i]? = some ⟨r, pc⟩) {p b : Nat}
    (hb : b < s.shared.bucketStorage.length) (hpc : pc.control = none) (hpc' : pc'.control = s.shared.loadPointer b)
    (log : List LogEntry) :
    Counted ⟨{ s.shared.exchange B r p b with log := log }, s.threads.set i ⟨r, pc'⟩⟩ := by
  have hptr := exchange_loadPointer B hb r p
  have hlen : (s.shared.exchange B r p b).controls.length = s.shared.controls.length + 1 := by simp [Shared.exchange]
  refine ⟨fun c x hx => ?_, fun b' c hc => ?_, fun j th c hj hc => ?_, fun b₁ b₂ c h₁ h₂ => ?_⟩
  · have hbk := exchange_holders B hb r p c
    have ht : holders Thread.control (s.threads.set i ⟨r, pc'⟩) c + (if pc.control = some c then 1 else 0) =
      holders Thread.control s.threads c + if pc'.control = some c then 1 else 0 := holders_set hth
    rw [hpc, hpc'] at ht
    simp only [reduceCtorEq, if_false] at ht
    change x.useCount = holders Bucket.keyValueData (s.shared.exchange B r p b).bucketStorage c +
      holders Thread.control (s.threads.set i ⟨r, pc'⟩) c
    rcases getElem?_concat_cases hx with ⟨rfl, rfl⟩ | hx
    · -- the new control block has one copy, in the bucket
      have h₁ : ¬ 0 < holders Bucket.keyValueData s.shared.bucketStorage s.shared.controls.length :=
        fun hc => Nat.lt_irrefl _ (h.holders_bucket_lt hc)
      have h₂ : ¬ 0 < holders Thread.control s.threads s.shared.controls.length :=
        fun hc => Nat.lt_irrefl _ (h.holders_thread_lt hc)
      rw [if_pos rfl] at hbk
      change 1 = _
      omega
    · have hcount := h.counts c x hx
      have hne : s.shared.controls.length ≠ c := by
        have := (List.getElem?_eq_some_iff.1 hx).1
        omega
      rw [if_neg hne] at hbk
      omega
  · change c < (s.shared.exchange B r p b).controls.length
    rw [hlen]
    have hc : (s.shared.exchange B r p b).loadPointer b' = some c := hc
    rw [hptr] at hc
    split at hc
    · obtain rfl := Option.some.inj hc
      omega
    · have := h.bucket_lt b' c hc
      omega
  · change c < (s.shared.exchange B r p b).controls.length
    rw [hlen]
    rcases getElem?_set_cases hj with ⟨rfl, rfl⟩ | ⟨-, hj⟩
    · have := h.bucket_lt b c (hpc'.symm.trans hc)
      omega
    · have := h.thread_lt j th c hj hc
      omega
  · have h₁ : (s.shared.exchange B r p b).loadPointer b₁ = some c := h₁
    have h₂ : (s.shared.exchange B r p b).loadPointer b₂ = some c := h₂
    rw [hptr] at h₁ h₂
    split at h₁ <;> split at h₂
    · exact (‹b = b₁›).symm.trans ‹b = b₂›
    · have := h.bucket_lt b₂ c h₂
      obtain rfl := Option.some.inj h₁
      omega
    · have := h.bucket_lt b₁ c h₁
      obtain rfl := Option.some.inj h₂
      omega
    · exact h.unique b₁ b₂ c h₁ h₂

/-! ### The steps -/

variable [NeZero N]

theorem link_loadPointer (sh : Shared N σ) (key : Bytes) (b b' : Nat) :
    (sh.link hasher key b).loadPointer b' = sh.loadPointer b' := by
  rw [Shared.loadPointer, Shared.loadPointer, Shared.link, List.getElem?_modify]
  cases sh.bucketStorage[b']? with
  | none => rfl
  | some bucket => by_cases hb : b = b' <;> simp [hb]

/-- A bucket that is linked points to the old head of its chain. -/
theorem link_nextOf {sh : Shared N σ} {key : Bytes} {b b₁ b₂ : Nat}
    (h : nextOf (sh.link hasher key b).bucketStorage b₁ = some b₂) :
    nextOf sh.bucketStorage b₁ = some b₂ ∨ (b₁ = b ∧ sh.hashTable (hashTableIndex hasher key) = some b₂) := by
  rw [Shared.link, nextOf, List.getElem?_modify] at h
  obtain ⟨bucket, hb, hn⟩ := Option.bind_eq_some_iff.1 h
  obtain ⟨bucket', hb', rfl⟩ := Option.map_eq_some_iff.1 hb
  by_cases hne : b = b₁
  · rw [if_pos hne] at hn
    exact Or.inr ⟨hne.symm, hn⟩
  · rw [if_neg hne] at hn
    rw [nextOf, hb']
    exact Or.inl hn

theorem critical_loadHead {sh : Shared N σ} {key : Bytes} {block : Option Nat} :
    (sh.loadHead hasher key block).Critical ↔ (Pc.findHead block).Critical := by
  unfold Shared.loadHead
  split <;> rfl

/-- A step takes the mutex, gives it back, or leaves it. -/
private theorem fires_mutex {sh : Shared N σ} (h : Fires B hasher sh i r pc sh' pc') :
    (sh'.writeMutex = sh.writeMutex ∧ (pc'.Critical ↔ pc.Critical)) ∨
      (sh.writeMutex = none ∧ sh'.writeMutex = some i ∧ pc'.Critical) ∨
      (pc.Critical ∧ sh'.writeMutex = none ∧ ¬ pc'.Critical) := by
  cases h with
  | lock hr hm => exact Or.inr (Or.inl ⟨hm, rfl, trivial⟩)
  | unlock => exact Or.inr (Or.inr ⟨trivial, rfl, by simp [Pc.Critical, Pc.block]⟩)
  | getHead hr =>
    refine Or.inl ⟨rfl, critical_loadHead.trans ?_⟩
    simp [Pc.Critical, Pc.block]
  | loadHead => exact Or.inl ⟨rfl, critical_loadHead⟩
  | dropCompared =>
    refine Or.inl ⟨release_mutex .., ?_⟩
    split <;> rfl
  | dropRead => exact Or.inl ⟨release_mutex .., by simp [Pc.Critical, Pc.block]⟩
  | dropOld => exact Or.inl ⟨release_mutex .., iff_of_true critical_afterSet trivial⟩
  | setFresh => exact Or.inl ⟨rfl, iff_of_true critical_afterSet rfl⟩
  | _ => exact Or.inl ⟨rfl, by simp [Pc.Critical, Pc.block]⟩

theorem Exclusive.step (h : Exclusive s) (hs : Step B hasher s s') : Exclusive s' := by
  rcases hs.cases with ⟨r, -, rfl⟩ | ⟨i, r, pc, sh', pc', hth, hf, rfl⟩
  · constructor
    · intro j th hj
      rcases getElem?_concat_cases hj with ⟨rfl, rfl⟩ | hj
      · exact iff_of_false (by simp [Pc.Critical, Pc.block]) fun hm => Nat.lt_irrefl _ (h.lt _ hm)
      · exact h.owner j th hj
    · intro j hj
      have := h.lt j hj
      simp only [State.call, List.length_append, List.length_singleton]
      omega
  · have hi := h.owner i _ hth
    have hlt := (List.getElem?_eq_some_iff.1 hth).1
    constructor
    · intro j th hj
      rcases getElem?_set_cases hj with ⟨rfl, rfl⟩ | ⟨hne, hj⟩
      · rcases fires_mutex hf with ⟨hm, hc⟩ | ⟨-, hm, hc⟩ | ⟨-, hm, hc⟩
        · rw [hm, ← hi]
          exact hc
        · exact iff_of_true hc hm
        · exact iff_of_false hc (by simp [hm])
      · have hj := h.owner j th hj
        rcases fires_mutex hf with ⟨hm, -⟩ | ⟨hm, hm', -⟩ | ⟨hc, hm, -⟩
        · rw [hm]
          exact hj
        · rw [hj, hm, hm']
          simpa using hne
        · rw [hj, hi.1 hc, hm]
          simpa using hne
    · intro j hj
      rw [List.length_set]
      rcases fires_mutex hf with ⟨hm, -⟩ | ⟨-, hm, -⟩ | ⟨-, hm, -⟩
      · exact h.lt j (hm ▸ hj)
      · obtain rfl : i = j := by simpa [hm] using hj
        exact hlt
      · simp [hm] at hj

/-- A step leaves all pointers, or it copies one, drops one or replaces one. -/
theorem fires_pointers {sh : Shared N σ} (h : Fires B hasher sh i r pc sh' pc') :
    (sh'.controls = sh.controls ∧ (∀ b, sh'.loadPointer b = sh.loadPointer b) ∧
        (∀ c, holders Bucket.keyValueData sh'.bucketStorage c = holders Bucket.keyValueData sh.bucketStorage c) ∧
        pc'.control = pc.control) ∨
      (∃ b c, sh.loadPointer b = some c ∧ sh' = sh.acquire c ∧ pc.control = none ∧ pc'.control = some c) ∨
      (∃ c, sh' = sh.release B c ∧ pc.control = some c ∧ pc'.control = none) ∨
      ∃ p b isNew log, pc = .setPointer p b isNew ∧ sh' = { sh.exchange B r p b with log := log } ∧
        pc'.control = sh.loadPointer b := by
  have hafter : ∀ {b : Nat} {isNew : Bool}, (Shared.afterSet b isNew).control = none := by
    intro b isNew
    unfold Shared.afterSet
    split <;> rfl
  have hhead : ∀ {key : Bytes} {block : Option Nat}, (sh.loadHead hasher key block).control = none := by
    intro key block
    unfold Shared.loadHead
    split <;> rfl
  cases h with
  | getHead hr => exact Or.inl ⟨rfl, fun _ => rfl, fun _ => rfl, hhead⟩
  | loadHead => exact Or.inl ⟨rfl, fun _ => rfl, fun _ => rfl, hhead⟩
  | load hc => exact Or.inr (Or.inl ⟨_, _, hc, rfl, rfl, rfl⟩)
  | hit hc => exact Or.inr (Or.inl ⟨_, _, hc, rfl, rfl, rfl⟩)
  | dropCompared =>
    refine Or.inr (Or.inr (Or.inl ⟨_, rfl, rfl, ?_⟩))
    split <;> rfl
  | dropRead => exact Or.inr (Or.inr (Or.inl ⟨_, rfl, rfl, rfl⟩))
  | dropOld => exact Or.inr (Or.inr (Or.inl ⟨_, rfl, rfl, hafter⟩))
  | setFresh hb => exact Or.inr (Or.inr (Or.inr ⟨_, _, _, _, rfl, rfl, hafter.trans hb.symm⟩))
  | setOld hb => exact Or.inr (Or.inr (Or.inr ⟨_, _, _, _, rfl, rfl, hb.symm⟩))
  | newBucket => exact Or.inl ⟨rfl, newBucket_loadPointer sh, fun c => holders_concat_of_none rfl, rfl⟩
  | @storeBucket b => exact Or.inl ⟨rfl, link_loadPointer sh r.key b, fun c => holders_modify_of_eq fun _ => rfl, rfl⟩
  | _ => exact Or.inl ⟨rfl, fun _ => rfl, fun _ => rfl, rfl⟩

/-! ### The buckets -/

/-- The buckets that the table, the chains and the calls refer to exist. -/
structure InRange (s : State N σ) : Prop where
  head_lt : ∀ x b, s.shared.hashTable x = some b → b < s.shared.bucketStorage.length
  next_lt : ∀ b b', nextOf s.shared.bucketStorage b = some b' → b' < s.shared.bucketStorage.length
  thread_lt : ∀ (i : Nat) (th : Thread) (b : Nat), s.threads[i]? = some th → th.pc.bucket = some b →
    b < s.shared.bucketStorage.length

/-- A step leaves the chains, or it makes a bucket or links one. -/
theorem fires_chains {sh : Shared N σ} (h : Fires B hasher sh i r pc sh' pc') :
    (sh'.hashTable = sh.hashTable ∧ sh'.bucketStorage.length = sh.bucketStorage.length ∧
        ∀ b, nextOf sh'.bucketStorage b = nextOf sh.bucketStorage b) ∨
      (∃ p, pc = .found (some p) none ∧ pc' = .copyKey p sh.bucketStorage.length true ∧
        sh' = { sh with bucketStorage := sh.bucketStorage ++ [⟨none, none⟩] }) ∨
      ∃ b, pc = .storeBucket b ∧ pc' = .unlock true ∧
        sh' = { sh.link hasher r.key b with log := sh.log ++ [⟨some i, r.key, r.value⟩] } := by
  have hrelease : ∀ c, (sh.release B c).hashTable = sh.hashTable ∧
      (sh.release B c).bucketStorage.length = sh.bucketStorage.length ∧
      ∀ b, nextOf (sh.release B c).bucketStorage b = nextOf sh.bucketStorage b :=
    fun c => ⟨release_hashTable B sh c, by rw [release_bucketStorage], fun b => by rw [release_bucketStorage]⟩
  have hexchange : ∀ p b, (sh.exchange B r p b).hashTable = sh.hashTable ∧
      (sh.exchange B r p b).bucketStorage.length = sh.bucketStorage.length ∧
      ∀ b', nextOf (sh.exchange B r p b).bucketStorage b' = nextOf sh.bucketStorage b' := by
    refine fun p b => ⟨rfl, by simp [Shared.exchange], fun b' => ?_⟩
    rw [Shared.exchange, nextOf, nextOf, List.getElem?_modify]
    cases sh.bucketStorage[b']? with
    | none => rfl
    | some bucket => by_cases hb : b = b' <;> simp [hb]
  cases h with
  | dropCompared => exact Or.inl (hrelease _)
  | dropRead => exact Or.inl (hrelease _)
  | dropOld => exact Or.inl (hrelease _)
  | @setFresh p b isNew hb => exact Or.inl (hexchange p b)
  | @setOld p b c isNew hb => exact Or.inl (hexchange p b)
  | newBucket => exact Or.inr (Or.inl ⟨_, rfl, rfl, rfl⟩)
  | storeBucket => exact Or.inr (Or.inr ⟨_, rfl, rfl, rfl⟩)
  | _ => exact Or.inl ⟨rfl, rfl, fun _ => rfl⟩

private theorem fires_bucket {sh : Shared N σ} (h : Fires B hasher sh i r pc sh' pc') {b : Nat}
    (hb : pc'.bucket = some b) :
    pc.bucket = some b ∨ (∃ x, sh.hashTable x = some b) ∨ (∃ b', nextOf sh.bucketStorage b' = some b) ∨
      b < sh'.bucketStorage.length := by
  have hhead : ∀ {key : Bytes} {block : Option Nat}, (sh.loadHead hasher key block).bucket = some b →
      ∃ x, sh.hashTable x = some b := by
    intro key block hb
    unfold Shared.loadHead at hb
    split at hb
    · cases hb
    · rename_i hx
      obtain rfl := Option.some.inj hb
      exact ⟨_, hx⟩
  have hafter : ∀ {b' : Nat} {isNew : Bool}, (Shared.afterSet b' isNew).bucket = some b → b' = b := by
    intro b' isNew hb
    unfold Shared.afterSet at hb
    split at hb
    · exact Option.some.inj hb
    · cases hb
  cases h with
  | getHead hr => exact Or.inr (Or.inl (hhead hb))
  | loadHead => exact Or.inr (Or.inl (hhead hb))
  | next hn =>
    obtain rfl := Option.some.inj hb
    exact Or.inr (Or.inr (Or.inl ⟨_, hn⟩))
  | newBucket =>
    obtain rfl := Option.some.inj hb
    exact Or.inr (Or.inr (Or.inr (by simp)))
  | dropCompared =>
    split at hb <;> exact Or.inl hb
  | setFresh hn => exact Or.inl (congrArg some (hafter hb))
  | dropOld => exact Or.inl (congrArg some (hafter hb))
  | last hlt hn => cases hb
  | hit hc => cases hb
  | dropRead => cases hb
  | storeBucket => cases hb
  | _ => exact Or.inl hb

theorem InRange.step (h : InRange s) (hs : Step B hasher s s') : InRange s' := by
  rcases hs.cases with ⟨r, -, rfl⟩ | ⟨i, r, pc, sh', pc', hth, hf, rfl⟩
  · refine ⟨h.head_lt, h.next_lt, fun j th b hj hb => ?_⟩
    rcases getElem?_concat_cases hj with ⟨rfl, rfl⟩ | hj
    · cases hb
    · exact h.thread_lt j th b hj hb
  · have hgrow : s.shared.bucketStorage.length ≤ sh'.bucketStorage.length := by
      rcases fires_chains hf with ⟨-, hlen, -⟩ | ⟨p, -, -, rfl⟩ | ⟨b, -, -, rfl⟩
      · omega
      · simp
      · simp [Shared.link]
    have hthreads : ∀ (j : Nat) (th : Thread) (b : Nat), (s.threads.set i ⟨r, pc'⟩)[j]? = some th →
        th.pc.bucket = some b → b < sh'.bucketStorage.length := by
      intro j th b hj hb
      rcases getElem?_set_cases hj with ⟨rfl, rfl⟩ | ⟨-, hj⟩
      · rcases fires_bucket hf hb with hb | ⟨x, hb⟩ | ⟨b', hb⟩ | hb
        · exact Nat.lt_of_lt_of_le (h.thread_lt i _ b hth hb) hgrow
        · exact Nat.lt_of_lt_of_le (h.head_lt x b hb) hgrow
        · exact Nat.lt_of_lt_of_le (h.next_lt b' b hb) hgrow
        · exact hb
      · exact Nat.lt_of_lt_of_le (h.thread_lt j th b hj hb) hgrow
    -- heads and links change when a bucket is linked, and the bucket exists
    rcases fires_chains hf with ⟨htable, hlen, hnext⟩ | ⟨p, -, -, rfl⟩ | ⟨b, rfl, -, rfl⟩
    · refine ⟨fun x b hb => ?_, fun b b' hb => ?_, hthreads⟩
      · exact hlen ▸ h.head_lt x b (htable ▸ hb)
      · exact hlen ▸ h.next_lt b b' (hnext b ▸ hb)
    · refine ⟨fun x b hb => Nat.lt_of_lt_of_le (h.head_lt x b hb) hgrow, fun b b' hb => ?_, hthreads⟩
      refine Nat.lt_of_lt_of_le (h.next_lt b b' ?_) hgrow
      obtain ⟨bucket, hbucket, hn⟩ := Option.bind_eq_some_iff.1 hb
      rcases getElem?_concat_cases hbucket with ⟨rfl, rfl⟩ | hbucket
      · cases hn
      · rw [nextOf, hbucket]
        exact hn
    · have hb := h.thread_lt i _ b hth rfl
      refine ⟨fun x b' hb' => ?_, fun b₁ b₂ hn => ?_, hthreads⟩
      · refine Nat.lt_of_lt_of_le ?_ hgrow
        have hb' : Function.update s.shared.hashTable (hashTableIndex hasher r.key) (some b) x = some b' := hb'
        rw [Function.update_apply] at hb'
        split at hb'
        · obtain rfl := Option.some.inj hb'
          exact hb
        · exact h.head_lt x b' hb'
      · refine Nat.lt_of_lt_of_le ?_ hgrow
        rcases link_nextOf hn with hn | ⟨-, hn⟩
        · exact h.next_lt b₁ b₂ hn
        · exact h.head_lt _ b₂ hn

theorem Counted.step (h : Counted s) (hr : InRange s) (hs : Step B hasher s s') : Counted s' := by
  rcases hs.cases with ⟨r, -, rfl⟩ | ⟨i, r, pc, sh', pc', hth, hf, rfl⟩
  · have ht : ∀ c, holders Thread.control (s.threads ++ [⟨r, .called⟩]) c = holders Thread.control s.threads c :=
      fun c => holders_concat_of_none rfl
    refine ⟨fun c x hx => ?_, h.bucket_lt, fun j th c hj hc => ?_, h.unique⟩
    · rw [State.call, ht]
      exact h.counts c x hx
    · rcases getElem?_concat_cases hj with ⟨rfl, rfl⟩ | hj
      · cases hc
      · exact h.thread_lt j th c hj hc
  · rcases fires_pointers hf with ⟨hc, hp, hh, hpc⟩ | ⟨b, c, hb, rfl, hpc, hpc'⟩ | ⟨c, rfl, hpc, hpc'⟩ |
      ⟨p, b, isNew, log, rfl, rfl, hpc'⟩
    · exact h.quiet hth hc hp hh hpc
    · exact h.acquire hth hb hpc hpc'
    · exact h.release hth hpc hpc'
    · exact h.exchange hth (hr.thread_lt i _ b hth rfl) rfl hpc' log

end KeyValueStore
