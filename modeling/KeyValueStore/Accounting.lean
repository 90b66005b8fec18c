import KeyValueStore.FileBuffer
import KeyValueStore.Opened

/-!
# Reclamation of the records

What the invariants say of the blocks, in every state that is reached from an empty file: the used blocks are those that a
bucket, a call or the allocation of a `put` in progress accounts for (`Accounted`), a block is freed in the step that drops
the last reference to it and in no other (`FreedSafely`), and the bytes of a record stay as long as it is referred to.
-/

namespace KeyValueStore

open ByteMemory ConcurrentHashTable References

variable {N : Nat} {σ : Type} {B : Buffer σ} {Inv : σ → Prop} {hasher : Bytes → Nat} {s s' : State N σ}
  {sh' : Shared N σ} {i : Nat} {r : Request} {pc pc' : Pc} {pend : List Payload}

/-- The bucket refers to the block. -/
def InBucket (s : State N σ) (b p : Nat) : Prop :=
  ∃ c x, s.shared.loadPointer b = some c ∧ s.shared.controls[c]? = some x ∧ x.record.data = p

/-- The call holds a reference to the block. -/
def HeldBy (s : State N σ) (i p : Nat) : Prop :=
  ∃ th c x, s.threads[i]? = some th ∧ th.control = some c ∧ s.shared.controls[c]? = some x ∧ x.record.data = p

/-- The call has allocated the block and not yet published it. -/
def UnpublishedBy (s : State N σ) (i p : Nat) : Prop := ∃ th, s.threads[i]? = some th ∧ th.pc.block = some p

/-- The pointer that the next step of a call drops. -/
def Pc.drops : Pc → Option Nat
  | .findDrop _ _ control _ => some control
  | .dropValue control _ => some control
  | .dropOld control _ _ => some control
  | _ => none

/-- The next step of the call runs the deleter of the control block. -/
def Frees (s : State N σ) (i c : Nat) : Prop :=
  ∃ th x, s.threads[i]? = some th ∧ th.pc.drops = some c ∧ s.shared.controls[c]? = some x ∧ x.useCount = 1

/-- The used blocks are accounted for. -/
structure Accounted (B : Buffer σ) (s : State N σ) : Prop where
  used : ∀ p, (∃ b ∈ B.usedBlocks s.shared.buffer, b.data = p) ↔
    (∃ b, InBucket s b p) ∨ (∃ i, HeldBy s i p) ∨ ∃ i, UnpublishedBy s i p
  nodup : ((B.usedBlocks s.shared.buffer).map Payload.data).Nodup
  bucket : ∀ b b' p, InBucket s b p → InBucket s b' p → b = b'
  unpublished : ∀ i j p q, UnpublishedBy s i p → UnpublishedBy s j q → i = j ∧ p = q
  fresh : ∀ i p, UnpublishedBy s i p → (∀ b, ¬ InBucket s b p) ∧ ∀ j, ¬ HeldBy s j p
  owner : ∀ i p, UnpublishedBy s i p → s.shared.writeMutex = some i

/-! ### References and use counts -/

/-- A control block is in use when a bucket or a call refers to it. -/
theorem Counted.useCount_ne_zero (h : Counted s) {c : Nat} {x : Control} (hx : s.shared.controls[c]? = some x) :
    x.useCount ≠ 0 ↔ (∃ b, s.shared.loadPointer b = some c) ∨
      ∃ (i : Nat) (th : Thread), s.threads[i]? = some th ∧ th.control = some c := by
  constructor
  · intro hne
    rw [h.counts c x hx] at hne
    rcases Nat.eq_zero_or_pos (holders Bucket.keyValueData s.shared.bucketStorage c) with hz | hpos
    · obtain ⟨th, hmem, hth⟩ := holders_pos.1 (show 0 < holders Thread.control s.threads c by omega)
      obtain ⟨i, hi⟩ := List.mem_iff_getElem?.1 hmem
      exact Or.inr ⟨i, th, hi, hth⟩
    · obtain ⟨bucket, hmem, hb⟩ := holders_pos.1 hpos
      obtain ⟨b, hbucket⟩ := List.mem_iff_getElem?.1 hmem
      refine Or.inl ⟨b, ?_⟩
      rw [Shared.loadPointer, hbucket, Option.bind_some, hb]
  · rintro (⟨b, hb⟩ | ⟨i, th, hi, hth⟩)
    · obtain ⟨y, hy, hne⟩ := h.bucket_live hb
      obtain rfl := Option.some.inj (hx.symm.trans hy)
      exact hne
    · obtain ⟨y, hy, hne⟩ := h.thread_live hi hth
      obtain rfl := Option.some.inj (hx.symm.trans hy)
      exact hne

/-- No other control block in use owns the block. -/
theorem live_unique {controls : List Control} (h : ((live controls).map Record.data).Nodup) {c c' : Nat} {x x' : Control}
    (hx : controls[c]? = some x) (hx' : controls[c']? = some x') (hne : x.useCount ≠ 0) (hne' : x'.useCount ≠ 0)
    (hd : x.record.data = x'.record.data) : c = c' := by
  rw [live, List.map_reverse, List.nodup_reverse, List.map_map, List.Nodup, List.pairwise_map, List.pairwise_filter,
    List.pairwise_iff_getElem] at h
  obtain ⟨hc, rfl⟩ := List.getElem?_eq_some_iff.1 hx
  obtain ⟨hc', rfl⟩ := List.getElem?_eq_some_iff.1 hx'
  rcases Nat.lt_trichotomy c c' with hlt | rfl | hlt
  · exact absurd hd (h c c' hc hc' hlt (decide_eq_true hne) (decide_eq_true hne'))
  · rfl
  · exact absurd hd.symm (h c' c hc' hc hlt (decide_eq_true hne') (decide_eq_true hne))

theorem control_of_drops {c : Nat} (h : pc.drops = some c) : pc.control = some c := by
  cases pc <;> simp_all [Pc.drops, Pc.control]

private theorem nodup_data_of_apart {bs : List Payload} (h : bs.Pairwise Payload.Apart) (hpos : ∀ b ∈ bs, 0 < b.size) :
    (bs.map Payload.data).Nodup := by
  rw [List.Nodup, List.pairwise_map]
  apply h.imp_of_mem
  intro b c hb hc hbc
  have h₁ := hpos b hb
  have h₂ := hpos c hc
  simp only [Payload.Apart] at hbc
  omega

/-- In front of the records there is at most the block of a call. -/
private theorem Stored.pend_cases (h : Stored B Inv s pend) :
    pend = [] ∨ ∃ i p size, pend = [⟨p, size⟩] ∧ 2 ≤ size ∧ UnpublishedBy s i p := by
  by_cases hnone : ∀ (j : Nat) (th : Thread), s.threads[j]? = some th → th.pc.block = none
  · exact Or.inl (h.idle hnone)
  · push Not at hnone
    obtain ⟨i, th, hi, hne⟩ := hnone
    obtain ⟨p, hp⟩ := Option.ne_none_iff_exists'.1 hne
    obtain ⟨size, hpend, hsize, -⟩ := h.fills i th p hi hp
    exact Or.inr ⟨i, p, size, hpend, by omega, th, hi, hp⟩

private theorem Stored.unpublished_iff (h : Stored B Inv s pend) {p : Nat} :
    (∃ i, UnpublishedBy s i p) ↔ ∃ b ∈ pend, b.data = p := by
  constructor
  · rintro ⟨i, th, hi, hp⟩
    obtain ⟨size, rfl, -, -⟩ := h.fills i th p hi hp
    exact ⟨_, List.mem_cons_self .., rfl⟩
  · rintro ⟨b, hb, rfl⟩
    rcases h.pend_cases with rfl | ⟨i, p, size, rfl, -, hp⟩
    · cases hb
    · rw [List.mem_singleton.1 hb]
      exact ⟨i, hp⟩

private theorem Stored.pos (h : Stored B Inv s pend) :
    ∀ b ∈ pend ++ (live s.shared.controls).map Record.block, 0 < b.size := by
  intro b hb
  rcases List.mem_append.1 hb with hb | hb
  · rcases h.pend_cases with rfl | ⟨i, p, size, rfl, hsize, -⟩
    · cases hb
    · rw [List.mem_singleton.1 hb]
      show 0 < size
      omega
  · obtain ⟨r, hr, rfl⟩ := List.mem_map.1 hb
    have := (h.file.stored r hr).two_le
    show 0 < r.size
    omega

/-- The blocks that a bucket or a call refers to are those of the records in use. -/
private theorem Counted.referenced_iff (h : Counted s) {p : Nat} :
    (∃ b, InBucket s b p) ∨ (∃ i, HeldBy s i p) ↔ ∃ r ∈ live s.shared.controls, r.data = p := by
  constructor
  · rintro (⟨b, c, x, hb, hx, rfl⟩ | ⟨i, th, c, x, hi, hth, hx, rfl⟩)
    · exact ⟨_, mem_live.2 ⟨c, x, hx, (h.useCount_ne_zero hx).2 (Or.inl ⟨b, hb⟩), rfl⟩, rfl⟩
    · exact ⟨_, mem_live.2 ⟨c, x, hx, (h.useCount_ne_zero hx).2 (Or.inr ⟨i, th, hi, hth⟩), rfl⟩, rfl⟩
  · rintro ⟨r, hr, rfl⟩
    obtain ⟨c, x, hx, hne, rfl⟩ := mem_live.1 hr
    rcases (h.useCount_ne_zero hx).1 hne with ⟨b, hb⟩ | ⟨i, th, hi, hth⟩
    · exact Or.inl ⟨b, c, x, hb, hx, rfl⟩
    · exact Or.inr ⟨i, th, c, x, hi, hth, hx, rfl⟩

/-- The used blocks of a file of records are those of the control blocks in use and the unpublished one. -/
theorem Safe.accounted (h : Safe B Inv s) : Accounted B s := by
  obtain ⟨pend, hs⟩ := h.stored
  have hnodup : ((pend ++ (live s.shared.controls).map Record.block).map Payload.data).Nodup :=
    nodup_data_of_apart hs.file.apart hs.pos
  -- the unpublished block is none of those of the records
  have hfresh : ∀ i p, UnpublishedBy s i p → ¬ ∃ r ∈ live s.shared.controls, r.data = p := by
    rintro i p hp ⟨r, hr, rfl⟩
    obtain ⟨b, hb, hd⟩ := hs.unpublished_iff.1 ⟨i, hp⟩
    rw [List.map_append, List.nodup_append] at hnodup
    exact hnodup.2.2 b.data (List.mem_map_of_mem hb) r.data (List.mem_map_of_mem (List.mem_map_of_mem hr)) hd
  refine ⟨fun p => ?_, ?_, ?_, ?_, fun i p hp => ?_, ?_⟩
  · rw [← or_assoc, h.counted.referenced_iff, hs.unpublished_iff, hs.file.used]
    constructor
    · rintro ⟨b, hb, rfl⟩
      rcases List.mem_append.1 hb with hb | hb
      · exact Or.inr ⟨b, hb, rfl⟩
      · obtain ⟨r, hr, rfl⟩ := List.mem_map.1 hb
        exact Or.inl ⟨r, hr, rfl⟩
    · rintro (⟨r, hr, rfl⟩ | ⟨b, hb, rfl⟩)
      · exact ⟨r.block, List.mem_append_right _ (List.mem_map_of_mem hr), rfl⟩
      · exact ⟨b, List.mem_append_left _ hb, rfl⟩
  · rw [hs.file.used]
    exact hnodup
  · rintro b b' p ⟨c, x, hb, hx, hp⟩ ⟨c', x', hb', hx', hp'⟩
    have hne := (h.counted.useCount_ne_zero hx).2 (Or.inl ⟨b, hb⟩)
    have hne' := (h.counted.useCount_ne_zero hx').2 (Or.inl ⟨b', hb'⟩)
    obtain rfl := live_unique hs.file.nodup_data hx hx' hne hne' (hp.trans hp'.symm)
    exact h.counted.unique b b' c hb hb'
  · rintro i j p q ⟨th, hi, hp⟩ ⟨th', hj, hq⟩
    obtain rfl := h.exclusive.eq_of_critical hi hj (critical_of_block hp) (critical_of_block hq)
    rw [hi] at hj
    obtain rfl := Option.some.inj hj
    rw [hp] at hq
    exact ⟨rfl, Option.some.inj hq⟩
  · have hno := hfresh i p hp
    rw [← h.counted.referenced_iff] at hno
    exact ⟨fun b hb => hno (Or.inl ⟨b, hb⟩), fun j hj => hno (Or.inr ⟨j, hj⟩)⟩
  · rintro i p ⟨th, hi, hp⟩
    exact (h.exclusive.owner i th hi).1 (critical_of_block hp)

private theorem Frees.control {c : Nat} (h : Frees s i c) {x : Control} (hx : s.shared.controls[c]? = some x) :
    ∃ th, s.threads[i]? = some th ∧ th.pc.drops = some c ∧ th.control = some c ∧ x.useCount = 1 := by
  obtain ⟨th, y, hi, hd, hy, hone⟩ := h
  obtain rfl := Option.some.inj (hx.symm.trans hy)
  exact ⟨th, hi, hd, control_of_drops hd, hone⟩

/-- The last reference is that of the call. -/
private theorem Frees.last (hs : Safe B Inv s) {c : Nat} (h : Frees s i c) {x : Control}
    (hx : s.shared.controls[c]? = some x) :
    (∀ b, ¬ InBucket s b x.record.data) ∧ (∀ j, HeldBy s j x.record.data → j = i) ∧
      ∀ j, ¬ UnpublishedBy s j x.record.data := by
  obtain ⟨th, hi, -, hth, hone⟩ := h.control hx
  obtain ⟨pend, hp⟩ := hs.stored
  have hcount := hs.counted.counts c x hx
  have hpos : 0 < holders Thread.control s.threads c := holders_pos.2 ⟨th, List.mem_of_getElem? hi, hth⟩
  have hsame : ∀ {c' : Nat} {y : Control}, s.shared.controls[c']? = some y → y.useCount ≠ 0 →
      y.record.data = x.record.data → c' = c :=
    fun hy hne hd => live_unique hp.file.nodup_data hy hx hne (by omega) hd
  refine ⟨?_, ?_, fun j hj => (hs.accounted.fresh j _ hj).2 i ⟨th, c, x, hi, hth, hx, rfl⟩⟩
  · rintro b ⟨c', y, hb, hy, hd⟩
    obtain rfl := hsame hy ((hs.counted.useCount_ne_zero hy).2 (Or.inl ⟨b, hb⟩)) hd
    have := holders_bucket_pos hb
    omega
  · rintro j ⟨th', c', y, hj, hth', hy, hd⟩
    obtain rfl := hsame hy ((hs.counted.useCount_ne_zero hy).2 (Or.inr ⟨j, th', hj, hth'⟩)) hd
    exact holders_unique (by omega) hj hi hth' hth

/-! ### The control blocks of a run -/

variable [NeZero N]

/-- A control block keeps its record, and once nobody refers to it, nobody will. -/
private theorem Counted.controls_step (h : Counted s) (hs : Step B hasher s s') {c : Nat} {x : Control}
    (hx : s.shared.controls[c]? = some x) :
    ∃ x', s'.shared.controls[c]? = some x' ∧ x'.record = x.record ∧ (x.useCount = 0 → x'.useCount = 0) := by
  rcases hs.cases with ⟨r, -, rfl⟩ | ⟨i, r, pc, sh', pc', hth, hf, rfl⟩
  · exact ⟨x, hx, rfl, id⟩
  · rcases fires_pointers hf with ⟨hc, -⟩ | ⟨b, d, hb, rfl, -⟩ | ⟨d, rfl, hpc, -⟩ | ⟨p, b, isNew, log, -, rfl, -⟩
    · exact ⟨x, by rw [hc]; exact hx, rfl, id⟩
    · -- a pointer is copied only from a bucket, which holds it
      obtain ⟨y, hy, hne⟩ := h.bucket_live hb
      have hget : (s.shared.acquire d).controls[c]? =
          some (if d = c then { x with useCount := x.useCount + 1 } else x) := by
        rw [Shared.acquire, List.getElem?_modify, hx]
        split <;> rfl
      refine ⟨_, hget, ?_, fun hzero => ?_⟩
      · split <;> rfl
      · split
        · rename_i hdc
          subst hdc
          obtain rfl := Option.some.inj (hx.symm.trans hy)
          exact absurd hzero hne
        · exact hzero
    · obtain ⟨y, hy, -⟩ := h.thread_live hth hpc
      have hset := release_controls B hy
      by_cases hdc : d = c
      · subst hdc
        obtain rfl := Option.some.inj (hx.symm.trans hy)
        refine ⟨{ x with useCount := x.useCount - 1 }, ?_, rfl, fun hzero => ?_⟩
        · show (s.shared.release B d).controls[d]? = _
          rw [hset]
          exact List.getElem?_set_self (List.getElem?_eq_some_iff.1 hx).1
        · show x.useCount - 1 = 0
          omega
      · refine ⟨x, ?_, rfl, id⟩
        show (s.shared.release B d).controls[c]? = _
        rw [hset, List.getElem?_set_ne hdc]
        exact hx
    · refine ⟨x, ?_, rfl, id⟩
      show (s.shared.controls ++ [_])[c]? = _
      rw [List.getElem?_append_left (List.getElem?_eq_some_iff.1 hx).1]
      exact hx

theorem Safe.controls_reaches (hB : B.Lawful Inv) (h : Safe B Inv s) (hs : Reaches B hasher s s') {c : Nat} {x : Control}
    (hx : s.shared.controls[c]? = some x) :
    ∃ x', s'.shared.controls[c]? = some x' ∧ x'.record = x.record ∧ (x.useCount = 0 → x'.useCount = 0) := by
  induction hs with
  | refl => exact ⟨x, hx, rfl, id⟩
  | tail hs hstep ih =>
    obtain ⟨y, hy, hr, hz⟩ := ih
    obtain ⟨x', hx', hr', hz'⟩ := (h.reaches hB hs).counted.controls_step hstep hy
    exact ⟨x', hx', hr'.trans hr, fun hzero => hz' (hz hzero)⟩

/-! ### Frees -/

/-- The only steps that free a block drop a last reference, after which nobody refers to the block, and no deleter runs
twice. -/
structure FreedSafely (B : Buffer σ) (hasher : Bytes → Nat) (s : State N σ) : Prop where
  freed : ∀ i c x s', Frees s i c → s.shared.controls[c]? = some x → s.step B hasher i = some s' →
    s'.shared.buffer = B.free x.record.data s.shared.buffer ∧ x.record.block ∈ B.usedBlocks s.shared.buffer ∧
      B.usedBlocks s'.shared.buffer = (B.usedBlocks s.shared.buffer).erase x.record.block
  last : ∀ i c x, Frees s i c → s.shared.controls[c]? = some x →
    (∀ b, ¬ InBucket s b x.record.data) ∧ (∀ j, HeldBy s j x.record.data → j = i) ∧
      ∀ j, ¬ UnpublishedBy s j x.record.data
  gone : ∀ i c x s', Frees s i c → s.shared.controls[c]? = some x → s.step B hasher i = some s' →
    (∀ b, ¬ InBucket s' b x.record.data) ∧ (∀ j, ¬ HeldBy s' j x.record.data) ∧
      ∀ j, ¬ UnpublishedBy s' j x.record.data
  once : ∀ i c s', Frees s i c → s.step B hasher i = some s' → ∀ s₁, Reaches B hasher s' s₁ → ∀ j, ¬ Frees s₁ j c
  kept : ∀ i s', s.step B hasher i = some s' → (∀ c, ¬ Frees s i c) →
    ∀ b ∈ B.usedBlocks s.shared.buffer, b ∈ B.usedBlocks s'.shared.buffer

private theorem fires_drops {sh : Shared N σ} {c : Nat} (h : Fires B hasher sh i r pc sh' pc')
    (hd : pc.drops = some c) : sh' = sh.release B c := by
  cases h <;> simp_all [Pc.drops]

private theorem Frees.step_eq {c : Nat} (h : Frees s i c) {x : Control} (hx : s.shared.controls[c]? = some x)
    (hs : s.step B hasher i = some s') :
    s'.shared.buffer = B.free x.record.data s.shared.buffer ∧
      s'.shared.controls = s.shared.controls.set c { x with useCount := 0 } := by
  obtain ⟨th, hi, hd, -, hone⟩ := h.control hx
  obtain ⟨r, pc, sh', pc', hth, hf, rfl⟩ := State.step_fires hs
  obtain rfl := Option.some.inj (hi.symm.trans hth)
  obtain rfl := fires_drops hf hd
  constructor
  · show (s.shared.release B c).buffer = _
    rw [Shared.release, hx]
    exact if_pos hone
  · show (s.shared.release B c).controls = _
    rw [release_controls B hx, hone]

private theorem Stored.kept (hB : B.Lawful Inv) (h : Stored B Inv s pend) (hth : s.threads[i]? = some ⟨r, pc⟩)
    (hf : Fires B hasher s.shared i r pc sh' pc') (hno : ∀ c, ¬ Frees s i c) :
    ∀ b ∈ B.usedBlocks s.shared.buffer, b ∈ B.usedBlocks sh'.buffer := by
  -- a release that does not drop the last copy leaves the file
  have hrelease : ∀ c, pc.drops = some c → (s.shared.release B c).buffer = s.shared.buffer := by
    intro c hd
    unfold Shared.release
    split
    · rfl
    · rename_i x hx
      exact if_neg fun hone => hno c ⟨_, x, hth, hd, hx, hone⟩
  intro b hb
  cases hf with
  | allocFail ha =>
    rw [(hB.alloc_none h.inv ha).2.1]
    exact hb
  | alloc ha =>
    obtain ⟨-, size, -, -, hu, -⟩ := hB.alloc_some h.inv ha
    rw [hu]
    exact List.mem_cons_of_mem _ hb
  | dropCompared =>
    rw [hrelease _ rfl]
    exact hb
  | dropRead =>
    rw [hrelease _ rfl]
    exact hb
  | dropOld =>
    rw [hrelease _ rfl]
    exact hb
  | @copyKey p bucket isNew =>
    obtain ⟨size, rfl, hsize, -⟩ := h.fills i _ p hth rfl
    obtain ⟨-, hf', -⟩ := h.copyKey hB (h.nulFree i _ hth).1 hsize
    rw [h.file.used] at hb
    change b ∈ B.usedBlocks (ConcurrentHashTable.copyKey B p r.key s.shared.buffer)
    rw [hf'.used]
    exact hb
  | @copyValue p bucket isNew t hcopy =>
    obtain ⟨size, rfl, hsize, hat⟩ := h.fills i _ p hth rfl
    obtain ⟨-, hf'⟩ := h.copyValue hB (h.nulFree i _ hth).2 hsize hat hcopy
    rw [h.file.used] at hb
    change b ∈ B.usedBlocks t
    rw [hf'.used]
    exact hb
  | _ => exact hb

theorem Safe.freedSafely (hB : B.Lawful Inv) (h : Safe B Inv s) : FreedSafely B hasher s := by
  obtain ⟨pend, hp⟩ := h.stored
  have hblock : ∀ {i c : Nat} {x : Control}, Frees s i c → s.shared.controls[c]? = some x →
      x.record.block ∈ B.usedBlocks s.shared.buffer := by
    intro i c x hf hx
    obtain ⟨th, -, -, -, hone⟩ := hf.control hx
    rw [hp.file.used]
    exact hp.file.block _ (mem_live.2 ⟨c, x, hx, by omega, rfl⟩)
  have hfree : ∀ {i c : Nat} {x : Control} {s' : State N σ}, Frees s i c → s.shared.controls[c]? = some x →
      s.step B hasher i = some s' →
      B.usedBlocks s'.shared.buffer = (B.usedBlocks s.shared.buffer).erase x.record.block := by
    intro i c x s' hf hx hs
    rw [(hf.step_eq hx hs).1]
    exact (hB.free_used (b := x.record.block) hp.inv (hblock hf hx)).2.1
  refine ⟨fun i c x s' hf hx hs => ?_, fun i c x hf hx => hf.last h hx, fun i c x s' hf hx hs => ?_,
    fun i c s' hf hs s₁ hr j hf₁ => ?_, fun i s' hs hno => ?_⟩
  · exact ⟨(hf.step_eq hx hs).1, hblock hf hx, hfree hf hx hs⟩
  · -- the block is not used any more, and all blocks that are referred to are
    have hacc := (h.step hB (.step i hs)).accounted.used x.record.data
    have hnodup := h.accounted.nodup
    have hnot : ¬ ∃ b ∈ B.usedBlocks s'.shared.buffer, b.data = x.record.data := by
      rintro ⟨b, hb, hd⟩
      rw [hfree hf hx hs] at hb
      obtain ⟨hne, hmem⟩ := (List.Nodup.of_map _ hnodup).mem_erase_iff.1 hb
      exact hne (List.inj_on_of_nodup_map hnodup hmem (hblock hf hx) hd)
    rw [hacc] at hnot
    exact ⟨fun b hb => hnot (Or.inl ⟨b, hb⟩), fun j hj => hnot (Or.inr (Or.inl ⟨j, hj⟩)),
      fun j hj => hnot (Or.inr (Or.inr ⟨j, hj⟩))⟩
  · have ⟨_, x, _, _, hx, _⟩ := hf
    -- a use count of zero stays zero, so no other call finds the last copy
    have hx' : s'.shared.controls[c]? = some { x with useCount := 0 } := by
      rw [(hf.step_eq hx hs).2]
      exact List.getElem?_set_self (List.getElem?_eq_some_iff.1 hx).1
    obtain ⟨y, hy, -, hz⟩ := (h.step hB (.step i hs)).controls_reaches hB hr hx'
    obtain ⟨-, -, -, -, hone⟩ := hf₁.control hy
    have := hz rfl
    omega
  · obtain ⟨r, pc, sh', pc', hth, hf, rfl⟩ := State.step_fires hs
    exact hp.kept hB hth hf hno

/-! ### Bytes -/

private theorem Record.StoredIn.bytes_eq {m m' : Mem} {r : Record} (h : r.StoredIn m) (h' : r.StoredIn m') {a : Nat}
    (ha : r.data ≤ a) (ha' : a < r.data + r.key.length + 1 + r.value.length + 1) : m' a = m a := by
  have hstring : ∀ {p : Nat} {t : Bytes}, StringAt m p t → StringAt m' p t → p ≤ a → a ≤ p + t.length → m' a = m a := by
    intro p t ht ht' h₁ h₂
    obtain ⟨k, rfl⟩ : ∃ k, a = p + k := ⟨a - p, by omega⟩
    rcases Nat.lt_or_ge k t.length with hk | hk
    · rw [ht.bytes k hk, ht'.bytes k hk]
    · obtain rfl : k = t.length := by omega
      rw [ht.zero, ht'.zero]
  rcases Nat.lt_or_ge a (r.data + r.key.length + 1) with hlt | hge
  · exact hstring h.key h'.key ha (by omega)
  · exact hstring h.value h'.value hge (by omega)

/-- While a bucket or a call refers to a record, it is the same record with the same bytes. -/
def RecordsKept (B : Buffer σ) (hasher : Bytes → Nat) (s : State N σ) : Prop :=
  ∀ s', Reaches B hasher s s' → ∀ c x, s.shared.controls[c]? = some x →
    ((∃ b, s'.shared.loadPointer b = some c) ∨
      ∃ (i : Nat) (th : Thread), s'.threads[i]? = some th ∧ th.control = some c) →
    (∃ x', s'.shared.controls[c]? = some x' ∧ x'.record = x.record) ∧
      ∀ a, x.record.data ≤ a → a < x.record.data + x.record.key.length + 1 + x.record.value.length + 1 →
        B.base s'.shared.buffer a = B.base s.shared.buffer a

theorem Safe.recordsKept (hB : B.Lawful Inv) (h : Safe B Inv s) : RecordsKept B hasher s := by
  intro s' hs c x hx href
  obtain ⟨x', hx', hrec, hzero⟩ := h.controls_reaches hB hs hx
  have h' := h.reaches hB hs
  have hne' : x'.useCount ≠ 0 := (h'.counted.useCount_ne_zero hx').2 href
  have hne : x.useCount ≠ 0 := fun hz => hne' (hzero hz)
  obtain ⟨pend, hp⟩ := h.stored
  obtain ⟨pend', hp'⟩ := h'.stored
  have hst := hp.file.stored _ (mem_live.2 ⟨c, x, hx, hne, rfl⟩)
  have hst' := hp'.file.stored _ (mem_live.2 ⟨c, x', hx', hne', rfl⟩)
  rw [hrec] at hst'
  exact ⟨⟨x', hx', hrec⟩, fun a ha ha' => hst.bytes_eq hst' ha ha'⟩

/-- In every state that is reached from an empty file the used blocks are accounted for, a block is freed when the last
reference to it is dropped and never otherwise, and a record keeps its bytes while it is referred to. -/
theorem records_reclaimed (hB : B.Lawful Inv) {file : σ} (hi : Inv file) (hempty : B.usedBlocks file = [])
    (hasher : Bytes → Nat) :
    ∃ s₀, State.opened (N := N) B hasher file = some s₀ ∧ ∀ s, Reaches B hasher s₀ s →
      Accounted B s ∧ FreedSafely B hasher s ∧ RecordsKept B hasher s := by
  have hf : FileHolds B file (([] : List Record).map Record.block) [] := fileHolds_empty hempty
  obtain ⟨s₀, hs₀, hopen⟩ := opened_of_holds (N := N) hf hasher
  refine ⟨s₀, hs₀, fun s hs => ?_⟩
  have hsafe : Safe B Inv s := (hopen.safe hi hf).reaches hB hs
  exact ⟨hsafe.accounted, hsafe.freedSafely hB, hsafe.recordsKept hB⟩

theorem records_reclaimed_of_one_bucket :
    ∃ s₀, State.opened (N := 1) (guardedBuffer 220) List.length (emptyFile 220 (by decide)) = some s₀ ∧
      ∀ s, Reaches (guardedBuffer 220) List.length s₀ s →
        Accounted (guardedBuffer 220) s ∧ FreedSafely (guardedBuffer 220) List.length s ∧
          RecordsKept (guardedBuffer 220) List.length s := by
  obtain ⟨hi, hs⟩ := emptyFile_sound 220 (by decide) (by decide)
  exact records_reclaimed (guardedBuffer_lawful 220) hi hs List.length

end KeyValueStore
