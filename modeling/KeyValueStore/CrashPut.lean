import KeyValueStore.Reload
import KeyValueStore.Sequential

/-!
# A process killed in a `put`

`alloc` puts the new block on the used list before its record is written, and the next process reads whatever the block
held before.  A kill after the allocation or after the copy of the key is harmless only if those bytes are
(`put_atomic_iff`); a kill after any other step always is.
-/

namespace KeyValueStore

open ByteMemory ConcurrentHashTable

/-- The steps of `put`, in their order. -/
inductive PutStep where
  | alloc
  | copyKey
  | copyValue
  | publish
  | free
  deriving DecidableEq, Repr

section

variable {N : Nat} [NeZero N] {σ : Type}

/-- The file when the process is killed after a step of `put`; the publication changes no byte of it. -/
def killedPut (B : Buffer σ) (hasher : Bytes → Nat) (t : ConcurrentHashTable N σ) (key value : Bytes)
    (step : PutStep) : Option σ :=
  match B.alloc (key.length + 1 + value.length + 1) t.buffer with
  | (none, s) => some s
  | (some dataBuffer, s) =>
    match step with
    | .alloc => some s
    | .copyKey => some (copyKey B dataBuffer key s)
    | .copyValue => copyValue B dataBuffer value (copyKey B dataBuffer key s)
    | .publish => copyValue B dataBuffer value (copyKey B dataBuffer key s)
    | .free => (put B hasher t key value).map fun r => r.2.buffer

/-- The next process finds the old value or the new one for the key, and the old values for all others. -/
def PutAtomic (B : Buffer σ) (hasher : Bytes → Nat) (t : ConcurrentHashTable N σ) (key value : Bytes)
    (hasher' : Bytes → Nat) (s : σ) : Prop :=
  ∀ k, getAfterReopen N B hasher' s k = ConcurrentHashTable.get B hasher t k ∨
    k = key ∧ getAfterReopen N B hasher' s k = some value

end

/-- The strings that the next process reads in the block are harmless: the key has a record already, or the value is the
empty one or the one to be stored. -/
def StaleHarmless {σ : Type} (B : Buffer σ) (keys : List Bytes) (key value : Bytes) (s : σ) (k : Bytes) (p : Nat) :
    Prop :=
  k ∈ keys ∨ ∃ v, string B s p = some v ∧ (v = [] ∨ k = key ∧ v = value)

/-- The condition on the file `s'` in which `alloc` has handed out the block at `p`, where `keys` are those of the used
blocks before. -/
def PutStep.SafeIn {σ : Type} (B : Buffer σ) (keys : List Bytes) (key value : Bytes) (p : Nat) (s' : σ) :
    PutStep → Prop
  | .alloc => ∃ k, string B s' p = some k ∧ StaleHarmless B keys key value s' k (p + k.length + 1)
  | .copyKey => StaleHarmless B keys key value s' key (p + key.length + 1)
  | _ => True

/-- If `alloc` hands out a block, what it holds is harmless at this step. -/
def PutStep.Safe {σ : Type} (B : Buffer σ) (s : σ) (key value : Bytes) (step : PutStep) : Prop :=
  ∀ p s', B.alloc (key.length + 1 + value.length + 1) s = (some p, s') →
    step.SafeIn B (usedKeys B s) key value p s'

variable {N : Nat} [NeZero N] {σ : Type} {B : Buffer σ} {Inv : σ → Prop} {p : Process N σ} {es : List Event}
  {xs : List (Record × Fin N)} {rs : List Record} {s s' : σ}

/-- Each key of a tracked history has one record, with its value. -/
private theorem Tracks.lastValue_eq (h : Tracks B p es xs rs) (key : Bytes) : lastValue rs key = latest es key := by
  by_cases hkey : key ∈ rs.map Record.key
  · obtain ⟨r, hr, hk⟩ := List.mem_map.1 hkey
    have hne : rs.filter (fun r => r.key = key) ≠ [] :=
      List.ne_nil_of_mem (List.mem_filter.2 ⟨hr, by simpa using hk⟩)
    obtain ⟨hmem, hk'⟩ := List.mem_filter.1 (List.getLast_mem hne)
    obtain ⟨x, hx, hxr⟩ := List.mem_map.1 (h.holds.perm.mem_iff.2 hmem)
    rw [lastValue, List.getLast?_eq_some_getLast hne, Option.elim_some, ← hxr, h.value x hx, hxr, of_decide_eq_true hk']
  · rw [lastValue_of_not_mem hkey]
    refine (latest_eq_nil fun value hv => hkey ?_).symm
    have hk := (h.mem key).2 ⟨value, hv⟩
    rw [← h.keys, List.mem_map] at hk
    obtain ⟨x, hx, rfl⟩ := hk
    exact List.mem_map_of_mem (h.holds.mem hx)

private theorem atomic_of_old (h : Tracks B p es xs rs) (hf : FileHolds B s (rs.map Record.block) rs)
    (key value : Bytes) (hasher' : Bytes → Nat) : PutAtomic B p.hasher p.table key value hasher' s := by
  intro k
  left
  rw [getAfterReopen_eq hf, h.lastValue_eq, h.holds.get, h.current_eq]

private theorem atomic_of_new (h : Tracks B p es xs rs) {r : Record}
    (hf : FileHolds B s ((r :: rs).map Record.block) (r :: rs)) (hasher' : Bytes → Nat) :
    PutAtomic B p.hasher p.table r.key r.value hasher' s := by
  intro k
  rw [getAfterReopen_eq hf, lastValue_cons, h.holds.get, h.current_eq, ← h.lastValue_eq]
  by_cases hk : k ∈ rs.map Record.key
  · rw [if_pos hk]
    exact Or.inl rfl
  · rw [if_neg hk, lastValue_of_not_mem hk]
    by_cases hr : r.key = k
    · rw [if_pos hr]
      exact Or.inr ⟨hr.symm, rfl⟩
    · rw [if_neg hr]
      exact Or.inl rfl

/-- The file holds in front of the old records a block in which a key is read. -/
private theorem atomic_front_iff (h : Tracks B p es xs rs) {b : Payload} (hf : FileHolds B s (b :: rs.map Record.block) rs)
    {k : Bytes} (hb : string B s b.data = some k) (key value : Bytes) (hasher' : Bytes → Nat) :
    PutAtomic B p.hasher p.table key value hasher' s ↔
      StaleHarmless B (rs.map Record.key) key value s k (b.data + k.length + 1) := by
  have hget : ∀ k', ConcurrentHashTable.get B p.hasher p.table k' = some (lastValue rs k') := by
    intro k'
    rw [h.holds.get, h.current_eq, h.lastValue_eq]
  simp only [PutAtomic, hget, getAfterReopen_front hf hb]
  constructor
  · intro hat
    by_cases hk : k ∈ rs.map Record.key
    · exact Or.inl hk
    · right
      rcases hat k with hold | ⟨rfl, hnew⟩
      · rw [if_neg hk, if_pos rfl, lastValue_of_not_mem hk] at hold
        exact ⟨[], hold, Or.inl rfl⟩
      · rw [if_neg hk, if_pos rfl] at hnew
        exact ⟨value, hnew, Or.inr ⟨rfl, rfl⟩⟩
  · intro hst k'
    by_cases hk' : k' ∈ rs.map Record.key
    · rw [if_pos hk']
      exact Or.inl rfl
    · rw [if_neg hk', lastValue_of_not_mem hk']
      by_cases hkk : k = k'
      · subst hkk
        rcases hst with hk | ⟨v, hv, rfl | ⟨rfl, rfl⟩⟩
        · exact absurd hk hk'
        · rw [if_pos rfl]
          exact Or.inl hv
        · rw [if_pos rfl]
          exact Or.inr ⟨rfl, hv⟩
      · rw [if_neg hkk]
        exact Or.inl rfl

private theorem string_behind_key {b : Payload} {key : Bytes}
    (hm : B.base s' = setBytes (B.base s) b.data (strncpyBytes key (key.length + 1))) {q : Nat}
    (hq : b.data + key.length + 1 ≤ q) : string B s' q = string B s q := by
  apply cString_congr
  intro x hx
  rw [hm]
  apply setBytes_outside
  rw [length_strncpyBytes]
  omega

private theorem put_atomic_of_alloc (hB : B.Lawful Inv) (hi : Inv p.table.buffer) (h : Tracks B p es xs rs)
    {key value : Bytes} (hkey : 0 ∉ key) (hvalue : 0 ∉ value) {a : Nat} {s₁ : σ}
    (ha : B.alloc (key.length + 1 + value.length + 1) p.table.buffer = (some a, s₁)) (step : PutStep) :
    ∃ s', killedPut B p.hasher p.table key value step = some s' ∧ ∀ hasher',
      PutAtomic B p.hasher p.table key value hasher' s' ↔ step.SafeIn B (rs.map Record.key) key value a s₁ := by
  obtain ⟨hi₁, size, hn, hf₁, hap⟩ := h.holds.file.alloc_some hB hi ha
  have hne := h.holds.file.block_ne (by omega) hn hap
  obtain ⟨-, hf₂, hm, hat⟩ := hf₁.copyKey hB hi₁ (List.mem_cons_self ..) hne (show key.length + 1 ≤ size by omega)
  obtain ⟨s₃, hcopy, -, hf₃⟩ := hf₁.copy hB hi₁ hne hn
  rw [cut_eq_self hkey] at hat hf₃
  rw [cut_eq_self hvalue] at hf₃
  -- from the copy of the value on the record is complete
  have hnew : ∀ hasher', PutAtomic B p.hasher p.table key value hasher' s₃ := fun hasher' =>
    atomic_of_new (r := ⟨a, size, key, value⟩) h hf₃ hasher'
  cases step with
  | alloc =>
    refine ⟨s₁, by rw [killedPut, ha], fun hasher' => ?_⟩
    cases hb : string B s₁ a with
    | none =>
      -- the next process does not get through its constructor
      refine iff_of_false (fun hat => ?_) ?_
      · have hget : ∀ k, getAfterReopen N B hasher' s₁ k = none := getAfterReopen_none hf₁.used hb hasher'
        rcases hat key with hold | ⟨-, hnew⟩
        · rw [hget, h.holds.get] at hold
          cases hold
        · rw [hget] at hnew
          cases hnew
      · rintro ⟨k, hk, -⟩
        rw [hb] at hk
        cases hk
    | some k =>
      rw [atomic_front_iff h hf₁ hb]
      constructor
      · exact fun hst => ⟨k, hb, hst⟩
      · rintro ⟨k', hk', hst⟩
        obtain rfl : k = k' := Option.some.inj (hb.symm.trans hk')
        exact hst
  | copyKey =>
    refine ⟨copyKey B a key s₁, by rw [killedPut, ha], fun hasher' => ?_⟩
    have hb : string B (copyKey B a key s₁) a = some key := cString_eq_some.2 ⟨hat, by
      have := hf₁.inside _ (List.mem_cons_self ..)
      simp only at this
      omega⟩
    rw [atomic_front_iff h hf₂ hb]
    simp only [StaleHarmless, PutStep.SafeIn, string_behind_key (b := ⟨a, size⟩) hm (Nat.le_refl _)]
  | copyValue => exact ⟨s₃, by rw [killedPut, ha]; exact hcopy, fun hasher' => iff_of_true (hnew hasher') trivial⟩
  | publish => exact ⟨s₃, by rw [killedPut, ha]; exact hcopy, fun hasher' => iff_of_true (hnew hasher') trivial⟩
  | free =>
    obtain ⟨e, q, xs', rs', hstep, -, h', -⟩ :=
      h.step hB hi (show StoreOp.NulFree (.put key value) from ⟨hkey, hvalue⟩)
    obtain ⟨⟨ok, t⟩, hput, heq⟩ := Option.map_eq_some_iff.1 hstep
    obtain ⟨rfl, rfl⟩ := Prod.mk.inj heq
    refine ⟨t.buffer, by rw [killedPut, ha]; simp [hput], fun hasher' => iff_of_true (fun k => ?_) trivial⟩
    have hget := getAfterReopen_eq (N := N) h'.holds.file hasher' k
    rw [h'.lastValue_eq, latest_concat] at hget
    rw [hget, h.holds.get, h.current_eq]
    cases ok with
    | false => exact Or.inl rfl
    | true =>
      by_cases hk : key = k
      · exact Or.inr ⟨hk.symm, by simp [hk]⟩
      · exact Or.inl (by simp [hk])

private theorem Tracks.killedPut (hB : B.Lawful Inv) (hi : Inv p.table.buffer) (h : Tracks B p es xs rs)
    {key value : Bytes} (hkey : 0 ∉ key) (hvalue : 0 ∉ value) (step : PutStep) :
    ∃ s', killedPut B p.hasher p.table key value step = some s' ∧
      ∀ hasher', PutAtomic B p.hasher p.table key value hasher' s' ↔ step.Safe B p.table.buffer key value := by
  rcases ha : B.alloc (key.length + 1 + value.length + 1) p.table.buffer with ⟨_ | a, s₁⟩
  · obtain ⟨-, hf⟩ := h.holds.file.alloc_none hB hi ha
    refine ⟨s₁, by rw [KeyValueStore.killedPut, ha], fun hasher' =>
      iff_of_true (atomic_of_old h hf key value hasher') ?_⟩
    intro a s' ha'
    rw [ha] at ha'
    cases congrArg Prod.fst ha'
  · obtain ⟨s', hkill, hiff⟩ := put_atomic_of_alloc hB hi h hkey hvalue ha step
    refine ⟨s', hkill, fun hasher' => (hiff hasher').trans ?_⟩
    rw [← h.holds.file.usedKeys_eq]
    constructor
    · intro hst a' s'' ha'
      obtain ⟨rfl, rfl⟩ : a = a' ∧ s₁ = s'' := by simpa using ha.symm.trans ha'
      exact hst
    · exact fun hst => hst a s₁ ha

section

variable {f : Nat → σ → Option Nat × σ} {key value : Bytes} {t : ConcurrentHashTable N σ} {hasher hasher' : Bytes → Nat}
  {step : PutStep}

private theorem killedPut_withAlloc (hf : f (key.length + 1 + value.length + 1) t.buffer =
    B.alloc (key.length + 1 + value.length + 1) t.buffer) :
    killedPut (B.withAlloc f) hasher t key value step = killedPut B hasher t key value step := by
  cases step <;> simp only [killedPut, withAlloc_alloc, hf, put_withAlloc hf] <;> rfl

private theorem putAtomic_withAlloc :
    PutAtomic (B.withAlloc f) hasher t key value hasher' s ↔ PutAtomic B hasher t key value hasher' s := by
  simp only [PutAtomic, getAfterReopen_withAlloc, get_withAlloc]

private theorem safe_withAlloc (hf : f (key.length + 1 + value.length + 1) s =
    B.alloc (key.length + 1 + value.length + 1) s) :
    step.Safe (B.withAlloc f) s key value ↔ step.Safe B s key value := by
  simp only [PutStep.Safe, withAlloc_alloc, hf]
  cases step <;> rfl

end

/-- In a run without a stale split, that of the `put` included, a kill after a step of a `put` is harmless if and only if the
bytes of the new block are, where they are read: after the allocation, and behind the key after its copy. -/
theorem put_atomic_iff {dbSize : Nat} {s : FileBackedBuffer} (hi : s.Sound dbSize)
    (hs : (plainBuffer dbSize).usedBlocks s = []) (hasher : Bytes → Nat) (ops : List StoreOp)
    (hops : ∀ op ∈ ops, op.NulFree) {key value : Bytes} (hkey : 0 ∉ key) (hvalue : 0 ∉ value)
    (hns : NoStaleSplitFrom N dbSize hasher s (ops ++ [.put key value])) :
    ∃ es p, runFrom (N := N) (plainBuffer dbSize) hasher s ops = some (es, p) ∧
      ∀ step : PutStep, ∃ s', killedPut (plainBuffer dbSize) p.hasher p.table key value step = some s' ∧
        ∀ hasher', PutAtomic (plainBuffer dbSize) p.hasher p.table key value hasher' s' ↔
          step.Safe (plainBuffer dbSize) p.table.buffer key value := by
  obtain ⟨hns, hput⟩ := noStaleSplitFrom_concat.1 hns
  obtain ⟨es, p, xs, rs, hrun, hi', h, -⟩ := runFrom_tracks_of_noStaleSplit hi hs hasher hops hns
  have ha : allocPlain (key.length + 1 + value.length + 1) p.table.buffer =
      (guardedBuffer dbSize).alloc (key.length + 1 + value.length + 1) p.table.buffer := by
    rw [guardedBuffer_alloc, allocUnlessStale_eq (hput _ hrun)]
  refine ⟨es, p, hrun, fun step => ?_⟩
  obtain ⟨s', hkill, hiff⟩ := h.killedPut (guardedBuffer_lawful dbSize) hi' hkey hvalue step
  rw [plainBuffer_eq, killedPut_withAlloc ha, safe_withAlloc ha]
  exact ⟨s', hkill, fun hasher' => putAtomic_withAlloc.trans (hiff hasher')⟩

theorem put_atomic_of_published :
    ∃ es p, runFrom (N := 266671) (plainBuffer 220) List.length (emptyFile 220 (by decide)) [.put [97] [1]] = some (es, p) ∧
      ∃ s', killedPut (plainBuffer 220) p.hasher p.table [98] [113] .publish = some s' ∧
        ∀ hasher', PutAtomic (plainBuffer 220) p.hasher p.table [98] [113] hasher' s' := by
  obtain ⟨hi, hs⟩ := emptyFile_sound 220 (by decide) (by decide)
  have hops : ∀ op ∈ [StoreOp.put [97] [1]], op.NulFree := by simp [StoreOp.NulFree]
  obtain ⟨es, p, hrun, hkill⟩ := put_atomic_iff (N := 266671) hi hs List.length [.put [97] [1]] hops
    (show 0 ∉ [98] by decide) (show 0 ∉ [113] by decide) (by decide +kernel)
  obtain ⟨s', hkill, hiff⟩ := hkill .publish
  exact ⟨es, p, hrun, s', hkill, fun hasher' => (hiff hasher').2 fun _ _ _ => trivial⟩

/-- The block of a replaced record is handed out again: after the copy of the key `b` its old value is read behind it. -/
theorem put_not_atomic : ∃ (es : List Event) (p : Process 266671 FileBackedBuffer) (s' : FileBackedBuffer),
    runFrom (plainBuffer 220) List.length (emptyFile 220 (by decide)) [.put [97] [120, 121, 122], .put [97] [119]] =
        some (es, p) ∧
      killedPut (plainBuffer 220) p.hasher p.table [98] [113] .copyKey = some s' ∧
      ¬ PutAtomic (plainBuffer 220) p.hasher p.table [98] [113] List.length s' := by
  have hrun : (runFrom (N := 266671) (plainBuffer 220) List.length (emptyFile 220 (by decide))
      [.put [97] [120, 121, 122], .put [97] [119]]).any fun r =>
        ConcurrentHashTable.get (plainBuffer 220) r.2.hasher r.2.table [98] = some [] ∧
        (killedPut (plainBuffer 220) r.2.hasher r.2.table [98] [113] .copyKey).any fun s' =>
          getAfterReopen 266671 (plainBuffer 220) List.length s' [98] = some [120, 121, 122] := by
    decide +kernel
  obtain ⟨⟨es, p⟩, hp, h⟩ := (Option.any_eq_true _ _).1 hrun
  obtain ⟨hbefore, hkill⟩ := of_decide_eq_true h
  obtain ⟨s', hkill, hafter⟩ := (Option.any_eq_true _ _).1 hkill
  refine ⟨es, p, s', hp, hkill, fun hat => ?_⟩
  rcases hat [98] with hold | ⟨-, hnew⟩
  · rw [of_decide_eq_true hafter, hbefore] at hold
    exact absurd hold (by decide)
  · rw [of_decide_eq_true hafter] at hnew
    exact absurd hnew (by decide)

end KeyValueStore
