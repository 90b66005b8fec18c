import KeyValueStore.Firing
import KeyValueStore.NoStaleSplit

/-!
# Concurrent runs without a stale split

As for one call after another: a step over the code's buffer that splits no stale block is one over the guarded buffer
(`Step.guarded`), and so is a run of such steps (`Run.guarded`).
-/

namespace KeyValueStore

open ConcurrentHashTable

variable {N : Nat} [NeZero N] {σ : Type} {B : Buffer σ} {f : Nat → σ → Option Nat × σ} {dbSize : Nat}
  {hasher : Bytes → Nat}

/-- A file holds the same records whatever allocates in it. -/
theorem FileHolds.withAlloc {s : σ} {bs : List Payload} {rs : List Record} (h : FileHolds B s bs rs) :
    FileHolds (B.withAlloc f) s bs rs :=
  ⟨h.used, h.apart, h.inside, h.block, h.stored⟩

theorem FileHolds.guarded {s : FileBackedBuffer} {bs : List Payload} {rs : List Record}
    (h : FileHolds (plainBuffer dbSize) s bs rs) : FileHolds (guardedBuffer dbSize) s bs rs :=
  h.withAlloc

/-- Where two allocators agree on the request, so do the steps of a call. -/
theorem Shared.step_withAlloc {sh : Shared N σ} {i : Nat} {r : Request} {pc : Pc}
    (hf : pc = .locked → f (r.key.length + 1 + r.value.length + 1) sh.buffer =
      B.alloc (r.key.length + 1 + r.value.length + 1) sh.buffer) :
    sh.step (B.withAlloc f) hasher i r pc = sh.step B hasher i r pc := by
  cases pc with
  | locked => simp only [Shared.step, withAlloc_alloc, hf rfl]
  | found block bucket => cases block <;> cases bucket <;> rfl
  | _ => rfl

theorem State.step_withAlloc {s : State N σ} {i : Nat} (hf : ∀ r : Request, s.threads[i]? = some ⟨r, .locked⟩ →
      f (r.key.length + 1 + r.value.length + 1) s.shared.buffer =
        B.alloc (r.key.length + 1 + r.value.length + 1) s.shared.buffer) :
    s.step (B.withAlloc f) hasher i = s.step B hasher i := by
  unfold State.step
  cases hth : s.threads[i]? with
  | none => rfl
  | some th =>
    have hstep : s.shared.step (B.withAlloc f) hasher i th.request th.pc = s.shared.step B hasher i th.request th.pc :=
      Shared.step_withAlloc fun e => hf th.request (by rw [hth, ← e])
    simp only [Option.bind_eq_bind, Option.bind_some, hstep]

variable {s s' : State N FileBackedBuffer} {states : Nat → State N FileBackedBuffer} {L i : Nat}

/-- A call makes its allocation in this step, and it splits a stale block. -/
def State.StaleSplit (s s' : State N FileBackedBuffer) : Prop :=
  ∃ (i : Nat) (r : Request), s.threads[i]? = some ⟨r, .locked⟩ ∧ s'.threads[i]? ≠ some ⟨r, .locked⟩ ∧
    KeyValueStore.StaleSplit s.shared.buffer (r.key.length + 1 + r.value.length + 1)

/-- No allocation in the first `L` steps splits a stale block. -/
def NoStaleSplitIn (states : Nat → State N FileBackedBuffer) (L : Nat) : Prop :=
  ∀ n < L, ¬ (states n).StaleSplit (states (n + 1))

theorem State.step_guarded (h : s.step (plainBuffer dbSize) hasher i = some s') (hns : ¬ s.StaleSplit s') :
    s.step (guardedBuffer dbSize) hasher i = some s' := by
  rw [← h, guardedBuffer]
  refine State.step_withAlloc fun r hth => ?_
  rw [plainBuffer_alloc]
  refine allocUnlessStale_eq fun hst => hns ⟨i, r, hth, ?_, hst⟩
  -- the call that made its allocation goes on
  obtain ⟨r', pc, sh', pc', hth', hf, rfl⟩ := State.step_fires h
  obtain ⟨-, rfl⟩ := Thread.mk.inj (Option.some.inj (hth.symm.trans hth'))
  have hnext : (s.threads.set i ⟨r', pc'⟩)[i]? = some ⟨r', pc'⟩ :=
    List.getElem?_set_self (List.getElem?_eq_some_iff.1 hth).1
  rw [hnext]
  rintro ⟨⟩
  cases hf

/-- A step over the code's buffer that splits no stale block is one over the guarded buffer. -/
theorem Step.guarded (h : Step (plainBuffer dbSize) hasher s s') (hns : ¬ s.StaleSplit s') :
    Step (guardedBuffer dbSize) hasher s s' := by
  cases h with
  | call r hr => exact .call r hr
  | step i h => exact .step i (State.step_guarded h hns)

theorem Run.guarded (h : Run (plainBuffer dbSize) hasher s states L) (hns : NoStaleSplitIn states L) :
    Run (guardedBuffer dbSize) hasher s states L :=
  ⟨h.start, fun n hn => (h.step n hn).guarded (hns n hn)⟩

omit [NeZero N] in
theorem NoStaleSplitIn.take {n : Nat} (h : NoStaleSplitIn states L) (hn : n ≤ L) : NoStaleSplitIn states n :=
  fun m hm => h m (by omega)

/-- A run splits no stale block if an invariant of the steps over the guarded buffer excludes it, while the calls meet a
condition that the earlier states inherit from the last one. -/
theorem Run.noStaleSplit {P Q : State N FileBackedBuffer → Prop} (h : Run (plainBuffer dbSize) hasher s states L) (hs : P s)
    (hlast : Q (states L)) (hback : ∀ {s s'}, Step (plainBuffer dbSize) hasher s s' → Q s' → Q s)
    (hfresh : ∀ {s s'}, P s → Q s → ¬ s.StaleSplit s')
    (hstep : ∀ {s s'}, P s → Q s → Step (guardedBuffer dbSize) hasher s s' → P s') :
    NoStaleSplitIn states L ∧ ∀ k ≤ L, P (states k) := by
  induction L with
  | zero =>
    refine ⟨fun m hm => absurd hm (Nat.not_lt_zero m), fun k hk => ?_⟩
    rw [Nat.le_zero.1 hk, h.start]
    exact hs
  | succ L ih =>
    have hnext := h.step L (Nat.lt_succ_self L)
    have hq := hback hnext hlast
    obtain ⟨hns, hall⟩ := ih (h.take (Nat.le_succ L)) hq
    have hp := hall L (Nat.le_refl L)
    refine ⟨fun m hm => ?_, fun k hk => ?_⟩
    · rcases Nat.lt_succ_iff_lt_or_eq.1 hm with hm | rfl
      · exact hns m hm
      · exact hfresh hp hq
    · rcases Nat.le_succ_iff.1 hk with hk | rfl
      · exact hall k hk
      · exact hstep hp hq (hnext.guarded (hfresh hp hq))

end KeyValueStore
