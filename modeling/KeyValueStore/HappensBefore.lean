import Mathlib.Data.Nat.Init
import Mathlib.Logic.Relation

/-!
# Happens-before

A run is a sequence of steps, and `actor n` is the thread that makes the step `n`, if it belongs to one.  A step happens
before a later one if steps of one thread and pairs of steps that synchronize lead from the one to the other (`Before`).  The
critical sections of a lock are ordered (`Lock.before`).  A run is free of races if all accesses that conflict are ordered
(`RaceFree`).  Nothing here refers to the program.
-/

namespace HappensBefore

variable {ι : Type} {actor : Nat → Option ι} {sync : Nat → Nat → Prop} {i j : ι} {k m n : Nat}

/-- The later step belongs to the same thread, or it synchronizes with the earlier one. -/
def Direct (actor : Nat → Option ι) (sync : Nat → Nat → Prop) (m n : Nat) : Prop :=
  m < n ∧ ((∃ i, actor m = some i ∧ actor n = some i) ∨ sync m n)

def Before (actor : Nat → Option ι) (sync : Nat → Nat → Prop) : Nat → Nat → Prop :=
  Relation.TransGen (Direct actor sync)

/-- One of the first `n` steps, made by the thread, is the step `m` or comes after it. -/
def Knows (actor : Nat → Option ι) (sync : Nat → Nat → Prop) (n : Nat) (i : ι) (m : Nat) : Prop :=
  ∃ k < n, actor k = some i ∧ (k = m ∨ Before actor sync m k)

theorem Before.lt (h : Before actor sync m n) : m < n := by
  induction h with
  | single hd => exact hd.1
  | tail _ hd ih => exact Nat.lt_trans ih hd.1

theorem Before.trans (h : Before actor sync k m) (h' : Before actor sync m n) : Before actor sync k n :=
  Relation.TransGen.trans h h'

theorem before_of_actor (hmn : m < n) (hm : actor m = some i) (hn : actor n = some i) : Before actor sync m n :=
  .single ⟨hmn, Or.inl ⟨i, hm, hn⟩⟩

theorem before_of_sync (hmn : m < n) (h : sync m n) : Before actor sync m n := .single ⟨hmn, Or.inr h⟩

/-! ### What a thread knows of -/

theorem Knows.mono (h : Knows actor sync m i k) (hmn : m ≤ n) : Knows actor sync n i k := by
  obtain ⟨l, hl, ha, hk⟩ := h
  exact ⟨l, by omega, ha, hk⟩

theorem Knows.lt (h : Knows actor sync n i m) : m < n := by
  obtain ⟨k, hk, -, rfl | hb⟩ := h
  · exact hk
  · exact Nat.lt_trans hb.lt hk

theorem knows_own (hmn : m < n) (hm : actor m = some i) : Knows actor sync n i m := ⟨m, hmn, hm, Or.inl rfl⟩

theorem knows_of_before (hkn : k < n) (hk : actor k = some i) (h : Before actor sync m k) : Knows actor sync n i m :=
  ⟨k, hkn, hk, Or.inr h⟩

/-- What a thread knows of happens before its next step. -/
theorem Knows.before (h : Knows actor sync n i m) (hn : actor n = some i) : Before actor sync m n := by
  obtain ⟨k, hk, ha, rfl | hb⟩ := h
  · exact before_of_actor hk ha hn
  · exact hb.trans (before_of_actor hk ha hn)

theorem Knows.trans (h : Knows actor sync n i m) (hb : Before actor sync k m) : Knows actor sync n i k := by
  obtain ⟨l, hl, ha, rfl | hb'⟩ := h
  · exact knows_of_before hl ha hb
  · exact knows_of_before hl ha (hb.trans hb')

/-! ### Locks -/

/-- The thread takes the lock in the step. -/
def Takes (actor owner : Nat → Option ι) (i : ι) (n : Nat) : Prop :=
  actor n = some i ∧ owner n = none ∧ owner (n + 1) = some i

/-- The thread gives the lock back in the step. -/
def Gives (actor owner : Nat → Option ι) (i : ι) (n : Nat) : Prop :=
  actor n = some i ∧ owner n = some i ∧ owner (n + 1) = none

/-- The owner of the lock changes only when a thread takes it or gives it back, and who takes it synchronizes with all who
gave it back. -/
structure Lock (actor : Nat → Option ι) (sync : Nat → Nat → Prop) (owner : Nat → Option ι) (L : Nat) : Prop where
  step : ∀ n < L, owner (n + 1) = owner n ∨ ∃ i, Takes actor owner i n ∨ Gives actor owner i n
  sync : ∀ i j m n, m < n → n < L → Gives actor owner i m → Takes actor owner j n → sync m n

variable {owner : Nat → Option ι} {L : Nat}

/-- What the owner of the lock does is known to all later owners. -/
theorem Lock.handed (h : Lock actor sync owner L) (hm : actor m = some i) (ho : owner m = some i) (hmn : m < n)
    (hn : n ≤ L) :
    (∀ j, owner n = some j → Knows actor sync n j m) ∧
      (owner n = none → ∃ k < n, (∃ j, Gives actor owner j k) ∧ (k = m ∨ Before actor sync m k)) := by
  -- from one state to the next one, where the owner is the thread itself or knows
  have hstep : ∀ n, m ≤ n → n < L → (∀ j, owner n = some j → n = m ∨ Knows actor sync n j m) →
      (owner n = none → ∃ k < n, (∃ j, Gives actor owner j k) ∧ (k = m ∨ Before actor sync m k)) →
      (∀ j, owner (n + 1) = some j → Knows actor sync (n + 1) j m) ∧
        (owner (n + 1) = none → ∃ k < n + 1, (∃ j, Gives actor owner j k) ∧ (k = m ∨ Before actor sync m k)) := by
    intro n hmn hn hsome hnone
    rcases h.step n hn with hsame | ⟨l, htake | hgive⟩
    · rw [hsame]
      refine ⟨fun j hj => ?_, fun hfree => ?_⟩
      · rcases hsome j hj with rfl | hk
        · obtain rfl := Option.some.inj (ho.symm.trans hj)
          exact knows_own (Nat.lt_succ_self n) hm
        · exact hk.mono (Nat.le_succ n)
      · obtain ⟨k, hk, hg⟩ := hnone hfree
        exact ⟨k, by omega, hg⟩
    · obtain ⟨hl, hfree, hown⟩ := htake
      obtain ⟨k, hk, ⟨j, hg⟩, hmk⟩ := hnone hfree
      have hkn : Before actor sync k n := before_of_sync hk (h.sync j l k n hk hn hg ⟨hl, hfree, hown⟩)
      have hmn' : Before actor sync m n := by
        rcases hmk with rfl | hmk
        · exact hkn
        · exact hmk.trans hkn
      rw [hown]
      refine ⟨fun j hj => ?_, fun hnone => (Option.some_ne_none l hnone).elim⟩
      exact knows_of_before (Nat.lt_succ_self n) (hl.trans hj) hmn'
    · obtain ⟨hl, hown, hfree⟩ := hgive
      rw [hfree]
      refine ⟨fun j hj => (Option.some_ne_none j hj.symm).elim, fun _ => ?_⟩
      refine ⟨n, Nat.lt_succ_self n, ⟨l, hl, hown, hfree⟩, ?_⟩
      rcases hsome l hown with rfl | hk
      · exact Or.inl rfl
      · exact Or.inr (hk.before hl)
  induction n, hmn using Nat.le_induction with
  | base =>
    refine hstep m (Nat.le_refl m) hn (fun _ _ => Or.inl rfl) fun hfree => ?_
    rw [ho] at hfree
    cases hfree
  | succ n hmn ih =>
    obtain ⟨hsome, hnone⟩ := ih (by omega)
    exact hstep n (Nat.le_of_lt hmn) hn (fun j hj => Or.inr (hsome j hj)) hnone

/-- Two steps of threads that own the lock are ordered. -/
theorem Lock.before (h : Lock actor sync owner L) (hmn : m < n) (hn : n ≤ L) (hm : actor m = some i) (ho : owner m = some i)
    (hn' : actor n = some j) (ho' : owner n = some j) : Before actor sync m n :=
  ((h.handed hm ho hmn hn).1 j ho').before hn'

/-! ### Races -/

inductive Access where
  | read
  | write
  | atomicRead
  | atomicWrite
  deriving DecidableEq, Repr

def Access.Writes : Access → Prop
  | .write => True
  | .atomicWrite => True
  | _ => False

def Access.Atomic : Access → Prop
  | .atomicRead => True
  | .atomicWrite => True
  | _ => False

/-- One of the two accesses to a place writes it, and they are not both atomic. -/
def Conflict (a b : Access) : Prop := (a.Writes ∨ b.Writes) ∧ ¬ (a.Atomic ∧ b.Atomic)

/-- Of two accesses that conflict, the earlier one happens before the later one. -/
def RaceFree {Place : Type} (actor : Nat → Option ι) (sync : Nat → Nat → Prop) (access : Nat → Place → Access → Prop)
    (L : Nat) : Prop :=
  ∀ m n, m < n → n < L → ∀ x a b, access m x a → access n x b → Conflict a b → Before actor sync m n

end HappensBefore
