import Mathlib.Algebra.BigOperators.Group.List.Basic
import Mathlib.Data.List.Count
import Mathlib.Data.Nat.Init
import Mathlib.Algebra.GroupWithZero.Nat

/-!
# Processes that come to an end

A list of processes, in which one is added or one makes a step that lowers its rank.  A run of them is bounded by the number
of processes and their highest rank (`run_le`), and the steps of one process by its rank (`moves_le`), whatever the others
do.  Nothing here refers to the program.
-/

namespace Ranking

variable {α : Type} {rank : α → Nat} {C : Nat} {l l' : List α} {i : Nat} {a a' : α} {states : Nat → List α} {L m n : Nat}

/-- One process is added, or one makes a step. -/
inductive Ranked (rank : α → Nat) (C : Nat) (l : List α) : List α → Prop
  | add {a : α} (h : rank a ≤ C) : Ranked rank C l (l ++ [a])
  | step {i : Nat} {a a' : α} (hi : l[i]? = some a) (h : rank a' < rank a) : Ranked rank C l (l.set i a')

private theorem sum_map_set (f : α → Nat) (h : l[i]? = some a) :
    ((l.set i a').map f).sum + f a = (l.map f).sum + f a' := by
  induction l generalizing i with
  | nil => simp at h
  | cons b l ih =>
    cases i with
    | zero =>
      obtain rfl : b = a := by simpa using h
      simp only [List.set_cons_zero, List.map_cons, List.sum_cons]
      omega
    | succ i =>
      have := ih (i := i) (by simpa using h)
      simp only [List.set_cons_succ, List.map_cons, List.sum_cons]
      omega

/-- The first `n` steps. -/
theorem run_le_of_prefix (h : ∀ n < L, Ranked rank C (states n) (states (n + 1))) (hs : states 0 = []) (hn : n ≤ L) :
    n + ((states n).map rank).sum ≤ (states n).length * (C + 1) := by
  induction n with
  | zero => simp [hs]
  | succ n ih =>
    have ih := ih (by omega)
    generalize hl : states n = l at ih
    have hstep := h n hn
    rw [hl] at hstep
    generalize states (n + 1) = l' at hstep
    cases hstep with
    | @add a ha =>
      simp only [List.map_append, List.map_cons, List.map_nil, List.sum_append, List.sum_cons, List.sum_nil,
        List.length_append, List.length_cons, List.length_nil, Nat.zero_add, Nat.add_mul, Nat.one_mul]
      omega
    | @step i a a' hi hlt =>
      have hsum : ((l.set i a').map rank).sum + rank a = (l.map rank).sum + rank a' := sum_map_set rank hi
      rw [List.length_set]
      omega

theorem run_le (h : ∀ n < L, Ranked rank C (states n) (states (n + 1))) (hs : states 0 = []) :
    L ≤ (states L).length * (C + 1) := by
  have := run_le_of_prefix h hs (Nat.le_refl L)
  omega

/-- The number of steps that the process `i` makes from time `m` to time `n`. -/
def moves [DecidableEq α] (states : Nat → List α) (i m n : Nat) : Nat :=
  (List.range' m (n - m)).countP fun k => (states (k + 1))[i]? ≠ (states k)[i]?

private theorem moves_succ [DecidableEq α] (hmn : m ≤ n) :
    moves states i m (n + 1) = moves states i m n + if (states (n + 1))[i]? ≠ (states n)[i]? then 1 else 0 := by
  have hlast : m + 1 * (n - m) = n := by omega
  rw [moves, moves, show n + 1 - m = n - m + 1 by omega, List.range'_concat, List.countP_append, hlast]
  simp [List.countP_cons]

/-- In its steps a process uses up its rank. -/
theorem moves_le [DecidableEq α] (h : ∀ n < L, Ranked rank C (states n) (states (n + 1))) (hmn : m ≤ n) (hn : n ≤ L)
    (hm : (states m)[i]? = some a) : ∃ a', (states n)[i]? = some a' ∧ moves states i m n + rank a' ≤ rank a := by
  induction n, hmn using Nat.le_induction with
  | base => exact ⟨a, hm, by simp [moves]⟩
  | succ n hmn ih =>
    obtain ⟨a₁, h₁, hle⟩ := ih (by omega)
    have hstep := h n hn
    rw [moves_succ hmn]
    generalize hl : states n = l at h₁ hstep
    generalize states (n + 1) = l' at hstep
    cases hstep with
    | @add b hb =>
      have hsame : (l ++ [b])[i]? = l[i]? := List.getElem?_append_left (List.getElem?_eq_some_iff.1 h₁).1
      refine ⟨a₁, hsame.trans h₁, ?_⟩
      rw [if_neg (not_not.2 hsame)]
      exact hle
    | @step j b b' hj hlt =>
      by_cases hij : j = i
      · subst hij
        obtain rfl := Option.some.inj (hj.symm.trans h₁)
        refine ⟨b', List.getElem?_set_self (List.getElem?_eq_some_iff.1 hj).1, ?_⟩
        split <;> omega
      · have hsame : (l.set j b')[i]? = l[i]? := List.getElem?_set_ne hij
        refine ⟨a₁, hsame.trans h₁, ?_⟩
        rw [if_neg (not_not.2 hsame)]
        exact hle

end Ranking
