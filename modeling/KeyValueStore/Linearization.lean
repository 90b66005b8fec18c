import Mathlib.Data.List.Flatten
import Mathlib.Data.List.Nodup

/-!
# Linearizability

A history says which calls were made on a concurrent object, what the ones that returned gave, and which call had returned
before another one began.  It is linearizable if the calls that returned, and some of the others, can be put into an order
that keeps this precedence and in which they are correct one after another.  `Points.linearizable` gives such an order from
the times at which the calls take effect.  Nothing here refers to the program.
-/

namespace Linearization

variable {ι Op Res St : Type}

/-- What is seen of a run from outside. -/
structure History (ι Op Res : Type) where
  op : ι → Option Op
  result : ι → Option Res
  precedes : ι → ι → Prop

/-- A call, and the result with which it takes effect. -/
structure Effect (ι Op Res : Type) where
  call : ι
  op : Op
  result : Res

/-- The calls are correct one after another, from one state to another. -/
inductive Path (next : St → Op → Res → St → Prop) : St → List (Effect ι Op Res) → St → Prop
  | nil {s : St} : Path next s [] s
  | cons {s s' s'' : St} {e : Effect ι Op Res} {l : List (Effect ι Op Res)} (h : next s e.op e.result s')
    (ht : Path next s' l s'') : Path next s (e :: l) s''

variable {next : St → Op → Res → St → Prop} {H : History ι Op Res} {s s' s'' : St} {l l' : List (Effect ι Op Res)}
  {states : Nat → St} {effects : Nat → List (Effect ι Op Res)} {T : Nat}

theorem Path.single {e : Effect ι Op Res} (h : next s e.op e.result s') : Path next s [e] s' := .cons h .nil

theorem Path.append (h : Path next s l s') (h' : Path next s' l' s'') : Path next s (l ++ l') s'' := by
  induction h with
  | nil => exact h'
  | cons hn _ ih => exact .cons hn (ih h')

/-- Calls that leave the state as it is. -/
theorem Path.stay (h : ∀ e ∈ l, next s e.op e.result s) : Path next s l s := by
  induction l with
  | nil => exact .nil
  | cons e l ih => exact .cons (h e (List.mem_cons_self ..)) (ih fun e' he' => h e' (List.mem_cons_of_mem _ he'))

/-- The order explains the history. -/
structure Explains (next : St → Op → Res → St → Prop) (s : St) (H : History ι Op Res) (order : List (Effect ι Op Res)) :
    Prop where
  /-- each call is there once at most -/
  once : (order.map Effect.call).Nodup
  /-- it was made, with that operation -/
  made : ∀ e ∈ order, H.op e.call = some e.op
  /-- and has that result, if it returned -/
  returned : ∀ e ∈ order, ∀ r, H.result e.call = some r → r = e.result
  /-- the calls that returned are there -/
  complete : ∀ i op r, H.op i = some op → H.result i = some r → ⟨i, op, r⟩ ∈ order
  /-- no call stands before one that had returned when it began -/
  ordered : order.Pairwise fun e e' => ¬ H.precedes e'.call e.call
  correct : ∃ s', Path next s order s'

def Linearizable (next : St → Op → Res → St → Prop) (s : St) (H : History ι Op Res) : Prop :=
  ∃ order, Explains next s H order

/-- Every call takes effect at one time, those of one time in a given order, and a call that had returned when another one
began takes effect before it. -/
structure Points (next : St → Op → Res → St → Prop) (H : History ι Op Res) (states : Nat → St)
    (effects : Nat → List (Effect ι Op Res)) (T : Nat) : Prop where
  once : ∀ n < T, ((effects n).map Effect.call).Nodup
  single : ∀ m n, m < n → n < T → ∀ e ∈ effects m, ∀ e' ∈ effects n, e.call ≠ e'.call
  made : ∀ n < T, ∀ e ∈ effects n, H.op e.call = some e.op
  returned : ∀ n < T, ∀ e ∈ effects n, ∀ r, H.result e.call = some r → r = e.result
  complete : ∀ i op r, H.op i = some op → H.result i = some r → ∃ n < T, ⟨i, op, r⟩ ∈ effects n
  ordered : ∀ m n, m ≤ n → n < T → ∀ e ∈ effects m, ∀ e' ∈ effects n, ¬ H.precedes e'.call e.call
  correct : ∀ n < T, Path next (states n) (effects n) (states (n + 1))

/-- The effects one after another. -/
theorem path_flatMap (h : ∀ n < T, Path next (states n) (effects n) (states (n + 1))) :
    Path next (states 0) ((List.range T).flatMap effects) (states T) := by
  induction T with
  | zero => exact .nil
  | succ T ih =>
    rw [List.range_succ, List.flatMap_append, List.flatMap_singleton]
    exact (ih fun n hn => h n (by omega)).append (h T (Nat.lt_succ_self T))

theorem Points.linearizable (h : Points next H states effects T) : Linearizable next (states 0) H := by
  have hmem : ∀ e, e ∈ (List.range T).flatMap effects ↔ ∃ n < T, e ∈ effects n := by simp
  refine ⟨(List.range T).flatMap effects, ?_, fun e he => ?_, fun e he r hr => ?_, fun i op r hop hr => ?_, ?_, ?_⟩
  · rw [List.map_flatMap, List.nodup_flatMap]
    refine ⟨fun n hn => h.once n (List.mem_range.1 hn), ?_⟩
    apply List.pairwise_lt_range.imp_of_mem
    intro m n _ hn hlt i hm hi
    obtain ⟨e, he, rfl⟩ := List.mem_map.1 hm
    obtain ⟨e', he', hcall⟩ := List.mem_map.1 hi
    exact h.single m n hlt (List.mem_range.1 hn) e he e' he' hcall.symm
  · obtain ⟨n, hn, he⟩ := (hmem e).1 he
    exact h.made n hn e he
  · obtain ⟨n, hn, he⟩ := (hmem e).1 he
    exact h.returned n hn e he r hr
  · exact (hmem _).2 (h.complete i op r hop hr)
  · rw [List.pairwise_flatMap]
    constructor
    · intro n hn
      apply List.pairwise_of_forall_mem_list
      exact fun e he e' he' => h.ordered n n (Nat.le_refl n) (List.mem_range.1 hn) e he e' he'
    · apply List.pairwise_lt_range.imp_of_mem
      intro m n _ hn hlt e he e' he'
      exact h.ordered m n (Nat.le_of_lt hlt) (List.mem_range.1 hn) e he e' he'
  · exact ⟨states T, path_flatMap h.correct⟩

end Linearization
