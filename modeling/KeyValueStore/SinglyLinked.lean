import Mathlib.Data.List.Basic

/-!
# Singly linked lists

`Linked next h l` says that following `next` from `h` visits the nodes `l`, one after another, and ends behind the last
one.  Nothing here refers to the program.
-/

namespace SinglyLinked

variable {α : Type} {next next' : α → Option α}

/-- The nodes `l`, from `h` on. -/
def Linked (next : α → Option α) : Option α → List α → Prop
  | h, [] => h = none
  | h, x :: xs => h = some x ∧ Linked next (next x) xs

/-- A list depends on the links of its nodes only. -/
theorem Linked.congr {h : Option α} {l : List α} (hl : Linked next h l) (hn : ∀ x ∈ l, next' x = next x) :
    Linked next' h l := by
  induction l generalizing h with
  | nil => exact hl
  | cons x xs ih =>
    obtain ⟨hx, hxs⟩ := hl
    refine ⟨hx, ?_⟩
    rw [hn x (List.mem_cons_self ..)]
    exact ih hxs (fun y hy => hn y (List.mem_cons_of_mem _ hy))

/-- Behind the last node nothing follows. -/
theorem Linked.eq_nil {l : List α} (hl : Linked next none l) : l = [] := by
  cases l with
  | nil => rfl
  | cons x xs => cases hl.1

/-- The nodes behind a node. -/
theorem Linked.suffix {h : Option α} {l l' : List α} {x : α} (hl : Linked next h (l ++ x :: l')) :
    Linked next (next x) l' := by
  induction l generalizing h with
  | nil => exact hl.2
  | cons y ys ih => exact ih hl.2

theorem Linked.head_mem {l : List α} {x : α} (hl : Linked next (some x) l) : x ∈ l := by
  cases l with
  | nil => cases hl
  | cons y ys =>
    obtain rfl := Option.some.inj hl.1
    exact List.mem_cons_self ..

/-- What a node links to is in the list. -/
theorem Linked.next_mem {h : Option α} {l : List α} {x y : α} (hl : Linked next h l) (hx : x ∈ l) (hy : next x = some y) :
    y ∈ l := by
  induction l generalizing h with
  | nil => cases hx
  | cons z zs ih =>
    rcases List.mem_cons.1 hx with rfl | hx
    · exact List.mem_cons_of_mem _ (Linked.head_mem (hy ▸ hl.2))
    · exact List.mem_cons_of_mem _ (ih hl.2 hx)

/-- What a node links to comes after it. -/
theorem Linked.rel_next {R : α → α → Prop} {h : Option α} {l : List α} {x y : α} (hl : Linked next h l)
    (hR : l.Pairwise R) (hx : x ∈ l) (hy : next x = some y) : R x y := by
  induction l generalizing h with
  | nil => cases hx
  | cons z zs ih =>
    obtain ⟨hz, hzs⟩ := List.pairwise_cons.1 hR
    rcases List.mem_cons.1 hx with rfl | hx
    · exact hz y (Linked.head_mem (hy ▸ hl.2))
    · exact ih hl.2 hzs hx

/-- If every link respects a transitive relation, the nodes are in its order. -/
theorem Linked.pairwise {R : α → α → Prop} [IsTrans α R] {h : Option α} {l : List α} (hl : Linked next h l)
    (hR : ∀ x y, next x = some y → R x y) : l.Pairwise R := by
  rw [← List.isChain_iff_pairwise]
  induction l generalizing h with
  | nil => exact List.IsChain.nil
  | cons x xs ih =>
    cases xs with
    | nil => exact List.IsChain.singleton x
    | cons y ys => exact List.isChain_cons_cons.2 ⟨hR x y hl.2.1, ih hl.2⟩

end SinglyLinked
