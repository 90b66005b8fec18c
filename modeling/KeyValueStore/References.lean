import Mathlib.Data.List.Count
import Mathlib.Data.List.Basic

/-!
# Counting references

`holders ref owners c` is the number of owners in a list whose reference is `c`, where `ref` gives the reference of an owner,
if it has one.  The lemmas say how the number changes when an owner is replaced or added.  Nothing here refers to the
program.
-/

namespace References

variable {α β : Type} [DecidableEq β] {ref : α → Option β} {owners : List α} {a a' : α} {c : β} {i : Nat}

/-- The number of owners that refer to `c`. -/
def holders (ref : α → Option β) (owners : List α) (c : β) : Nat := owners.countP fun a => ref a = some c

theorem holders_pos : 0 < holders ref owners c ↔ ∃ a ∈ owners, ref a = some c := by
  simp [holders, List.countP_pos_iff]

theorem holders_cons (b : α) (l : List α) :
    holders ref (b :: l) c = holders ref l c + if ref b = some c then 1 else 0 := by
  simp [holders, List.countP_cons]

theorem holders_eq_count : holders ref owners c = (owners.map ref).count (some c) := by
  rw [holders, List.count, List.countP_map]
  apply List.countP_congr
  intro a _
  simp

theorem holders_append (l l' : List α) : holders ref (l ++ l') c = holders ref l c + holders ref l' c :=
  List.countP_append

theorem holders_concat_of_none (h : ref a = none) : holders ref (owners ++ [a]) c = holders ref owners c := by
  rw [holders_append]
  simp [holders, h]

/-- The reference of one owner changes. -/
theorem holders_set (h : owners[i]? = some a) :
    holders ref (owners.set i a') c + (if ref a = some c then 1 else 0) =
      holders ref owners c + if ref a' = some c then 1 else 0 := by
  obtain ⟨hi, rfl⟩ := List.getElem?_eq_some_iff.1 h
  have hpos : ref owners[i] = some c → 0 < holders ref owners c :=
    fun hr => holders_pos.2 ⟨_, List.getElem_mem hi, hr⟩
  rw [holders, List.countP_set hi, ← holders]
  simp only [decide_eq_true_eq]
  split
  · rename_i hr
    have := hpos hr
    omega
  · omega

/-- The same, for an owner that is modified in place. -/
theorem holders_modify {f : α → α} (h : owners[i]? = some a) :
    holders ref (owners.modify i f) c + (if ref a = some c then 1 else 0) =
      holders ref owners c + if ref (f a) = some c then 1 else 0 := by
  have hmod : owners.modify i f = owners.set i (f a) := by
    rw [List.modify_eq_set_getElem?, h]
    rfl
  rw [hmod]
  exact holders_set h

/-- An owner is modified and keeps its reference. -/
theorem holders_modify_of_eq {f : α → α} (hf : ∀ a, ref (f a) = ref a) :
    holders ref (owners.modify i f) c = holders ref owners c := by
  cases h : owners[i]? with
  | none => rw [List.modify_eq_self (List.getElem?_eq_none_iff.1 h)]
  | some a =>
    have : holders ref (owners.modify i f) c + _ = _ := holders_modify h
    rw [hf] at this
    omega

theorem holders_set_of_eq (h : owners[i]? = some a) (hr : ref a' = ref a) :
    holders ref (owners.set i a') c = holders ref owners c := by
  have : holders ref (owners.set i a') c + _ = _ := holders_set h
  rw [hr] at this
  omega

/-- The owner had no reference. -/
theorem holders_set_of_none {d : β} (h : owners[i]? = some a) (hr : ref a = none) (hr' : ref a' = some d) :
    holders ref (owners.set i a') c = holders ref owners c + if d = c then 1 else 0 := by
  have : holders ref (owners.set i a') c + _ = _ := holders_set h
  simp only [hr, hr', reduceCtorEq, if_false, Option.some.injEq] at this
  omega

/-- The owner has no reference any more. -/
theorem holders_set_none {d : β} (h : owners[i]? = some a) (hr : ref a = some d) (hr' : ref a' = none) :
    holders ref (owners.set i a') c + (if d = c then 1 else 0) = holders ref owners c := by
  have : holders ref (owners.set i a') c + _ = _ := holders_set h
  simp only [hr, hr', reduceCtorEq, if_false, Option.some.injEq] at this
  omega

/-- The only owner. -/
theorem holders_unique (h : holders ref owners c ≤ 1) {j : Nat} (hi : owners[i]? = some a) (hj : owners[j]? = some a')
    (ha : ref a = some c) (ha' : ref a' = some c) : i = j := by
  induction owners generalizing i j with
  | nil => simp at hi
  | cons b l ih =>
    have hcons : holders ref (b :: l) c = holders ref l c + if ref b = some c then 1 else 0 := holders_cons b l
    have hpos : ∀ {k : Nat} {d : α}, l[k]? = some d → ref d = some c → 0 < holders ref l c :=
      fun hk hd => holders_pos.2 ⟨_, List.mem_of_getElem? hk, hd⟩
    cases i with
    | zero =>
      obtain rfl : b = a := by simpa using hi
      rw [if_pos ha] at hcons
      cases j with
      | zero => rfl
      | succ j =>
        have := hpos (by simpa using hj) ha'
        omega
    | succ i =>
      cases j with
      | zero =>
        obtain rfl : b = a' := by simpa using hj
        rw [if_pos ha'] at hcons
        have := hpos (by simpa using hi) ha
        omega
      | succ j =>
        have hle : holders ref l c ≤ 1 := by omega
        have hij : i = j := ih hle (by simpa using hi) (by simpa using hj)
        rw [hij]

/-- There is at most one owner if no two places have one. -/
theorem holders_le_one (h : ∀ (i j : Nat) (a a' : α), owners[i]? = some a → owners[j]? = some a' → ref a = some c →
    ref a' = some c → i = j) : holders ref owners c ≤ 1 := by
  induction owners with
  | nil => simp [holders]
  | cons b l ih =>
    have hl : holders ref l c ≤ 1 := ih fun i j a a' hi hj ha ha' =>
      Nat.succ.inj (h (i + 1) (j + 1) a a' (by simpa using hi) (by simpa using hj) ha ha')
    rw [holders_cons]
    by_cases hb : ref b = some c
    · have hnone : ¬ 0 < holders ref l c := by
        intro hpos
        obtain ⟨a, hmem, ha⟩ := holders_pos.1 hpos
        obtain ⟨j, hj⟩ := List.mem_iff_getElem?.1 hmem
        have := h 0 (j + 1) b a (by simp) (by simpa using hj) hb ha
        omega
      rw [if_pos hb]
      omega
    · rw [if_neg hb]
      omega

end References
