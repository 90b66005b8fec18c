import Mathlib.Data.List.Basic
import Mathlib.Data.List.Nodup
import Mathlib.Data.List.GetD

/-!
# Doubly linked segments

Nodes of an arbitrary type carry a `prev` and a `next` link, `null` is a value that no node has.  `Seg prev next p l q`
says that the nodes `l`, entered from `p` and left for `q`, are linked in both directions.  A segment splits where
its list of nodes splits (`seg_append`), depends on the links of its nodes only (`Seg.congr`), and each of its two
ends can be tied to another node by one link (`Seg.retie_left`, `Seg.retie_right`).  The edits of a doubly linked list
are compositions of these three facts (`Seg.unlink`, `Seg.link`).
-/

namespace DoublyLinked

variable {α : Type} {prev next prev' next' : α → α}

/-- The nodes `l` are linked in both directions, entered from `p` and left for `q`. -/
def Seg (prev next : α → α) : α → List α → α → Prop
  | _, [], _ => True
  | p, x :: xs, q => prev x = p ∧ next x = xs.headD q ∧ Seg prev next x xs q

@[simp] theorem seg_nil (p q : α) : Seg prev next p [] q := trivial

theorem seg_cons {p x q : α} {xs : List α} :
    Seg prev next p (x :: xs) q ↔ prev x = p ∧ next x = xs.headD q ∧ Seg prev next x xs q :=
  Iff.rfl

theorem headD_append (l₁ l₂ : List α) (q : α) : (l₁ ++ l₂).headD q = l₁.headD (l₂.headD q) := by
  cases l₁ <;> rfl

/-- A segment splits where its list of nodes splits. -/
theorem seg_append {p q : α} {l₁ l₂ : List α} :
    Seg prev next p (l₁ ++ l₂) q ↔
      Seg prev next p l₁ (l₂.headD q) ∧ Seg prev next (l₁.getLastD p) l₂ q := by
  induction l₁ generalizing p with
  | nil => simp
  | cons x xs ih =>
    simp only [List.cons_append, seg_cons, headD_append, ih, List.getLastD_cons]
    tauto

/-- A segment depends on the links of its nodes only. -/
theorem Seg.congr {p q : α} {l : List α} (h : Seg prev next p l q)
    (hp : ∀ x ∈ l, prev' x = prev x) (hn : ∀ x ∈ l, next' x = next x) : Seg prev' next' p l q := by
  induction l generalizing p with
  | nil => trivial
  | cons x xs ih =>
    obtain ⟨h1, h2, h3⟩ := h
    refine ⟨?_, ?_, ih h3 (fun y hy => hp y (List.mem_cons_of_mem _ hy)) (fun y hy => hn y (List.mem_cons_of_mem _ hy))⟩
    · rw [hp x (List.mem_cons_self ..), h1]
    · rw [hn x (List.mem_cons_self ..), h2]

theorem headD_mem {l : List α} (hl : l ≠ []) (q : α) : l.headD q ∈ l := by
  cases l with
  | nil => exact absurd rfl hl
  | cons x xs => exact List.mem_cons_self ..

theorem getLastD_mem {l : List α} (hl : l ≠ []) (p : α) : l.getLastD p ∈ l := by
  rw [List.getLastD_eq_getLast?, List.getLast?_eq_some_getLast hl]
  exact List.getLast_mem hl

/-- The left end of a segment is tied to another node by the `prev` link of its first node. -/
theorem Seg.retie_left {p p' q : α} {l : List α} (h : Seg prev next p l q) (hl : l.Nodup)
    (hp : ∀ x ∈ l, x ≠ l.headD q → prev' x = prev x) (hp' : l ≠ [] → prev' (l.headD q) = p')
    (hn : ∀ x ∈ l, next' x = next x) : Seg prev' next' p' l q := by
  cases l with
  | nil => trivial
  | cons x xs =>
    obtain ⟨-, h2, h3⟩ := h
    have hx := (List.nodup_cons.1 hl).1
    refine ⟨hp' (List.cons_ne_nil _ _), ?_, h3.congr ?_ ?_⟩
    · rw [hn x (List.mem_cons_self ..), h2]
    · exact fun y hy => hp y (List.mem_cons_of_mem _ hy) (fun e => hx (by rw [e] at hy; exact hy))
    · exact fun y hy => hn y (List.mem_cons_of_mem _ hy)

/-- The right end of a segment is tied to another node by the `next` link of its last node. -/
theorem Seg.retie_right {p q q' : α} {l : List α} (h : Seg prev next p l q) (hl : l.Nodup)
    (hp : ∀ x ∈ l, prev' x = prev x) (hn : ∀ x ∈ l, x ≠ l.getLastD p → next' x = next x)
    (hn' : l ≠ [] → next' (l.getLastD p) = q') : Seg prev' next' p l q' := by
  induction l generalizing p with
  | nil => trivial
  | cons x xs ih =>
    obtain ⟨h1, h2, h3⟩ := h
    obtain ⟨hx, hxs⟩ := List.nodup_cons.1 hl
    have hn'' := hn' (List.cons_ne_nil _ _)
    rw [List.getLastD_cons] at hn hn''
    refine ⟨?_, ?_, ih h3 hxs (fun y hy => hp y (List.mem_cons_of_mem _ hy))
      (fun y hy => hn y (List.mem_cons_of_mem _ hy)) (fun _ => hn'')⟩
    · rw [hp x (List.mem_cons_self ..), h1]
    · cases xs with
      | nil => exact hn''
      | cons y ys =>
        have hne : x ≠ (y :: ys).getLastD x := fun e => hx (e ▸ getLastD_mem (List.cons_ne_nil _ _) x)
        rw [hn x (List.mem_cons_self ..) hne, h2]; rfl

/-- Two segments are joined by tying the right end of the first to the left end of the second. -/
theorem Seg.join {p q q₁ p₂ : α} {l₁ l₂ : List α} (h₁ : Seg prev next p l₁ q₁) (h₂ : Seg prev next p₂ l₂ q)
    (hl : (l₁ ++ l₂).Nodup)
    (hp : ∀ y ∈ l₁ ++ l₂, y ≠ l₂.headD q → prev' y = prev y) (hp' : l₂ ≠ [] → prev' (l₂.headD q) = l₁.getLastD p)
    (hn : ∀ y ∈ l₁ ++ l₂, y ≠ l₁.getLastD p → next' y = next y) (hn' : l₁ ≠ [] → next' (l₁.getLastD p) = l₂.headD q)
    (hq : q ∉ l₁) (hp₀ : p ∉ l₂) : Seg prev' next' p (l₁ ++ l₂) q := by
  obtain ⟨hl₁, hl₂, hd⟩ := List.nodup_append.1 hl
  have hhead : l₂.headD q ∉ l₁ := by
    intro hm
    cases l₂ with
    | nil => exact hq hm
    | cons x xs => exact hd _ hm _ (List.mem_cons_self ..) rfl
  have hlast : l₁.getLastD p ∉ l₂ := by
    intro hm
    by_cases he : l₁ = []
    · subst he; exact hp₀ hm
    · exact hd _ (getLastD_mem he p) _ hm rfl
  refine seg_append.2 ⟨h₁.retie_right hl₁ ?_ ?_ hn', h₂.retie_left hl₂ ?_ hp' ?_⟩
  · exact fun y hy => hp y (List.mem_append_left _ hy) (fun e => hhead (e ▸ hy))
  · exact fun y hy => hn y (List.mem_append_left _ hy)
  · exact fun y hy => hp y (List.mem_append_right _ hy)
  · exact fun y hy => hn y (List.mem_append_right _ hy) (fun e => hlast (e ▸ hy))

/-- Unlinking `x`: its neighbours are tied to each other, every other link is kept. -/
theorem Seg.unlink {p x q : α} {l₁ l₂ : List α} (h : Seg prev next p (l₁ ++ x :: l₂) q) (hl : (l₁ ++ x :: l₂).Nodup)
    (hp : ∀ y ∈ l₁ ++ l₂, y ≠ l₂.headD q → prev' y = prev y) (hp' : l₂ ≠ [] → prev' (l₂.headD q) = l₁.getLastD p)
    (hn : ∀ y ∈ l₁ ++ l₂, y ≠ l₁.getLastD p → next' y = next y) (hn' : l₁ ≠ [] → next' (l₁.getLastD p) = l₂.headD q)
    (hq : q ∉ l₁) (hp₀ : p ∉ l₂) : Seg prev' next' p (l₁ ++ l₂) q := by
  obtain ⟨h₁, -, -, h₂⟩ := seg_append.1 h
  have hsub : (l₁ ++ l₂).Sublist (l₁ ++ x :: l₂) := List.Sublist.append_left (List.sublist_cons_self x l₂) l₁
  exact h₁.join h₂ (hl.sublist hsub) hp hp' hn hn' hq hp₀

/-- Linking `x` in: it is tied to both neighbours, every other link is kept. -/
theorem Seg.link {p x q : α} {l₁ l₂ : List α} (h : Seg prev next p (l₁ ++ l₂) q) (hl : (l₁ ++ x :: l₂).Nodup)
    (hpx : prev' x = l₁.getLastD p) (hnx : next' x = l₂.headD q)
    (hp : ∀ y ∈ l₁ ++ l₂, y ≠ l₂.headD q → prev' y = prev y) (hp' : l₂ ≠ [] → prev' (l₂.headD q) = x)
    (hn : ∀ y ∈ l₁ ++ l₂, y ≠ l₁.getLastD p → next' y = next y) (hn' : l₁ ≠ [] → next' (l₁.getLastD p) = x)
    (hq : q ∉ l₁) (hp₀ : p ∉ l₂) : Seg prev' next' p (l₁ ++ x :: l₂) q := by
  obtain ⟨h₁, h₂⟩ := seg_append.1 h
  obtain ⟨hl₁, hl₂, hd⟩ := List.nodup_append.1 hl
  have hl₂' := (List.nodup_cons.1 hl₂).2
  have hhead : l₂.headD q ∉ l₁ := by
    intro hm
    cases l₂ with
    | nil => exact hq hm
    | cons z zs => exact hd _ hm _ (List.mem_cons_of_mem _ (List.mem_cons_self ..)) rfl
  have hlast : l₁.getLastD p ∉ l₂ := by
    intro hm
    by_cases he : l₁ = []
    · subst he; exact hp₀ hm
    · exact hd _ (getLastD_mem he p) _ (List.mem_cons_of_mem _ hm) rfl
  refine seg_append.2 ⟨h₁.retie_right hl₁ ?_ ?_ hn', hpx, hnx, h₂.retie_left hl₂' ?_ hp' ?_⟩
  · exact fun y hy => hp y (List.mem_append_left _ hy) (fun e => hhead (e ▸ hy))
  · exact fun y hy => hn y (List.mem_append_left _ hy)
  · exact fun y hy => hp y (List.mem_append_right _ hy)
  · exact fun y hy => hn y (List.mem_append_right _ hy) (fun e => hlast (e ▸ hy))

/-- The nodes after `p` are found by following `next`: two `null`-terminated segments with one first node are equal. -/
theorem Seg.eq_of_head {null p p' : α} {l l' : List α} (h : Seg prev next p l null) (h' : Seg prev' next p' l' null)
    (hl : null ∉ l) (hl' : null ∉ l') (hh : l.headD null = l'.headD null) : l = l' := by
  induction l generalizing p p' l' with
  | nil =>
    cases l' with
    | nil => rfl
    | cons y ys =>
      obtain rfl : null = y := hh
      exact absurd (List.mem_cons_self ..) hl'
  | cons x xs ih =>
    cases l' with
    | nil =>
      obtain rfl : x = null := hh
      exact absurd (List.mem_cons_self ..) hl
    | cons y ys =>
      obtain rfl : x = y := hh
      obtain ⟨-, hn, ht⟩ := h
      obtain ⟨-, hn', ht'⟩ := h'
      rw [ih ht ht' (fun e => hl (List.mem_cons_of_mem _ e)) (fun e => hl' (List.mem_cons_of_mem _ e)) (hn.symm.trans hn')]

/-- A walk along `next` from the head of a segment stays in it: `prev` of the node it ends at is the last node passed. -/
theorem Seg.prev_of_walk {null p p' y : α} {l u : List α} (h : Seg prev next p l null) (hu : Seg prev' next p' u y)
    (hh : l.headD null = u.headD y) (h₀ : null ∉ u) (hy : y ≠ null) : prev y = u.getLastD p := by
  induction u generalizing p p' l with
  | nil =>
    cases l with
    | nil => exact absurd hh.symm hy
    | cons z zs =>
      obtain rfl : z = y := hh
      exact h.1
  | cons x xs ih =>
    cases l with
    | nil =>
      obtain rfl : null = x := hh
      exact absurd (List.mem_cons_self ..) h₀
    | cons z zs =>
      obtain rfl : z = x := hh
      obtain ⟨-, hn, ht⟩ := h
      obtain ⟨-, hn', ht'⟩ := hu
      rw [List.getLastD_cons]
      exact ih ht ht' (hn.symm.trans hn') (fun e => h₀ (List.mem_cons_of_mem _ e))

end DoublyLinked
