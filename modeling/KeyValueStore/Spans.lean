import Mathlib.Order.Lattice
import Mathlib.Data.List.Pairwise

/-!
# Separated spans

A list of objects, each of which occupies the points from its start up to its stop.  Where every span ends before the next
one begins, an interval that is covered lies in one span (`exists_span_of_covers`), and the covered points determine the
spans (`ends_eq_of_covers`).  Nothing here refers to the program.
-/

namespace Spans

variable {α β : Type} [LinearOrder β] {start stop : α → β} {l l' : List α}

/-- Some object of the list occupies the point. -/
def Covers (start stop : α → β) (l : List α) (x : β) : Prop := ∃ a ∈ l, start a ≤ x ∧ x < stop a

/-- Every span holds a point, and ends before the next one begins. -/
structure Separated (start stop : α → β) (l : List α) : Prop where
  lt : ∀ a ∈ l, start a < stop a
  gap : l.Pairwise fun a b => stop a < start b

theorem Separated.tail {a : α} (h : Separated start stop (a :: l)) : Separated start stop l :=
  ⟨fun b hb => h.lt b (List.mem_cons_of_mem _ hb), (List.pairwise_cons.1 h.gap).2⟩

/-- Two objects that occupy a point, or of which one begins where the other ends, are the same. -/
theorem Separated.eq_of_le (h : Separated start stop l) {a b : α} (ha : a ∈ l) (hb : b ∈ l) (h₁ : start a ≤ stop b)
    (h₂ : start b ≤ stop a) : a = b := by
  by_contra hne
  have hsymm : Std.Symm fun a b => stop a < start b ∨ stop b < start a := ⟨fun _ _ => Or.symm⟩
  have hgap : l.Pairwise fun a b => stop a < start b ∨ stop b < start a := h.gap.imp Or.inl
  rcases hgap.forall ha hb hne with hlt | hlt
  · exact absurd h₂ (not_le_of_gt hlt)
  · exact absurd h₁ (not_le_of_gt hlt)

/-- An interval that is covered lies in one span. -/
theorem exists_span_of_covers (h : Separated start stop l) {x y : β} (hxy : x < y)
    (hc : ∀ z, x ≤ z → z < y → Covers start stop l z) : ∃ a ∈ l, start a ≤ x ∧ y ≤ stop a := by
  obtain ⟨a, ha, hax, hxa⟩ := hc x (le_refl x) hxy
  refine ⟨a, ha, hax, ?_⟩
  by_contra hlt
  obtain ⟨b, hb, hba, hab⟩ := hc (stop a) (le_of_lt hxa) (lt_of_not_ge hlt)
  have hle : start a ≤ stop b := le_trans (le_of_lt (h.lt a ha)) (le_of_lt hab)
  obtain rfl := h.eq_of_le ha hb hle hba
  exact lt_irrefl _ hab

theorem covers_cons {a : α} {x : β} : Covers start stop (a :: l) x ↔ (start a ≤ x ∧ x < stop a) ∨ Covers start stop l x := by
  simp [Covers]

/-- The points behind the first span are covered by the others. -/
private theorem covers_tail (h : Separated start stop (a :: l)) {x : β} :
    Covers start stop l x ↔ Covers start stop (a :: l) x ∧ stop a ≤ x := by
  constructor
  · rintro ⟨b, hb, hbx, hxb⟩
    have := (List.pairwise_cons.1 h.gap).1 b hb
    exact ⟨⟨b, List.mem_cons_of_mem _ hb, hbx, hxb⟩, le_trans (le_of_lt this) hbx⟩
  · rintro ⟨hc, hx⟩
    exact (covers_cons.1 hc).resolve_left fun hax => absurd hx (not_le_of_gt hax.2)

/-- The first span of a list begins no later than that of a list with the same covered points. -/
private theorem start_le_of_covers {a b : α} (h' : Separated start stop (b :: l'))
    (hc : ∀ x, Covers start stop (a :: l) x → Covers start stop (b :: l') x) (hlt : start a < stop a) :
    start b ≤ start a := by
  obtain ⟨c, hmem, hca, -⟩ := hc (start a) ⟨a, List.mem_cons_self .., le_refl _, hlt⟩
  rcases List.mem_cons.1 hmem with rfl | hmem
  · exact hca
  · have hbc := (List.pairwise_cons.1 h'.gap).1 c hmem
    exact le_trans (le_of_lt (h'.lt b (List.mem_cons_self ..))) (le_trans (le_of_lt hbc) hca)

private theorem stop_le_of_covers {a b : α} (h : Separated start stop (a :: l))
    (hc : ∀ x, Covers start stop (b :: l') x → Covers start stop (a :: l) x) (hs : start a = start b) :
    stop b ≤ stop a := by
  by_contra hlt
  have hlt := lt_of_not_ge hlt
  have hle : start b ≤ stop a := hs ▸ le_of_lt (h.lt a (List.mem_cons_self ..))
  obtain ⟨c, hmem, hca, hac⟩ := hc (stop a) ⟨b, List.mem_cons_self .., hle, hlt⟩
  rcases List.mem_cons.1 hmem with rfl | hmem
  · exact lt_irrefl _ hac
  · exact absurd hca (not_le_of_gt ((List.pairwise_cons.1 h.gap).1 c hmem))

/-- The covered points determine the spans. -/
theorem ends_eq_of_covers (h : Separated start stop l) (h' : Separated start stop l')
    (hc : ∀ x, Covers start stop l x ↔ Covers start stop l' x) :
    l.map (fun a => (start a, stop a)) = l'.map fun a => (start a, stop a) := by
  induction l generalizing l' with
  | nil =>
    cases l' with
    | nil => rfl
    | cons b l' =>
      obtain ⟨_, hmem, -⟩ := (hc (start b)).2
        ⟨b, List.mem_cons_self .., le_refl _, h'.lt b (List.mem_cons_self ..)⟩
      cases hmem
  | cons a l ih =>
    cases l' with
    | nil =>
      obtain ⟨_, hmem, -⟩ := (hc (start a)).1 ⟨a, List.mem_cons_self .., le_refl _, h.lt a (List.mem_cons_self ..)⟩
      cases hmem
    | cons b l' =>
      have hs : start a = start b := le_antisymm
        (start_le_of_covers h (fun x => (hc x).2) (h'.lt b (List.mem_cons_self ..)))
        (start_le_of_covers h' (fun x => (hc x).1) (h.lt a (List.mem_cons_self ..)))
      have he : stop a = stop b := le_antisymm
        (stop_le_of_covers h' (fun x => (hc x).1) hs.symm) (stop_le_of_covers h (fun x => (hc x).2) hs)
      rw [List.map_cons, List.map_cons, hs, he, ih h.tail h'.tail fun x => ?_]
      rw [covers_tail h, covers_tail h', hc x, he]

end Spans
