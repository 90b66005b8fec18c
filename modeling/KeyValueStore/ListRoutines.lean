import KeyValueStore.Execution
import KeyValueStore.Layout

/-!
# Removing a block from a list, and inserting one at the front of the used list

`remove_block_from_list` makes the stores `unlinkStores`, `insert_block_to_used_list` the stores `pushStores`, and the
linking part of `insert_block_to_free_list` the stores `linkStores`; each list of stores is given by the lists before and
behind the block, and each does to the linked list what its name says.  The other list and the sizes are not touched.
-/

namespace KeyValueStore

open DoublyLinked

/-- The field is one of the two list heads. -/
def Field.IsHead (f : Field) : Prop := f = .nextFreeBlockOffset ∨ f = .nextUsedBlockOffset

theorem Field.IsHead.on {f : Field} (h : f.IsHead) (D : Set Nat) : f.On D := by
  rcases h with rfl | rfl <;> trivial

/-- A list depends on its head and on the links of its nodes only. -/
theorem IsList.congr {F F' : Words} {listHead : Field} {l : List Nat} (h : IsList F listHead l)
    (hh : F' listHead = F listHead) (hp : ∀ x ∈ l, F' (.prevBlockOffset x) = F (.prevBlockOffset x))
    (hn : ∀ x ∈ l, F' (.nextBlockOffset x) = F (.nextBlockOffset x)) : IsList F' listHead l :=
  ⟨hh.trans h.head, h.seg.congr hp hn⟩

/-- The links of a node are the node before it and the node behind it. -/
theorem IsList.links {F : Words} {listHead : Field} {l₁ l₂ : List Nat} {b : Nat}
    (h : IsList F listHead (l₁ ++ b :: l₂)) :
    F (.prevBlockOffset b) = l₁.getLastD nullOffset ∧ F (.nextBlockOffset b) = l₂.headD nullOffset := by
  obtain ⟨-, hp, hn, -⟩ := seg_append.1 h.seg
  exact ⟨hp, hn⟩

/-! ### `remove_block_from_list` -/

/-- The stores of `remove_block_from_list` for a block between `l₁` and `l₂`. -/
def unlinkStores (listHead : Field) (l₁ : List Nat) (b : Nat) (l₂ : List Nat) : List (Field × Nat) :=
  (if l₁ = [] then listHead else .nextBlockOffset (l₁.getLastD nullOffset), l₂.headD nullOffset) ::
    ((if l₂ = [] then [] else [(.prevBlockOffset (l₂.headD nullOffset), l₁.getLastD nullOffset)]) ++
      [(.prevBlockOffset b, nullOffset), (.nextBlockOffset b, nullOffset)])

section

variable {F : Words} {listHead : Field} {l₁ l₂ : List Nat} {b : Nat}

theorem unlink_prev (hh : listHead.IsHead) (x : Nat) :
    F.after (unlinkStores listHead l₁ b l₂) (.prevBlockOffset x) =
      if x = b then nullOffset else if l₂ ≠ [] ∧ x = l₂.headD nullOffset then l₁.getLastD nullOffset
        else F (.prevBlockOffset x) := by
  unfold unlinkStores
  by_cases hb : x = b
  · by_cases h₂ : l₂ = [] <;> simp [h₂, hb]
  · rcases hh with rfl | rfl <;> by_cases h₁ : l₁ = [] <;> by_cases h₂ : l₂ = [] <;>
      simp [h₁, h₂, hb, Function.update_apply]

theorem unlink_next (hh : listHead.IsHead) (x : Nat) :
    F.after (unlinkStores listHead l₁ b l₂) (.nextBlockOffset x) =
      if x = b then nullOffset else if l₁ ≠ [] ∧ x = l₁.getLastD nullOffset then l₂.headD nullOffset
        else F (.nextBlockOffset x) := by
  unfold unlinkStores
  by_cases hb : x = b
  · by_cases h₂ : l₂ = [] <;> simp [h₂, hb]
  · rcases hh with rfl | rfl <;> by_cases h₁ : l₁ = [] <;> by_cases h₂ : l₂ = [] <;>
      simp [h₁, h₂, hb, Function.update_apply]

theorem unlink_dataSize (hh : listHead.IsHead) (x : Nat) :
    F.after (unlinkStores listHead l₁ b l₂) (.dataSize x) = F (.dataSize x) := by
  unfold unlinkStores
  rcases hh with rfl | rfl <;> by_cases h₁ : l₁ = [] <;> by_cases h₂ : l₂ = [] <;>
    simp [h₁, h₂]

theorem unlink_head (hh : listHead.IsHead) :
    F.after (unlinkStores listHead l₁ b l₂) listHead = if l₁ = [] then l₂.headD nullOffset else F listHead := by
  unfold unlinkStores
  rcases hh with rfl | rfl <;> by_cases h₁ : l₁ = [] <;> by_cases h₂ : l₂ = [] <;>
    simp [h₁, h₂]

theorem unlink_otherHead {f : Field} (hf : f.IsHead) (hne : f ≠ listHead) :
    F.after (unlinkStores listHead l₁ b l₂) f = F f := by
  unfold unlinkStores
  rcases hf with rfl | rfl <;> by_cases h₁ : l₁ = [] <;> by_cases h₂ : l₂ = [] <;>
    simp [h₁, h₂, hne]

/-- The block is gone from the list. -/
theorem unlink_isList (hh : listHead.IsHead) (h : IsList F listHead (l₁ ++ b :: l₂)) (hl : (l₁ ++ b :: l₂).Nodup)
    (h₀ : nullOffset ∉ l₁ ++ b :: l₂) : IsList (F.after (unlinkStores listHead l₁ b l₂)) listHead (l₁ ++ l₂) := by
  have hb : ∀ x ∈ l₁ ++ l₂, x ≠ b := by
    intro x hx e
    subst e
    exact (List.nodup_cons.1 (List.nodup_middle.1 hl)).1 hx
  have h₀₁ : nullOffset ∉ l₁ := fun hm => h₀ (List.mem_append_left _ hm)
  have h₀₂ : nullOffset ∉ l₂ := fun hm => h₀ (List.mem_append_right _ (List.mem_cons_of_mem _ hm))
  refine ⟨?_, h.seg.unlink hl ?_ ?_ ?_ ?_ h₀₁ h₀₂⟩
  · rw [unlink_head hh]
    split
    · rename_i e; subst e; rfl
    · rename_i e
      rw [h.head, headD_append, headD_append]
      cases l₁ with
      | nil => exact absurd rfl e
      | cons => rfl
  · intro y hy hne
    rw [unlink_prev hh, if_neg (hb y hy), if_neg (fun e => hne e.2)]
  · intro h₂
    rw [unlink_prev hh, if_neg (hb _ (List.mem_append_right _ (headD_mem h₂ _))), if_pos ⟨h₂, rfl⟩]
  · intro y hy hne
    rw [unlink_next hh, if_neg (hb y hy), if_neg (fun e => hne e.2)]
  · intro h₁
    rw [unlink_next hh, if_neg (hb _ (List.mem_append_left _ (getLastD_mem h₁ _))), if_pos ⟨h₁, rfl⟩]

/-- A list with another head and other nodes is not touched. -/
theorem unlink_otherList {f : Field} {l : List Nat} (hh : listHead.IsHead) (hf : f.IsHead) (hne : f ≠ listHead)
    (h : IsList F f l) (hd : ∀ x ∈ l₁ ++ b :: l₂, x ∉ l) :
    IsList (F.after (unlinkStores listHead l₁ b l₂)) f l := by
  have hb : ∀ x ∈ l, x ≠ b := fun x hx e => hd b (by simp) (e ▸ hx)
  refine h.congr (unlink_otherHead hf hne) ?_ ?_
  · intro x hx
    rw [unlink_prev hh, if_neg (hb x hx), if_neg]
    rintro ⟨h₂, rfl⟩
    exact hd _ (List.mem_append_right _ (List.mem_cons_of_mem _ (headD_mem h₂ _))) hx
  · intro x hx
    rw [unlink_next hh, if_neg (hb x hx), if_neg]
    rintro ⟨h₁, rfl⟩
    exact hd _ (List.mem_append_left _ (getLastD_mem h₁ _)) hx

private theorem storesOn_unlinkStores {D : Set Nat} {db : Nat} (hD : Headers D db F) (hh : listHead.IsHead)
    (hmem : ∀ x ∈ l₁ ++ b :: l₂, x ∈ D) : StoresOn D (unlinkStores listHead l₁ b l₂) := by
  have hlt : ∀ x ∈ l₁ ++ b :: l₂, x < 2 ^ 64 := fun x hx => by
    have := hD.inside x (hmem x hx)
    have := hD.small
    omega
  have hlast : l₁ ≠ [] → l₁.getLastD nullOffset ∈ l₁ ++ b :: l₂ := fun e => List.mem_append_left _ (getLastD_mem e _)
  have hhead : l₂ ≠ [] → l₂.headD nullOffset ∈ l₁ ++ b :: l₂ :=
    fun e => List.mem_append_right _ (List.mem_cons_of_mem _ (headD_mem e _))
  have hlast' : l₁.getLastD nullOffset < 2 ^ 64 := by
    by_cases e : l₁ = []
    · subst e; exact Nat.two_pow_pos 64
    · exact hlt _ (hlast e)
  have hhead' : l₂.headD nullOffset < 2 ^ 64 := by
    by_cases e : l₂ = []
    · subst e; exact Nat.two_pow_pos 64
    · exact hlt _ (hhead e)
  have hb : b ∈ D := hmem b (by simp)
  intro w hw
  simp only [unlinkStores, List.mem_cons, List.mem_append, List.not_mem_nil, or_false] at hw
  rcases hw with rfl | hw | rfl | rfl
  · refine ⟨?_, hhead'⟩
    dsimp only
    split
    · exact hh.on D
    · rename_i e; exact hmem _ (hlast e)
  · split at hw
    · cases hw
    · rename_i e
      rw [List.mem_singleton] at hw
      subst hw
      exact ⟨hmem _ (hhead e), hlast'⟩
  · exact ⟨hb, Nat.two_pow_pos 64⟩
  · exact ⟨hb, Nat.two_pow_pos 64⟩

/-- `remove_block_from_list` on a block of the list. -/
theorem exec_removeBlockFromList {D : Set Nat} {db : Nat} (hD : Headers D db F) (hh : listHead.IsHead)
    (h : IsList F listHead (l₁ ++ b :: l₂)) (hl : (l₁ ++ b :: l₂).Nodup) (hmem : ∀ x ∈ l₁ ++ b :: l₂, x ∈ D) :
    Exec D db F (removeBlockFromList listHead b) () (unlinkStores listHead l₁ b l₂) := by
  obtain ⟨hprev, hnext⟩ := h.links
  have hws := storesOn_unlinkStores hD hh hmem
  have hb : b ∈ D := hmem b (by simp)
  have hlast : l₁ ≠ [] → l₁.getLastD nullOffset ∈ D ∧ l₁.getLastD nullOffset ≠ b := fun e =>
    ⟨hmem _ (List.mem_append_left _ (getLastD_mem e _)),
      fun e' => (List.nodup_cons.1 (List.nodup_middle.1 hl)).1 (e' ▸ List.mem_append_left _ (getLastD_mem e _))⟩
  have hhead : l₂ ≠ [] → l₂.headD nullOffset ∈ D ∧ l₂.headD nullOffset ≠ b := fun e =>
    ⟨hmem _ (List.mem_append_right _ (List.mem_cons_of_mem _ (headD_mem e _))),
      fun e' => (List.nodup_cons.1 (List.nodup_middle.1 hl)).1 (e' ▸ List.mem_append_right _ (headD_mem e _))⟩
  have hbp : (Field.prevBlockOffset b).On D := hb
  have hbn : (Field.nextBlockOffset b).On D := hb
  have h0 : nullOffset < 2 ^ 64 := Nat.two_pow_pos 64
  -- the second half of the routine, after the store to the predecessor
  have hsecond : ∀ G : Words, Headers D db G → G (.prevBlockOffset b) = l₁.getLastD nullOffset →
      G (.nextBlockOffset b) = l₂.headD nullOffset →
      Exec D db G (do
        if (← load (.nextBlockOffset b)) ≠ nullOffset then
          let nextBlock ← load (.nextBlockOffset b)
          store (.prevBlockOffset nextBlock) (← load (.prevBlockOffset b))
        store (.prevBlockOffset b) nullOffset
        store (.nextBlockOffset b) nullOffset) ()
        ((if l₂ = [] then [] else [(.prevBlockOffset (l₂.headD nullOffset), l₁.getLastD nullOffset)]) ++
          [(.prevBlockOffset b, nullOffset), (.nextBlockOffset b, nullOffset)]) := by
    intro G hG hp hn
    apply exec_load_bind hG hbn
    dsimp only
    by_cases h₂ : l₂ = []
    · rw [if_neg (by rw [hn, h₂]; simp), if_pos h₂]
      apply exec_store_bind hG hbp h0
      exact exec_store (hG.update h0) hbn h0
    · obtain ⟨hm, hne⟩ := hhead h₂
      have hsn : (Field.prevBlockOffset (l₂.headD nullOffset)).On D := hm
      have hv : l₁.getLastD nullOffset < 2 ^ 64 := hp ▸ hG.bounded _ hbp
      rw [if_pos (by rw [hn]; exact hG.ne_null hm), if_neg h₂]
      refine exec_load_bind hG hbn (exec_load_bind hG hbp ?_)
      rw [hn, hp]
      apply exec_store_bind hG hsn hv
      apply exec_store_bind (hG.update hv) hbp h0
      exact exec_store ((hG.update hv).update h0) hbn h0
  unfold removeBlockFromList unlinkStores
  apply exec_load_bind hD hbp
  rw [hprev]
  dsimp only
  by_cases h₁ : l₁ = []
  · rw [if_neg (by rw [h₁]; simp), if_pos h₁]
    have hv : l₂.headD nullOffset < 2 ^ 64 := hnext ▸ hD.bounded _ hbn
    apply exec_load_bind hD hbn
    rw [hnext]
    refine exec_store_bind hD (hh.on D) hv (hsecond _ (hD.update hv) ?_ ?_)
    · rcases hh with rfl | rfl <;> simp [hprev]
    · rcases hh with rfl | rfl <;> simp [hnext]
  · obtain ⟨hm, hne⟩ := hlast h₁
    have hsp : (Field.nextBlockOffset (l₁.getLastD nullOffset)).On D := hm
    have hv : l₂.headD nullOffset < 2 ^ 64 := hnext ▸ hD.bounded _ hbn
    rw [if_pos (hD.ne_null hm), if_neg h₁]
    refine exec_load_bind hD hbp (exec_load_bind hD hbn ?_)
    rw [hprev, hnext]
    refine exec_store_bind hD hsp hv (hsecond _ (hD.update hv) ?_ ?_)
    · rw [Function.update_of_ne (by simp), hprev]
    · rw [Function.update_of_ne (by simpa using Ne.symm hne), hnext]

/-! ### Linking a block in -/

/-- The stores that link `b` between `l₁` and `l₂` on the free list. -/
def linkStores (l₁ : List Nat) (b : Nat) (l₂ : List Nat) : List (Field × Nat) :=
  (.prevBlockOffset b, l₁.getLastD nullOffset) :: (.nextBlockOffset b, l₂.headD nullOffset) ::
    (if l₁ = [] then .nextFreeBlockOffset else .nextBlockOffset (l₁.getLastD nullOffset), b) ::
      (if l₂ = [] then [] else [(.prevBlockOffset (l₂.headD nullOffset), b)])

/-- The stores of `insert_block_to_used_list` in front of `l₂`. -/
def pushStores (b : Nat) (l₂ : List Nat) : List (Field × Nat) :=
  (if l₂ = [] then [] else [(.prevBlockOffset (l₂.headD nullOffset), b)]) ++
    [(.prevBlockOffset b, nullOffset), (.nextBlockOffset b, l₂.headD nullOffset), (.nextUsedBlockOffset, b)]

theorem link_prev (hb₂ : b ∉ l₂) (x : Nat) :
    F.after (linkStores l₁ b l₂) (.prevBlockOffset x) =
      if x = b then l₁.getLastD nullOffset else if l₂ ≠ [] ∧ x = l₂.headD nullOffset then b
        else F (.prevBlockOffset x) := by
  have hne : l₂ ≠ [] → b ≠ l₂.headD nullOffset := fun h e => hb₂ (e ▸ headD_mem h _)
  unfold linkStores
  by_cases hb : x = b
  · subst hb
    by_cases h₁ : l₁ = [] <;> by_cases h₂ : l₂ = [] <;> simp_all
  · by_cases h₁ : l₁ = [] <;> by_cases h₂ : l₂ = [] <;> simp [h₁, h₂, hb, Function.update_apply]

theorem link_next (hb₁ : b ∉ l₁) (x : Nat) :
    F.after (linkStores l₁ b l₂) (.nextBlockOffset x) =
      if x = b then l₂.headD nullOffset else if l₁ ≠ [] ∧ x = l₁.getLastD nullOffset then b
        else F (.nextBlockOffset x) := by
  have hne : l₁ ≠ [] → b ≠ l₁.getLastD nullOffset := fun h e => hb₁ (e ▸ getLastD_mem h _)
  unfold linkStores
  by_cases hb : x = b
  · subst hb
    by_cases h₁ : l₁ = [] <;> by_cases h₂ : l₂ = [] <;> simp_all
  · by_cases h₁ : l₁ = [] <;> by_cases h₂ : l₂ = [] <;> simp [h₁, h₂, hb, Function.update_apply]

theorem link_dataSize (x : Nat) : F.after (linkStores l₁ b l₂) (.dataSize x) = F (.dataSize x) := by
  unfold linkStores
  by_cases h₁ : l₁ = [] <;> by_cases h₂ : l₂ = [] <;> simp [h₁, h₂]

theorem link_head :
    F.after (linkStores l₁ b l₂) .nextFreeBlockOffset = if l₁ = [] then b else F .nextFreeBlockOffset := by
  unfold linkStores
  by_cases h₁ : l₁ = [] <;> by_cases h₂ : l₂ = [] <;> simp [h₁, h₂]

theorem link_usedHead : F.after (linkStores l₁ b l₂) .nextUsedBlockOffset = F .nextUsedBlockOffset := by
  unfold linkStores
  by_cases h₁ : l₁ = [] <;> by_cases h₂ : l₂ = [] <;> simp [h₁, h₂]

/-- The block is on the free list. -/
theorem link_isList (h : IsList F .nextFreeBlockOffset (l₁ ++ l₂)) (hl : (l₁ ++ b :: l₂).Nodup)
    (h₀ : nullOffset ∉ l₁ ++ l₂) :
    IsList (F.after (linkStores l₁ b l₂)) .nextFreeBlockOffset (l₁ ++ b :: l₂) := by
  have hb : b ∉ l₁ ++ l₂ := (List.nodup_cons.1 (List.nodup_middle.1 hl)).1
  have hb₁ : b ∉ l₁ := fun hm => hb (List.mem_append_left _ hm)
  have hb₂ : b ∉ l₂ := fun hm => hb (List.mem_append_right _ hm)
  have hne : ∀ x ∈ l₁ ++ l₂, x ≠ b := fun x hx e => hb (e ▸ hx)
  have h₀₁ : nullOffset ∉ l₁ := fun hm => h₀ (List.mem_append_left _ hm)
  have h₀₂ : nullOffset ∉ l₂ := fun hm => h₀ (List.mem_append_right _ hm)
  refine ⟨?_, h.seg.link hl ?_ ?_ ?_ ?_ ?_ ?_ h₀₁ h₀₂⟩
  · rw [link_head]
    split
    · rename_i e; subst e; rfl
    · rename_i e
      rw [h.head, headD_append, headD_append]
      cases l₁ with
      | nil => exact absurd rfl e
      | cons => rfl
  · rw [link_prev hb₂, if_pos rfl]
  · rw [link_next hb₁, if_pos rfl]
  · intro y hy hy'
    rw [link_prev hb₂, if_neg (hne y hy), if_neg (fun e => hy' e.2)]
  · intro h₂
    rw [link_prev hb₂, if_neg (hne _ (List.mem_append_right _ (headD_mem h₂ _))), if_pos ⟨h₂, rfl⟩]
  · intro y hy hy'
    rw [link_next hb₁, if_neg (hne y hy), if_neg (fun e => hy' e.2)]
  · intro h₁
    rw [link_next hb₁, if_neg (hne _ (List.mem_append_left _ (getLastD_mem h₁ _))), if_pos ⟨h₁, rfl⟩]

/-- The used list is not touched. -/
theorem link_usedList {l : List Nat} (hl : (l₁ ++ b :: l₂).Nodup) (h : IsList F .nextUsedBlockOffset l)
    (hd : ∀ x ∈ l₁ ++ b :: l₂, x ∉ l) : IsList (F.after (linkStores l₁ b l₂)) .nextUsedBlockOffset l := by
  have hb : b ∉ l₁ ++ l₂ := (List.nodup_cons.1 (List.nodup_middle.1 hl)).1
  have hne : ∀ x ∈ l, x ≠ b := fun x hx e => hd b (by simp) (e ▸ hx)
  refine h.congr link_usedHead ?_ ?_
  · intro x hx
    rw [link_prev (fun hm => hb (List.mem_append_right _ hm)), if_neg (hne x hx), if_neg]
    rintro ⟨h₂, rfl⟩
    exact hd _ (List.mem_append_right _ (List.mem_cons_of_mem _ (headD_mem h₂ _))) hx
  · intro x hx
    rw [link_next (fun hm => hb (List.mem_append_left _ hm)), if_neg (hne x hx), if_neg]
    rintro ⟨h₁, rfl⟩
    exact hd _ (List.mem_append_left _ (getLastD_mem h₁ _)) hx

theorem push_prev (x : Nat) :
    F.after (pushStores b l₂) (.prevBlockOffset x) =
      if x = b then nullOffset else if l₂ ≠ [] ∧ x = l₂.headD nullOffset then b else F (.prevBlockOffset x) := by
  unfold pushStores
  by_cases hb : x = b <;> by_cases h₂ : l₂ = [] <;> simp [h₂, hb, Function.update_apply]

theorem push_next (x : Nat) :
    F.after (pushStores b l₂) (.nextBlockOffset x) = if x = b then l₂.headD nullOffset else F (.nextBlockOffset x) := by
  unfold pushStores
  by_cases hb : x = b <;> by_cases h₂ : l₂ = [] <;> simp [h₂, hb]

theorem push_dataSize (x : Nat) : F.after (pushStores b l₂) (.dataSize x) = F (.dataSize x) := by
  unfold pushStores
  by_cases h₂ : l₂ = [] <;> simp [h₂]

theorem push_head : F.after (pushStores b l₂) .nextUsedBlockOffset = b := by
  unfold pushStores
  by_cases h₂ : l₂ = [] <;> simp [h₂]

theorem push_freeHead : F.after (pushStores b l₂) .nextFreeBlockOffset = F .nextFreeBlockOffset := by
  unfold pushStores
  by_cases h₂ : l₂ = [] <;> simp [h₂]

/-- The block is at the front of the used list. -/
theorem push_isList (h : IsList F .nextUsedBlockOffset l₂) (hl : (b :: l₂).Nodup) :
    IsList (F.after (pushStores b l₂)) .nextUsedBlockOffset (b :: l₂) := by
  obtain ⟨hb, hl₂⟩ := List.nodup_cons.1 hl
  have hne : ∀ x ∈ l₂, x ≠ b := fun x hx e => hb (e ▸ hx)
  refine ⟨push_head, ?_, ?_, h.seg.retie_left hl₂ ?_ ?_ ?_⟩
  · show F.after _ _ = _
    rw [push_prev, if_pos rfl]
  · show F.after _ _ = _
    rw [push_next, if_pos rfl]
  · intro y hy hy'
    rw [push_prev, if_neg (hne y hy), if_neg (fun e => hy' e.2)]
  · intro h₂
    rw [push_prev, if_neg (hne _ (headD_mem h₂ _)), if_pos ⟨h₂, rfl⟩]
  · intro y hy
    rw [push_next, if_neg (hne y hy)]

/-- The free list is not touched. -/
theorem push_freeList {l : List Nat} (h : IsList F .nextFreeBlockOffset l)
    (hd : ∀ x ∈ b :: l₂, x ∉ l) : IsList (F.after (pushStores b l₂)) .nextFreeBlockOffset l := by
  have hne : ∀ x ∈ l, x ≠ b := fun x hx e => hd b (List.mem_cons_self ..) (e ▸ hx)
  refine h.congr push_freeHead ?_ ?_
  · intro x hx
    rw [push_prev, if_neg (hne x hx), if_neg]
    rintro ⟨h₂, rfl⟩
    exact hd _ (List.mem_cons_of_mem _ (headD_mem h₂ _)) hx
  · intro x hx
    rw [push_next, if_neg (hne x hx)]

/-- `insert_block_to_used_list` on a block that is not on the used list. -/
theorem exec_insertBlockToUsedList {D : Set Nat} {db : Nat} (hD : Headers D db F)
    (h : IsList F .nextUsedBlockOffset l₂) (hmem : ∀ x ∈ b :: l₂, x ∈ D) :
    Exec D db F (insertBlockToUsedList b) () (pushStores b l₂) := by
  have hb : b ∈ D := hmem b (List.mem_cons_self ..)
  have hbp : (Field.prevBlockOffset b).On D := hb
  have hbn : (Field.nextBlockOffset b).On D := hb
  have hu : Field.nextUsedBlockOffset.On D := trivial
  have h0 : nullOffset < 2 ^ 64 := Nat.two_pow_pos 64
  have hb64 : b < 2 ^ 64 := by
    have := hD.inside b hb
    have := hD.small
    omega
  have hrest : ∀ G : Words, Headers D db G → G .nextUsedBlockOffset = l₂.headD nullOffset →
      Exec D db G (do
        store (.prevBlockOffset b) nullOffset
        store (.nextBlockOffset b) (← load .nextUsedBlockOffset)
        store .nextUsedBlockOffset b) ()
        [(.prevBlockOffset b, nullOffset), (.nextBlockOffset b, l₂.headD nullOffset), (.nextUsedBlockOffset, b)] := by
    intro G hG hh
    refine exec_store_bind hG hbp h0 (exec_load_bind (hG.update h0) hu ?_)
    have hv : Function.update G (.prevBlockOffset b) nullOffset .nextUsedBlockOffset = l₂.headD nullOffset := by
      rw [Function.update_of_ne (by simp), hh]
    have hv64 : l₂.headD nullOffset < 2 ^ 64 := hh ▸ hG.bounded _ hu
    rw [hv]
    exact exec_store_bind (hG.update h0) hbn hv64 (exec_store ((hG.update h0).update hv64) hu hb64)
  unfold insertBlockToUsedList pushStores
  apply exec_load_bind hD hu
  dsimp only
  by_cases h₂ : l₂ = []
  · rw [if_neg (by rw [h.head, h₂]; simp), if_pos h₂]
    exact hrest F hD h.head
  · have hm := hmem _ (List.mem_cons_of_mem _ (headD_mem h₂ nullOffset))
    have hsn : (Field.prevBlockOffset (l₂.headD nullOffset)).On D := hm
    rw [if_pos (by rw [h.head]; exact hD.ne_null hm), if_neg h₂]
    apply exec_load_bind hD hu
    rw [h.head]
    refine exec_store_bind hD hsn hb64 (hrest _ (hD.update hb64) ?_)
    rw [Function.update_of_ne (by simp), h.head]

/-- The linking part of `insert_block_to_free_list`. -/
theorem exec_linkFreeBlock {D : Set Nat} {db : Nat} (hD : Headers D db F)
    (h : IsList F .nextFreeBlockOffset (l₁ ++ l₂)) (hmem : ∀ x ∈ l₁ ++ b :: l₂, x ∈ D) {curr : Nat}
    (hcurr : l₁ = [] → curr = l₂.headD nullOffset) :
    Exec D db F (linkFreeBlock b curr (l₁.getLastD nullOffset) (l₂.headD nullOffset)) () (linkStores l₁ b l₂) := by
  have hb : b ∈ D := hmem b (by simp)
  have hbp : (Field.prevBlockOffset b).On D := hb
  have hbn : (Field.nextBlockOffset b).On D := hb
  have hf : Field.nextFreeBlockOffset.On D := trivial
  have hlt : ∀ x ∈ D, x < 2 ^ 64 := fun x hx => by
    have := hD.inside x hx
    have := hD.small
    omega
  have hb64 := hlt b hb
  have hlast : l₁ ≠ [] → l₁.getLastD nullOffset ∈ D := fun e => hmem _ (List.mem_append_left _ (getLastD_mem e _))
  have hhead : l₂ ≠ [] → l₂.headD nullOffset ∈ D :=
    fun e => hmem _ (List.mem_append_right _ (List.mem_cons_of_mem _ (headD_mem e _)))
  have hlast64 : l₁.getLastD nullOffset < 2 ^ 64 := by
    by_cases e : l₁ = []
    · subst e; exact Nat.two_pow_pos 64
    · exact hlt _ (hlast e)
  have hhead64 : l₂.headD nullOffset < 2 ^ 64 := by
    by_cases e : l₂ = []
    · subst e; exact Nat.two_pow_pos 64
    · exact hlt _ (hhead e)
  have hD₂ : Headers D db (Function.update (Function.update F (.prevBlockOffset b) (l₁.getLastD nullOffset))
      (.nextBlockOffset b) (l₂.headD nullOffset)) := (hD.update hlast64).update hhead64
  -- the store to the successor, if there is one
  have hrest : ∀ G : Words, Headers D db G →
      Exec D db G (if l₂.headD nullOffset ≠ nullOffset then store (.prevBlockOffset (l₂.headD nullOffset)) b
        else pure ()) () (if l₂ = [] then [] else [(.prevBlockOffset (l₂.headD nullOffset), b)]) := by
    intro G hG
    by_cases h₂ : l₂ = []
    · rw [if_neg (by rw [h₂]; simp), if_pos h₂]; exact exec_pure ()
    · have hsn : (Field.prevBlockOffset (l₂.headD nullOffset)).On D := hhead h₂
      rw [if_pos (hG.ne_null (hhead h₂)), if_neg h₂]
      exact exec_store hG hsn hb64
  unfold linkFreeBlock linkStores
  refine exec_store_bind hD hbp hlast64 (exec_store_bind (hD.update hlast64) hbn hhead64 ?_)
  dsimp only
  by_cases h₁ : l₁ = []
  · rw [if_neg (by rw [h₁]; simp), if_pos h₁]
    refine exec_load_bind hD₂ hf (exec_assert_bind ?_ (exec_store_bind hD₂ hf hb64 (hrest _ (hD₂.update hb64))))
    rw [Function.update_of_ne (by simp), Function.update_of_ne (by simp), h.head, hcurr h₁, h₁]
    simp
  · have hsp : (Field.nextBlockOffset (l₁.getLastD nullOffset)).On D := hlast h₁
    rw [if_pos (hD.ne_null (hlast h₁)), if_neg h₁]
    exact exec_store_bind hD₂ hsp hb64 (hrest _ (hD₂.update hb64))

end

end KeyValueStore
