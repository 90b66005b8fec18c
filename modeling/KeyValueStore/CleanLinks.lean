import KeyValueStore.Alloc

/-!
# The links of what is no block

`D` is a set of offsets.  A layout is clean on `D` when the links at every offset of `D` that is no block of the layout are
`NULL` (`Layout.Clean`).  The routines of the buffer keep that: a block leaves a list only through `remove_block_from_list`,
which sets its links to `NULL`, so also a block that is merged away leaves `NULL` links behind.
-/

namespace KeyValueStore

open DoublyLinked

variable {D D' : Set Nat} {F : Words} {L L' : Layout} {l₁ l₂ u u₁ u₂ : List Block} {b c : Block} {db n x : Nat}

/-- Both links at the offset are `NULL`. -/
def Words.Unlinked (F : Words) (x : Nat) : Prop :=
  F (.prevBlockOffset x) = nullOffset ∧ F (.nextBlockOffset x) = nullOffset

/-- The words hold the layout, and the links at the other offsets of `D` are `NULL`. -/
structure Layout.Clean (D : Set Nat) (F : Words) (L : Layout) : Prop where
  holds : L.Holds F
  distinct : L.Distinct
  cleared : ∀ x ∈ D, x ∉ offsets L.blocks → F.Unlinked x

private theorem mem_offsets_append {l l' : List Block} : x ∈ offsets (l ++ l') ↔ x ∈ offsets l ∨ x ∈ offsets l' := by
  rw [offsets, List.map_append, List.mem_append]

private theorem mem_offsets_blocks : x ∈ offsets L.blocks ↔ x ∈ offsets L.free ∨ x ∈ offsets L.used := mem_offsets_append

private theorem ne_headD {l : List Nat} (h : x ∉ l) : ¬ (l ≠ [] ∧ x = l.headD nullOffset) :=
  fun e => h (e.2 ▸ headD_mem e.1 _)

private theorem ne_getLastD {l : List Nat} (h : x ∉ l) : ¬ (l ≠ [] ∧ x = l.getLastD nullOffset) :=
  fun e => h (e.2 ▸ getLastD_mem e.1 _)

/-! ### The routines -/

/-- A removed block has `NULL` links, and nodes that are not on the list keep theirs. -/
private theorem unlinked_unlink {listHead : Field} (hh : listHead.IsHead) {m₁ m₂ : List Nat} {y : Nat} (h₁ : x ∉ m₁)
    (h₂ : x ∉ m₂) (hF : x ≠ y → F.Unlinked x) : (F.after (unlinkStores listHead m₁ y m₂)).Unlinked x := by
  by_cases hx : x = y
  · exact ⟨by rw [unlink_prev hh, if_pos hx], by rw [unlink_next hh, if_pos hx]⟩
  · obtain ⟨hp, hn⟩ := hF hx
    constructor
    · rw [unlink_prev hh, if_neg hx, if_neg (ne_headD h₂), hp]
    · rw [unlink_next hh, if_neg hx, if_neg (ne_getLastD h₁), hn]

theorem Layout.Clean.unlinkFree (h : Layout.Clean D F ⟨l₁ ++ b :: l₂, u⟩) :
    Layout.Clean D (F.after (unlinkStores .nextFreeBlockOffset (offsets l₁) b.offset (offsets l₂))) ⟨l₁ ++ l₂, u⟩ := by
  refine ⟨h.holds.unlinkFree h.distinct, h.distinct.erase, fun x hx hm => ?_⟩
  simp only [mem_offsets_blocks, mem_offsets_append, not_or] at hm
  refine unlinked_unlink (Or.inl rfl) hm.1.1 hm.1.2 fun hne => h.cleared x hx ?_
  simp only [mem_offsets_blocks, mem_offsets_append, List.map_cons, List.mem_cons]
  tauto

theorem Layout.Clean.unlinkUsed (h : Layout.Clean D F ⟨l₁, u₁ ++ b :: u₂⟩) :
    Layout.Clean D (F.after (unlinkStores .nextUsedBlockOffset (offsets u₁) b.offset (offsets u₂))) ⟨l₁, u₁ ++ u₂⟩ := by
  have hs : (offsets (Layout.blocks ⟨l₁, u₁ ++ u₂⟩)).Sublist (offsets (Layout.blocks ⟨l₁, u₁ ++ b :: u₂⟩)) :=
    (List.Sublist.append_left (List.Sublist.append_left (List.sublist_cons_self b u₂) u₁) l₁).map _
  refine ⟨h.holds.unlinkUsed h.distinct, ⟨h.distinct.nodup.sublist hs, fun hm => h.distinct.ne_null (hs.subset hm)⟩,
    fun x hx hm => ?_⟩
  simp only [mem_offsets_blocks, mem_offsets_append, not_or] at hm
  refine unlinked_unlink (Or.inr rfl) hm.2.1 hm.2.2 fun hne => h.cleared x hx ?_
  simp only [mem_offsets_blocks, mem_offsets_append, List.map_cons, List.mem_cons]
  tauto

theorem Layout.Clean.link (h : Layout.Clean D F ⟨l₁ ++ l₂, u⟩) (hd : Layout.Distinct ⟨l₁ ++ b :: l₂, u⟩)
    (hb : F (.dataSize b.offset) = b.dataSize) :
    Layout.Clean D (F.after (linkStores (offsets l₁) b.offset (offsets l₂))) ⟨l₁ ++ b :: l₂, u⟩ := by
  have hn := hd.free_nodup
  simp only [offsets, List.map_append, List.map_cons] at hn
  have hnot := (List.nodup_cons.1 (List.nodup_middle.1 hn)).1
  refine ⟨h.holds.link hd hb, hd, fun x hx hm => ?_⟩
  simp only [mem_offsets_blocks, mem_offsets_append, List.map_cons, List.mem_cons, not_or] at hm
  obtain ⟨⟨h₁, hne, h₂⟩, hu⟩ := hm
  obtain ⟨hp, hn⟩ : F.Unlinked x := by
    apply h.cleared x hx
    simp only [mem_offsets_blocks, mem_offsets_append]
    tauto
  constructor
  · rw [link_prev (fun hm => hnot (List.mem_append_right _ hm)), if_neg hne, if_neg (ne_headD h₂), hp]
  · rw [link_next (fun hm => hnot (List.mem_append_left _ hm)), if_neg hne, if_neg (ne_getLastD h₁), hn]

theorem Layout.Clean.push (h : Layout.Clean D F ⟨l₁, u⟩) (hd : Layout.Distinct ⟨l₁, b :: u⟩)
    (hb : F (.dataSize b.offset) = b.dataSize) :
    Layout.Clean D (F.after (pushStores b.offset (offsets u))) ⟨l₁, b :: u⟩ := by
  refine ⟨h.holds.push hd hb, hd, fun x hx hm => ?_⟩
  simp only [mem_offsets_blocks, List.map_cons, List.mem_cons, not_or] at hm
  obtain ⟨h₁, hne, hu⟩ := hm
  obtain ⟨hp, hn⟩ : F.Unlinked x := by
    apply h.cleared x hx
    simp only [mem_offsets_blocks]
    tauto
  constructor
  · rw [push_prev, if_neg hne, if_neg (ne_headD hu), hp]
  · rw [push_next, if_neg hne, hn]

theorem Layout.Clean.setSize (h : Layout.Clean D F ⟨l₁ ++ b :: l₂, u⟩) (v : Nat) :
    Layout.Clean D (Function.update F (.dataSize b.offset) v) ⟨l₁ ++ ⟨b.offset, v⟩ :: l₂, u⟩ := by
  have ho : offsets (Layout.blocks ⟨l₁ ++ ⟨b.offset, v⟩ :: l₂, u⟩) = offsets (Layout.blocks ⟨l₁ ++ b :: l₂, u⟩) := by
    simp [Layout.blocks]
  refine ⟨h.holds.setSize h.distinct v, ⟨ho ▸ h.distinct.nodup, ho ▸ h.distinct.ne_null⟩, fun x hx hm => ?_⟩
  obtain ⟨hp, hn⟩ := h.cleared x hx (ho ▸ hm)
  exact ⟨by rw [Function.update_of_ne (by simp), hp], by rw [Function.update_of_ne (by simp), hn]⟩

private theorem Layout.Clean.setSize_of_notMem (h : L.Clean D F) (hx : x ∉ offsets L.blocks) (v : Nat) :
    L.Clean D (Function.update F (.dataSize x) v) := by
  refine ⟨⟨h.holds.free.congr (by simp) (by simp) (by simp), h.holds.used.congr (by simp) (by simp) (by simp),
    fun b hb => ?_⟩, h.distinct, fun y hy hm => ?_⟩
  · have hne : b.offset ≠ x := fun e => hx (e ▸ List.mem_map_of_mem hb)
    rw [Function.update_of_ne (by simpa using hne)]
    exact h.holds.sizes b hb
  · obtain ⟨hp, hn⟩ := h.cleared y hy hm
    exact ⟨by rw [Function.update_of_ne (by simp), hp], by rw [Function.update_of_ne (by simp), hn]⟩

private theorem Layout.Clean.of_holds (h : L.Clean D F) (hL' : L'.Holds F) (hd : L'.Distinct) : L'.Clean D F := by
  have hfree := hL'.free.unique h.holds.free hd.free_ne_null h.distinct.free_ne_null
  have hused := hL'.used.unique h.holds.used hd.used_ne_null h.distinct.used_ne_null
  refine ⟨hL', hd, fun x hx hm => h.cleared x hx ?_⟩
  rw [mem_offsets_blocks] at hm ⊢
  rwa [offsets, offsets, ← hfree, ← hused]

/-! ### `insert_block_to_free_list` -/

/-- A merge removes the blocks that it absorbs. -/
theorem Layout.Clean.merge (h : Layout.Clean D F ⟨l₁ ++ b :: l₂, u⟩) :
    ∃ l, Layout.Clean D (F.after (mergeStores l₁ b l₂)) ⟨l, u⟩ := by
  unfold mergeStores
  rcases hp : l₁.getLast?.filter (fun p => p.stop = b.offset) with _ | p <;>
    rcases hn : l₂.head?.filter (fun n => b.stop = n.offset) with _ | n <;>
    simp only [hp, hn]
  · exact ⟨_, h⟩
  · obtain ⟨r, rfl, -⟩ := head?_filter_eq_some hn
    have hclean : Layout.Clean D F ⟨(l₁ ++ [b]) ++ n :: r, u⟩ := by simpa using h
    have hun := hclean.unlinkFree
    rw [List.append_assoc] at hun
    rw [Words.after_append]
    exact ⟨_, hun.setSize _⟩
  · obtain ⟨l, rfl, -⟩ := getLast?_filter_eq_some hp
    have hun := h.unlinkFree
    rw [List.append_assoc] at hun
    rw [Words.after_append]
    exact ⟨_, hun.setSize _⟩
  · obtain ⟨l, rfl, -⟩ := getLast?_filter_eq_some hp
    obtain ⟨r, rfl, -⟩ := head?_filter_eq_some hn
    have hun := h.unlinkFree.unlinkFree
    rw [List.append_assoc] at hun
    rw [Words.after_append, Words.after_append]
    exact ⟨_, hun.setSize _⟩

/-- A block on no list is inserted into the free list. -/
theorem Layout.Clean.insert (h : Layout.Clean D F ⟨l₁ ++ l₂, u⟩) (hi : Insertable D' db F l₁ b l₂ u) (hb : b.offset ∈ D)
    (hd : Layout.Distinct ⟨mergedFree l₁ b l₂, u⟩) :
    Layout.Clean D (F.after (insertStores l₁ b l₂)) ⟨mergedFree l₁ b l₂, u⟩ := by
  have hnot : b.offset ∉ offsets (Layout.blocks ⟨l₁ ++ l₂, u⟩) := by
    have hn := hi.distinct.nodup
    simp only [offsets, Layout.blocks, List.append_assoc, List.cons_append, List.map_append, List.map_cons] at hn ⊢
    exact (List.nodup_cons.1 (List.nodup_middle.1 hn)).1
  have hholds := holds_insertStores hi fun _ => h.cleared _ hb hnot
  by_cases hne : l₁ ++ l₂ = []
  · -- the links of the block are not stored, and they are `NULL`
    rw [insertStores, if_pos hne] at hholds ⊢
    refine ⟨hholds, hd, fun x hx hm => ?_⟩
    obtain ⟨hp, hn⟩ : F.Unlinked x := by
      apply h.cleared x hx
      rw [hne]
      rw [mem_offsets_blocks] at hm ⊢
      exact fun hm' => hm (hm'.imp (fun hf => absurd hf List.not_mem_nil) id)
    rw [Words.after_cons, Words.after_nil]
    exact ⟨by rw [Function.update_of_ne (by simp), hp], by rw [Function.update_of_ne (by simp), hn]⟩
  · rw [insertStores, if_neg hne, Words.after_append] at hholds ⊢
    obtain ⟨l, hl⟩ := (h.link hi.distinct hi.size).merge
    exact hl.of_holds hholds hd

/-! ### `alloc` and `free` -/

private theorem Layout.Distinct.of_cons_used (h : Layout.Distinct ⟨l₁, b :: u⟩) :
    b.offset ∉ offsets (Layout.blocks ⟨l₁, u⟩) ∧ Layout.Distinct ⟨l₁, u⟩ := by
  have hs : (offsets (Layout.blocks ⟨l₁, u⟩)).Sublist (offsets (Layout.blocks ⟨l₁, b :: u⟩)) :=
    (List.Sublist.append_left (List.sublist_cons_self b u) l₁).map _
  have hn := h.nodup
  rw [offsets, Layout.blocks, List.map_append, List.map_cons, List.nodup_middle, List.nodup_cons, ← List.map_append] at hn
  exact ⟨hn.1, hn.2, fun hm => h.ne_null (hs.subset hm)⟩

theorem Layout.Clean.whole (h : L.Clean D F) (hwf : L.WellFormed db) (hfree : L.free = l₁ ++ c :: l₂) :
    Layout.Clean D (F.after (wholeStores l₁ c l₂ L.used)) ⟨l₁ ++ l₂, c :: L.used⟩ := by
  have hc : c ∈ L.blocks := Layout.WellFormed.free_mem (by rw [hfree]; simp)
  have hd := (hwf.afterWhole hfree).distinct
  obtain ⟨fr, us⟩ := L
  obtain rfl : fr = l₁ ++ c :: l₂ := hfree
  rw [wholeStores, Words.after_append]
  refine h.unlinkFree.push hd ?_
  rw [unlink_dataSize (Or.inl rfl), h.holds.sizes c hc]

/-- In a clean layout the rest of a split is linked correctly, also as the only free block. -/
theorem Layout.Clean.split (h : L.Clean D F) (hwf : L.WellFormed db) (hdb : db < 2 ^ 31) (hF : ∀ f, F f < 2 ^ 64)
    (hfree : L.free = l₁ ++ c :: l₂) (hz : n + 124 ≤ c.dataSize) (hr : (c.rest n).offset ∈ D)
    (hrest : (c.rest n).offset ∉ offsets L.blocks) :
    Layout.Clean D (F.after (splitStores l₁ c n l₂ L.used)) (Layout.afterSplit l₁ c n l₂ L.used) := by
  have hins := insertable_of_split hwf hdb hF h.holds hfree hz
  have hd := (hwf.afterSplit hfree hz).distinct
  have hfit := hwf.mergedFree_rest hfree hz
  obtain ⟨fr, us⟩ := L
  obtain rfl : fr = l₁ ++ c :: l₂ := hfree
  have hun : Layout.Clean D (F.after (unlinkStores .nextFreeBlockOffset (offsets l₁) c.offset (offsets l₂) ++
      [(.dataSize (c.rest n).offset, (c.rest n).dataSize)])) ⟨l₁ ++ l₂, us⟩ := by
    rw [Words.after_append]
    refine h.unlinkFree.setSize_of_notMem (fun hm => hrest ?_) _
    simp only [mem_offsets_blocks, mem_offsets_append, List.map_cons, List.mem_cons] at hm ⊢
    tauto
  obtain ⟨hc, hd₁⟩ := hd.of_cons_used
  have hrest₁ := hun.insert hins hr (hfit ▸ hd₁)
  rw [hfit] at hrest₁
  have := (hrest₁.setSize_of_notMem hc n).push (b := ⟨c.offset, n⟩) hd (by simp)
  simpa [splitStores, cutStores, restStores, Words.after_append, Layout.afterSplit] using this

theorem Layout.Clean.free (h : L.Clean D F) (hwf : L.WellFormed db) (hdb : db < 2 ^ 31) (hF : ∀ f, F f < 2 ^ 64)
    (hu : L.used = u₁ ++ b :: u₂) (hb : b.offset ∈ D) :
    (L.afterFree b).Clean D (F.after (freeStores L u₁ b u₂)) := by
  have hbu : b ∈ L.used := by rw [hu]; simp
  have hd := (hwf.afterFree hbu).distinct
  have hun : Layout.Clean D (F.after (unlinkStores .nextUsedBlockOffset (offsets u₁) b.offset (offsets u₂)))
      ⟨L.before b ++ L.behind b, u₁ ++ u₂⟩ := by
    rw [L.before_append_behind b]
    obtain ⟨fr, us⟩ := L
    obtain rfl : us = u₁ ++ b :: u₂ := hu
    exact h.unlinkUsed
  have hstores : StoresOn {x | x ∈ offsets L.blocks}
      (unlinkStores .nextUsedBlockOffset (offsets u₁) b.offset (offsets u₂)) := fun w hw =>
    (exec_free hwf.sound hdb hF h.holds hu).stores w (List.mem_append_left _ hw)
  have hsize : F.after (unlinkStores .nextUsedBlockOffset (offsets u₁) b.offset (offsets u₂)) (.dataSize b.offset) =
      b.dataSize := by
    rw [unlink_dataSize (Or.inr rfl), h.holds.sizes b (Layout.WellFormed.used_mem hbu)]
  have hins := hwf.sound.insertable ((hwf.headers hdb hF).after hstores) hu (hwf.sound.unlinked h.holds hu) hsize
  rw [Layout.afterFree, hwf.sound.erase_used hu, ← hwf.mergedFree_eq hbu] at hd ⊢
  rw [freeStores, Words.after_append]
  exact hun.insert hins hb hd

end KeyValueStore
