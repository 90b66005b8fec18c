import KeyValueStore.ListRoutines

/-!
# Sorted insertion into the free list

`insertFree b l` is the free list `l` with the block `b` added in file order and merged with the free block that ends at
it and with the free block that starts at its end.  `insert_block_to_free_list` finds the place (`exec_findFreePosition_from`,
`exec_freeNeighbours`), links the block in and merges it by removing the absorbed blocks again
(`exec_mergeFreeBlock`).  It does so in a free list of any order; in one that is in file order the free list it leaves is
`insertFree b l` (`holds_insertStores`, `mergedFree_eq_insertFree`).
-/

namespace KeyValueStore

open DoublyLinked

/-- The block `b` in front of `l`, merged with the first block of `l` if they touch. -/
def joinNext (b : Block) : List Block → List Block
  | [] => [b]
  | n :: l => if b.stop = n.offset then b.join n :: l else b :: n :: l

/-- The free list with `b` added in file order and merged with the blocks it touches. -/
def insertFree (b : Block) : List Block → List Block
  | [] => [b]
  | c :: l =>
    if b.offset < c.offset then joinNext b (c :: l)
    else if c.stop = b.offset then joinNext (c.join b) l
    else c :: insertFree b l

theorem insertFree_of_gap {b : Block} {l₁ l₂ : List Block}
    (h₁ : ∀ x ∈ l₁, x.offset < b.offset ∧ x.stop ≠ b.offset) (h₂ : ∀ x ∈ l₂, b.offset < x.offset) :
    insertFree b (l₁ ++ l₂) = l₁ ++ joinNext b l₂ := by
  induction l₁ with
  | nil =>
    cases l₂ with
    | nil => rfl
    | cons n l₂ => simp only [List.nil_append, insertFree, if_pos (h₂ n (List.mem_cons_self ..))]
  | cons x l₁ ih =>
    obtain ⟨hx, hx'⟩ := h₁ x (List.mem_cons_self ..)
    simp only [List.cons_append, insertFree, if_neg (Nat.lt_asymm hx), if_neg hx',
      ih (fun y hy => h₁ y (List.mem_cons_of_mem _ hy))]

private theorem insertFree_of_touch {b p : Block} {l₁ l₂ : List Block}
    (h₁ : ∀ x ∈ l₁, x.offset < b.offset ∧ x.stop ≠ b.offset) (hp : p.offset < b.offset) (hpb : p.stop = b.offset) :
    insertFree b (l₁ ++ p :: l₂) = l₁ ++ joinNext (p.join b) l₂ := by
  induction l₁ with
  | nil => simp only [List.nil_append, insertFree, if_neg (Nat.lt_asymm hp), if_pos hpb]
  | cons x l₁ ih =>
    obtain ⟨hx, hx'⟩ := h₁ x (List.mem_cons_self ..)
    simp only [List.cons_append, insertFree, if_neg (Nat.lt_asymm hx), if_neg hx',
      ih (fun y hy => h₁ y (List.mem_cons_of_mem _ hy))]

/-! ### The layout after each routine -/

/-- The offsets of the blocks of a list. -/
abbrev offsets (l : List Block) : List Nat := l.map Block.offset

/-- The blocks have different offsets, and none is `NULL`. -/
structure Layout.Distinct (L : Layout) : Prop where
  nodup : (offsets L.blocks).Nodup
  ne_null : nullOffset ∉ offsets L.blocks

section

variable {F : Words} {l₁ l₂ u u₁ u₂ : List Block} {b : Block}

theorem Layout.Distinct.perm {L L' : Layout} (h : L.Distinct) (hp : L.blocks.Perm L'.blocks) : L'.Distinct :=
  ⟨(hp.map _).nodup_iff.1 h.nodup, fun hm => h.ne_null ((hp.map _).mem_iff.2 hm)⟩

theorem Layout.Distinct.free_nodup {L : Layout} (h : L.Distinct) : (offsets L.free).Nodup := by
  have := h.nodup
  rw [offsets, Layout.blocks, List.map_append, List.nodup_append] at this
  exact this.1

theorem Layout.Distinct.used_nodup {L : Layout} (h : L.Distinct) : (offsets L.used).Nodup := by
  have := h.nodup
  rw [offsets, Layout.blocks, List.map_append, List.nodup_append] at this
  exact this.2.1

theorem Layout.Distinct.disjoint {L : Layout} (h : L.Distinct) : ∀ x ∈ offsets L.free, x ∉ offsets L.used := by
  have := h.nodup
  rw [offsets, Layout.blocks, List.map_append, List.nodup_append] at this
  exact fun x hx hx' => this.2.2 x hx x hx' rfl

theorem Layout.Distinct.free_ne_null {L : Layout} (h : L.Distinct) : nullOffset ∉ offsets L.free :=
  fun hm => h.ne_null (by rw [offsets, Layout.blocks, List.map_append]; exact List.mem_append_left _ hm)

theorem Layout.Distinct.used_ne_null {L : Layout} (h : L.Distinct) : nullOffset ∉ offsets L.used :=
  fun hm => h.ne_null (by rw [offsets, Layout.blocks, List.map_append]; exact List.mem_append_right _ hm)

theorem Layout.Distinct.erase (h : Layout.Distinct ⟨l₁ ++ b :: l₂, u⟩) : Layout.Distinct ⟨l₁ ++ l₂, u⟩ := by
  have hs : (offsets (Layout.blocks ⟨l₁ ++ l₂, u⟩)).Sublist (offsets (Layout.blocks ⟨l₁ ++ b :: l₂, u⟩)) :=
    ((List.Sublist.append_left (List.sublist_cons_self b l₂) l₁).append_right u).map _
  exact ⟨h.nodup.sublist hs, fun hm => h.ne_null (hs.subset hm)⟩

/-- A free block is removed from the free list. -/
theorem Layout.Holds.unlinkFree (h : Layout.Holds F ⟨l₁ ++ b :: l₂, u⟩) (hd : Layout.Distinct ⟨l₁ ++ b :: l₂, u⟩) :
    Layout.Holds (F.after (unlinkStores .nextFreeBlockOffset (offsets l₁) b.offset (offsets l₂))) ⟨l₁ ++ l₂, u⟩ := by
  have hf := h.free
  have hn := hd.free_nodup
  have h0 := hd.free_ne_null
  have hdj := hd.disjoint
  simp only [offsets, List.map_append, List.map_cons] at hf hn h0 hdj
  refine ⟨?_, ?_, ?_⟩
  · simp only [List.map_append]
    exact unlink_isList (Or.inl rfl) hf hn h0
  · exact unlink_otherList (Or.inl rfl) (Or.inr rfl) (by decide) h.used hdj
  · intro c hc
    rw [unlink_dataSize (Or.inl rfl)]
    apply h.sizes c
    simp only [Layout.blocks, List.mem_append, List.mem_cons] at hc ⊢
    tauto

/-- A used block is removed from the used list. -/
theorem Layout.Holds.unlinkUsed (h : Layout.Holds F ⟨l₁, u₁ ++ b :: u₂⟩) (hd : Layout.Distinct ⟨l₁, u₁ ++ b :: u₂⟩) :
    Layout.Holds (F.after (unlinkStores .nextUsedBlockOffset (offsets u₁) b.offset (offsets u₂))) ⟨l₁, u₁ ++ u₂⟩ := by
  have hu := h.used
  have hn := hd.used_nodup
  have h0 := hd.used_ne_null
  have hdj := hd.disjoint
  simp only [offsets, List.map_append, List.map_cons] at hu hn h0 hdj
  refine ⟨?_, ?_, ?_⟩
  · exact unlink_otherList (Or.inr rfl) (Or.inl rfl) (by decide) h.free (fun x hx hx' => hdj x hx' hx)
  · simp only [List.map_append]
    exact unlink_isList (Or.inr rfl) hu hn h0
  · intro c hc
    rw [unlink_dataSize (Or.inr rfl)]
    apply h.sizes c
    simp only [Layout.blocks, List.mem_append, List.mem_cons] at hc ⊢
    tauto

/-- A block on no list is linked into the free list. -/
theorem Layout.Holds.link (h : Layout.Holds F ⟨l₁ ++ l₂, u⟩) (hd : Layout.Distinct ⟨l₁ ++ b :: l₂, u⟩)
    (hb : F (.dataSize b.offset) = b.dataSize) :
    Layout.Holds (F.after (linkStores (offsets l₁) b.offset (offsets l₂))) ⟨l₁ ++ b :: l₂, u⟩ := by
  have hf := h.free
  have hn := hd.free_nodup
  have h0 := hd.free_ne_null
  have hdj := hd.disjoint
  simp only [offsets, List.map_append, List.map_cons] at hf hn h0 hdj
  refine ⟨?_, ?_, ?_⟩
  · simp only [List.map_append, List.map_cons]
    refine link_isList hf hn (fun hm => h0 ?_)
    simp only [List.mem_append, List.mem_cons] at hm ⊢
    tauto
  · exact link_usedList hn h.used hdj
  · intro c hc
    rw [link_dataSize]
    simp only [Layout.blocks, List.mem_append, List.mem_cons] at hc
    by_cases he : c = b
    · rw [he, hb]
    · apply h.sizes c
      simp only [Layout.blocks, List.mem_append]
      tauto

/-- A block on no list is put at the front of the used list. -/
theorem Layout.Holds.push (h : Layout.Holds F ⟨l₁, u⟩) (hd : Layout.Distinct ⟨l₁, b :: u⟩)
    (hb : F (.dataSize b.offset) = b.dataSize) :
    Layout.Holds (F.after (pushStores b.offset (offsets u))) ⟨l₁, b :: u⟩ := by
  have hn := hd.used_nodup
  have hdj := hd.disjoint
  refine ⟨?_, push_isList h.used hn, ?_⟩
  · exact push_freeList h.free (fun x hx hx' => hdj x hx' hx)
  · intro c hc
    rw [push_dataSize]
    simp only [Layout.blocks, List.mem_append, List.mem_cons] at hc
    by_cases he : c = b
    · rw [he, hb]
    · apply h.sizes c
      simp only [Layout.blocks, List.mem_append]
      tauto

/-- Storing a size changes the size of one free block. -/
theorem Layout.Holds.setSize (h : Layout.Holds F ⟨l₁ ++ b :: l₂, u⟩) (hd : Layout.Distinct ⟨l₁ ++ b :: l₂, u⟩)
    (v : Nat) : Layout.Holds (Function.update F (.dataSize b.offset) v) ⟨l₁ ++ ⟨b.offset, v⟩ :: l₂, u⟩ := by
  refine ⟨?_, ?_, ?_⟩
  · simpa using h.free.congr (by simp) (by simp) (by simp)
  · exact h.used.congr (by simp) (by simp) (by simp)
  · intro c hc
    have hn := hd.nodup
    have hs := h.sizes
    simp only [Layout.blocks, List.append_assoc, List.cons_append, offsets] at hc hn hs
    rw [List.map_append, List.map_cons, List.nodup_middle, List.nodup_cons, ← List.map_append] at hn
    have hc' : c = ⟨b.offset, v⟩ ∨ c ∈ l₁ ++ (l₂ ++ u) := by
      simp only [List.mem_append, List.mem_cons] at hc ⊢
      tauto
    rcases hc' with rfl | hc'
    · rw [Function.update_self]
    · have hne : c.offset ≠ b.offset := fun e => hn.1 (e ▸ List.mem_map_of_mem hc')
      rw [Function.update_of_ne (by simpa using hne)]
      apply hs c
      simp only [List.mem_append, List.mem_cons] at hc' ⊢
      tauto

/-! ### The routine -/

/-- The loop stops at the first block behind `b`, or at the last block of the list. -/
private theorem exec_findFreePosition_from {D : Set Nat} {db : Nat} (hD : Headers D db F) {b p fuel : Nat}
    {l₁ l₂ : List Nat}
    (h : Seg (fun x => F (.prevBlockOffset x)) (fun x => F (.nextBlockOffset x)) p (l₁ ++ l₂) nullOffset)
    (hmem : ∀ x ∈ l₁ ++ l₂, x ∈ D) (h₁ : ∀ x ∈ l₁, x < b) (h₂ : ∀ x ∈ l₂.head?, b < x) (hne : l₁ ++ l₂ ≠ [])
    (hfuel : l₁.length < fuel) :
    Exec D db F (findFreePosition b fuel ((l₁ ++ l₂).headD nullOffset))
      (if l₂ = [] then l₁.getLastD p else l₂.headD nullOffset) [] := by
  induction l₁ generalizing p fuel with
  | nil =>
    obtain ⟨fuel, rfl⟩ : ∃ k, fuel = k + 1 := ⟨fuel - 1, by simp at hfuel; omega⟩
    cases l₂ with
    | nil => exact absurd rfl hne
    | cons n l₂ =>
      rw [List.nil_append, if_neg (List.cons_ne_nil _ _), List.headD_cons, findFreePosition,
        if_pos (h₂ n rfl)]
      exact exec_pure n
  | cons x l₁ ih =>
    obtain ⟨fuel, rfl⟩ : ∃ k, fuel = k + 1 := ⟨fuel - 1, by simp at hfuel; omega⟩
    obtain ⟨-, hn, ht⟩ := h
    have hx : x ∈ D := hmem x (List.mem_cons_self ..)
    have hxn : (Field.nextBlockOffset x).On D := hx
    have hxb := h₁ x (List.mem_cons_self ..)
    rw [List.cons_append, List.headD_cons, findFreePosition, if_neg (Nat.lt_asymm hxb)]
    apply exec_load_bind hD hxn
    change F (.nextBlockOffset x) = _ at hn
    by_cases he : l₁ ++ l₂ = []
    · obtain ⟨rfl, rfl⟩ := List.append_eq_nil_iff.1 he
      rw [if_pos (by rw [hn]; rfl)]
      exact exec_pure x
    · have hm : (l₁ ++ l₂).headD nullOffset ∈ D := hmem _ (List.mem_cons_of_mem _ (headD_mem he _))
      rw [if_neg (by rw [hn]; exact hD.ne_null hm)]
      apply exec_load_bind hD hxn
      rw [hn, List.getLastD_cons]
      exact ih ht (fun y hy => hmem y (List.mem_cons_of_mem _ hy)) (fun y hy => h₁ y (List.mem_cons_of_mem _ hy)) he
        (by simpa using hfuel)

/-- The neighbours found are the last block in front of `b` and the first one behind it. -/
private theorem exec_freeNeighbours {D : Set Nat} {db : Nat} (hD : Headers D db F) {b : Nat} {l₁ l₂ : List Nat}
    (h : IsList F .nextFreeBlockOffset (l₁ ++ l₂)) (hmem : ∀ x ∈ l₁ ++ l₂, x ∈ D) (h₁ : ∀ x ∈ l₁, x < b)
    (h₂ : ∀ x ∈ l₂.head?, b < x) (hne : l₁ ++ l₂ ≠ []) :
    Exec D db F (freeNeighbours b (if l₂ = [] then l₁.getLastD nullOffset else l₂.headD nullOffset))
      (l₁.getLastD nullOffset, l₂.headD nullOffset) [] := by
  cases l₂ with
  | nil =>
    have hne₁ : l₁ ≠ [] := by simpa using hne
    obtain ⟨l, x, rfl⟩ : ∃ l x, l₁ = l ++ [x] := ⟨_, _, (List.dropLast_append_getLast hne₁).symm⟩
    have hlast : (l ++ [x]).getLastD nullOffset = x := by simp
    have hxb : x < b := h₁ x (by simp)
    have hxn : (Field.nextBlockOffset x).On D := hmem x (by simp)
    have hnext : F (.nextBlockOffset x) = nullOffset := by
      have hl : IsList F .nextFreeBlockOffset (l ++ x :: []) := by simpa using h
      exact hl.links.2
    rw [if_pos rfl, hlast, freeNeighbours, if_pos hxb]
    refine exec_load_bind hD hxn (exec_assert_bind (by rw [hnext]; rfl) (exec_load_bind hD hxn ?_))
    rw [hnext]
    exact exec_pure _
  | cons n l₂ =>
    have hbn : b < n := h₂ n rfl
    have hnp : (Field.prevBlockOffset n).On D := hmem n (by simp)
    have hprev : F (.prevBlockOffset n) = l₁.getLastD nullOffset := h.links.1
    rw [if_neg (List.cons_ne_nil _ _), List.headD_cons, freeNeighbours, if_neg (Nat.lt_asymm hbn), if_pos hbn]
    refine exec_load_bind hD hnp (exec_assert_bind ?_ ?_)
    · rw [hprev]
      by_cases he : l₁ = []
      · simp [he]
      · have := h₁ _ (getLastD_mem he nullOffset)
        simpa using Or.inr this
    · rw [hprev]
      exact exec_pure _

/-- The stores that merge `b` with the free blocks that it touches, once it is linked between `l₁` and `l₂`. -/
def mergeStores (l₁ : List Block) (b : Block) (l₂ : List Block) : List (Field × Nat) :=
  match l₁.getLast?.filter (fun p => p.stop = b.offset), l₂.head?.filter (fun n => b.stop = n.offset) with
  | some p, some n =>
    unlinkStores .nextFreeBlockOffset (offsets l₁) b.offset (offsets l₂) ++
      (unlinkStores .nextFreeBlockOffset (offsets l₁) n.offset (offsets l₂.tail) ++
        [(.dataSize p.offset, ((p.join b).join n).dataSize)])
  | some p, none =>
    unlinkStores .nextFreeBlockOffset (offsets l₁) b.offset (offsets l₂) ++
      [(.dataSize p.offset, (p.join b).dataSize)]
  | none, some n =>
    unlinkStores .nextFreeBlockOffset (offsets (l₁ ++ [b])) n.offset (offsets l₂.tail) ++
      [(.dataSize b.offset, (b.join n).dataSize)]
  | none, none => []

/-- The free list once `b` is linked between `l₁` and `l₂` and merged with the free blocks that it touches. -/
def mergedFree (l₁ : List Block) (b : Block) (l₂ : List Block) : List Block :=
  match l₁.getLast?.filter (fun p => p.stop = b.offset), l₂.head?.filter (fun n => b.stop = n.offset) with
  | some p, some n => l₁.dropLast ++ (p.join b).join n :: l₂.tail
  | some p, none => l₁.dropLast ++ p.join b :: l₂
  | none, some n => l₁ ++ b.join n :: l₂.tail
  | none, none => l₁ ++ b :: l₂

theorem add64_of_lt {a b : Nat} (h : a + b < 2 ^ 64) : add64 a b = a + b := Nat.mod_eq_of_lt h

theorem sub64_of_le {a b : Nat} (hb : b ≤ a) (ha : a < 2 ^ 64) : sub64 a b = a - b := by
  unfold sub64; omega

private theorem exec_contiguous {D : Set Nat} {db : Nat} (hD : Headers D db F) {c : Block} {neighbour next : Nat}
    (h : neighbour ≠ nullOffset) (hc : c.offset ∈ D) (hs : F (.dataSize c.offset) = c.dataSize)
    (hn : F (.nextBlockOffset c.offset) = next) (hstop : c.stop < 2 ^ 64) :
    Exec D db F (contiguous neighbour c.offset) (decide (c.stop = next)) [] := by
  have hcs : (Field.dataSize c.offset).On D := hc
  have hcn : (Field.nextBlockOffset c.offset).On D := hc
  rw [contiguous, if_pos h]
  refine exec_load_bind hD hcs (exec_load_bind hD hcn ?_)
  rw [hs, hn]
  unfold Block.stop at *
  rw [add64_of_lt (show c.offset + sizeofBlock < 2 ^ 64 by omega), add64_of_lt hstop]
  exact exec_pure _

/-- `remove_block_from_list` on a free block. -/
theorem exec_unlinkFree {D : Set Nat} {db : Nat} (hD : Headers D db F) (h : Layout.Holds F ⟨l₁ ++ b :: l₂, u⟩)
    (hd : Layout.Distinct ⟨l₁ ++ b :: l₂, u⟩) (hmem : ∀ x ∈ l₁ ++ b :: l₂, x.offset ∈ D) :
    Exec D db F (removeBlockFromList .nextFreeBlockOffset b.offset) ()
      (unlinkStores .nextFreeBlockOffset (offsets l₁) b.offset (offsets l₂)) := by
  have hf := h.free
  have hn := hd.free_nodup
  simp only [offsets, List.map_append, List.map_cons] at hf hn
  apply exec_removeBlockFromList hD (Or.inl rfl) hf hn
  intro x hx
  simp only [List.mem_append, List.mem_map, List.mem_cons] at hx hmem
  rcases hx with ⟨y, hy, rfl⟩ | rfl | ⟨y, hy, rfl⟩
  · exact hmem y (Or.inl hy)
  · exact hmem b (Or.inr (Or.inl rfl))
  · exact hmem y (Or.inr (Or.inr hy))

/-- What the insertion of `b` between `l₁` and `l₂` relies on, once `b` is linked. -/
private structure LinkedBetween (D : Set Nat) (db : Nat) (F : Words) (l₁ : List Block) (b : Block) (l₂ u : List Block) :
    Prop where
  headers : Headers D db F
  holds : Layout.Holds F ⟨l₁ ++ b :: l₂, u⟩
  distinct : Layout.Distinct ⟨l₁ ++ b :: l₂, u⟩
  mem : ∀ x ∈ l₁ ++ b :: l₂, x.offset ∈ D
  stop : ∀ x ∈ l₁ ++ b :: l₂, x.stop ≤ db

private theorem LinkedBetween.size {D : Set Nat} {db : Nat} (h : LinkedBetween D db F l₁ b l₂ u) {x : Block}
    (hx : x ∈ l₁ ++ b :: l₂) : F (.dataSize x.offset) = x.dataSize :=
  h.holds.sizes x (List.mem_append_left _ hx)

private theorem LinkedBetween.stop_lt {D : Set Nat} {db : Nat} (h : LinkedBetween D db F l₁ b l₂ u) {x : Block}
    (hx : x ∈ l₁ ++ b :: l₂) : x.stop < 2 ^ 64 := by
  have := h.stop x hx
  have := h.headers.small
  omega

private theorem exec_prevContiguous {D : Set Nat} {db : Nat} (h : LinkedBetween D db F l₁ b l₂ u) :
    Exec D db F (contiguous ((offsets l₁).getLastD nullOffset) ((offsets l₁).getLastD nullOffset))
      (l₁.getLast?.filter (fun p => p.stop = b.offset)).isSome [] := by
  rcases List.eq_nil_or_concat l₁ with rfl | ⟨l, p, rfl⟩
  · exact exec_pure false
  · rw [List.concat_eq_append] at h ⊢
    have hf := h.holds.free
    simp only [List.map_append, List.map_cons, List.append_assoc, List.cons_append, List.nil_append] at hf
    have hp : p ∈ l ++ [p] ++ b :: l₂ := by simp
    have hlast : (offsets (l ++ [p])).getLastD nullOffset = p.offset := by simp
    have hflag : ((l ++ [p]).getLast?.filter (fun p => p.stop = b.offset)).isSome = decide (p.stop = b.offset) := by
      by_cases e : p.stop = b.offset <;> simp [Option.filter, e]
    rw [hlast, hflag]
    exact exec_contiguous h.headers (h.headers.ne_null (h.mem p hp)) (h.mem p hp) (h.size hp) hf.links.2 (h.stop_lt hp)

private theorem exec_nextContiguous {D : Set Nat} {db : Nat} (h : LinkedBetween D db F l₁ b l₂ u) :
    Exec D db F (contiguous ((offsets l₂).headD nullOffset) b.offset)
      (l₂.head?.filter (fun n => b.stop = n.offset)).isSome [] := by
  cases l₂ with
  | nil => exact exec_pure false
  | cons n l₂ =>
    have hf := h.holds.free
    simp only [List.map_append, List.map_cons] at hf
    have hb : b ∈ l₁ ++ b :: n :: l₂ := by simp
    have hn : n ∈ l₁ ++ b :: n :: l₂ := by simp
    have hflag : ((n :: l₂).head?.filter (fun n => b.stop = n.offset)).isSome = decide (b.stop = n.offset) := by
      by_cases e : b.stop = n.offset <;> simp [Option.filter, e]
    rw [hflag]
    exact exec_contiguous h.headers (h.headers.ne_null (h.mem n hn)) (h.mem b hb) (h.size hb) hf.links.2 (h.stop_lt hb)

/-- The last step of a merge: the size of the block `c` becomes that of the merged block. -/
private theorem exec_growBlock {D : Set Nat} {db : Nat} (hD : Headers D db F) {c : Nat} (hc : c ∈ D) {a d : Nat}
    (ha : F (.dataSize c) = a) (hlt : a + d < 2 ^ 64) :
    Exec D db F (do store (.dataSize c) (add64 (← load (.dataSize c)) d)) () [(.dataSize c, a + d)] := by
  have hcs : (Field.dataSize c).On D := hc
  apply exec_load_bind hD hcs
  rw [ha, add64_of_lt hlt]
  exact exec_store hD hcs hlt

theorem getLast?_filter_eq_some {q : Block → Bool} {p : Block} (h : l₁.getLast?.filter q = some p) :
    ∃ l, l₁ = l ++ [p] ∧ q p = true := by
  obtain ⟨hp, hq⟩ := Option.filter_eq_some_iff.1 h
  obtain ⟨l, rfl⟩ := List.getLast?_eq_some_iff.1 hp
  exact ⟨l, rfl, hq⟩

theorem head?_filter_eq_some {q : Block → Bool} {n : Block} (h : l₂.head?.filter q = some n) :
    ∃ l, l₂ = n :: l ∧ q n = true := by
  obtain ⟨hp, hq⟩ := Option.filter_eq_some_iff.1 h
  obtain ⟨l, rfl⟩ := List.head?_eq_some_iff.1 hp
  exact ⟨l, rfl, hq⟩

private theorem exec_mergeFreeBlock {D : Set Nat} {db : Nat} (h : LinkedBetween D db F l₁ b l₂ u) :
    Exec D db F (mergeFreeBlock b.offset ((offsets l₁).getLastD nullOffset) ((offsets l₂).headD nullOffset)) ()
      (mergeStores l₁ b l₂) := by
  have hD := h.headers
  have hb : b ∈ l₁ ++ b :: l₂ := by simp
  have hbs : (Field.dataSize b.offset).On D := h.mem b hb
  have hf : Field.IsHead .nextFreeBlockOffset := Or.inl rfl
  unfold mergeFreeBlock mergeStores
  refine exec_read_bind hD (exec_prevContiguous h) (exec_read_bind hD (exec_nextContiguous h) ?_)
  rcases hp : l₁.getLast?.filter (fun p => p.stop = b.offset) with _ | p <;>
    rcases hn : l₂.head?.filter (fun n => b.stop = n.offset) with _ | n <;>
    simp only [hp, hn, Option.isSome_none, Option.isSome_some, Bool.and_true, Bool.and_false, Bool.false_eq_true,
      ↓reduceIte]
  · exact exec_pure ()
  · -- the next block is absorbed by `b`
    obtain ⟨r, rfl, hbn⟩ := head?_filter_eq_some hn
    have hn : n ∈ l₁ ++ b :: n :: r := by simp
    have hns : (Field.dataSize n.offset).On D := h.mem n hn
    have hbn : b.stop = n.offset := by simpa using hbn
    have hstop := h.stop_lt hn
    have hrm : Exec D db F (removeBlockFromList .nextFreeBlockOffset n.offset) ()
        (unlinkStores .nextFreeBlockOffset (offsets (l₁ ++ [b])) n.offset (offsets r)) :=
      exec_unlinkFree hD (by simpa using h.holds) (by simpa using h.distinct) (by simpa using h.mem)
    have hD₁ := hD.after hrm.stores
    refine exec_bind hD hrm (exec_load_bind hD₁ hns ?_)
    rw [unlink_dataSize hf, h.size hn]
    unfold Block.stop sizeofBlock at *
    rw [add64_of_lt (by omega)]
    exact exec_growBlock hD₁ (h.mem b hb) (by rw [unlink_dataSize hf, h.size hb]) (by omega)
  · -- `b` is absorbed by the previous block
    obtain ⟨l, rfl, hpb⟩ := getLast?_filter_eq_some hp
    have hp : p ∈ l ++ [p] ++ b :: l₂ := by simp
    have hpb : p.stop = b.offset := by simpa using hpb
    have hstop := h.stop_lt hb
    have hlast : (offsets (l ++ [p])).getLastD nullOffset = p.offset := by simp
    have hrm := exec_unlinkFree hD h.holds h.distinct h.mem
    have hD₁ := hD.after hrm.stores
    refine exec_bind hD hrm (exec_load_bind hD₁ hbs ?_)
    rw [hlast, unlink_dataSize hf, h.size hb]
    unfold Block.stop sizeofBlock at *
    rw [add64_of_lt (by omega)]
    exact exec_growBlock hD₁ (h.mem p hp) (by rw [unlink_dataSize hf, h.size hp]) (by omega)
  · -- `b` and the next block are absorbed by the previous block
    obtain ⟨l, rfl, hpb⟩ := getLast?_filter_eq_some hp
    obtain ⟨r, rfl, hbn⟩ := head?_filter_eq_some hn
    have hp : p ∈ l ++ [p] ++ b :: n :: r := by simp
    have hn : n ∈ l ++ [p] ++ b :: n :: r := by simp
    have hns : (Field.dataSize n.offset).On D := h.mem n hn
    have hpb : p.stop = b.offset := by simpa using hpb
    have hbn : b.stop = n.offset := by simpa using hbn
    have hstop := h.stop_lt hn
    have hlast : (offsets (l ++ [p])).getLastD nullOffset = p.offset := by simp
    have hrm := exec_unlinkFree hD h.holds h.distinct h.mem
    have hD₁ := hD.after hrm.stores
    have hd₁ : Layout.Distinct ⟨l ++ [p] ++ n :: r, u⟩ := h.distinct.erase
    have hrm₂ := exec_unlinkFree hD₁ (h.holds.unlinkFree h.distinct) hd₁ (fun x hx => h.mem x (by
      simp only [List.mem_append, List.mem_cons] at hx ⊢; tauto))
    have hD₂ := hD₁.after hrm₂.stores
    refine exec_bind hD hrm (exec_bind hD₁ hrm₂ (exec_load_bind hD₂ hbs ?_))
    apply exec_load_bind hD₂ hns
    rw [hlast, unlink_dataSize hf, unlink_dataSize hf, unlink_dataSize hf, unlink_dataSize hf, h.size hb, h.size hn]
    unfold Block.stop sizeofBlock at *
    rw [add64_of_lt (a := 24) (by omega), add64_of_lt (a := 24) (by omega), add64_of_lt (by omega)]
    have hsum : ((p.join b).join n).dataSize = p.dataSize + (24 + b.dataSize + (24 + n.dataSize)) := by
      simp only [Block.join, sizeofBlock]; omega
    rw [hsum]
    exact exec_growBlock hD₂ (h.mem p hp) (by rw [unlink_dataSize hf, unlink_dataSize hf, h.size hp]) (by omega)

private theorem holds_mergeStores {D : Set Nat} {db : Nat} (h : LinkedBetween D db F l₁ b l₂ u) :
    Layout.Holds (F.after (mergeStores l₁ b l₂)) ⟨mergedFree l₁ b l₂, u⟩ := by
  unfold mergeStores mergedFree
  rcases hp : l₁.getLast?.filter (fun p => p.stop = b.offset) with _ | p <;>
    rcases hn : l₂.head?.filter (fun n => b.stop = n.offset) with _ | n <;>
    simp only [hp, hn]
  · exact h.holds
  · obtain ⟨r, rfl, -⟩ := head?_filter_eq_some hn
    have hholds : Layout.Holds F ⟨l₁ ++ [b] ++ n :: r, u⟩ := by simpa using h.holds
    have hd : Layout.Distinct ⟨l₁ ++ [b] ++ n :: r, u⟩ := by simpa using h.distinct
    have hd₁ : Layout.Distinct ⟨l₁ ++ b :: r, u⟩ := by simpa using hd.erase
    have hun := hholds.unlinkFree hd
    rw [List.append_assoc] at hun
    rw [Words.after_append]
    exact hun.setSize hd₁ _
  · obtain ⟨l, rfl, -⟩ := getLast?_filter_eq_some hp
    have hd₁ : Layout.Distinct ⟨l ++ p :: l₂, u⟩ := by simpa using h.distinct.erase
    have hun := h.holds.unlinkFree h.distinct
    rw [List.append_assoc] at hun
    rw [List.dropLast_concat, Words.after_append]
    exact hun.setSize hd₁ _
  · obtain ⟨l, rfl, -⟩ := getLast?_filter_eq_some hp
    obtain ⟨r, rfl, -⟩ := head?_filter_eq_some hn
    have hd₁ := h.distinct.erase
    have hd₂ : Layout.Distinct ⟨l ++ p :: r, u⟩ := by simpa using hd₁.erase
    have hun := (h.holds.unlinkFree h.distinct).unlinkFree hd₁
    rw [List.append_assoc] at hun
    rw [List.dropLast_concat, Words.after_append, Words.after_append]
    exact hun.setSize hd₂ _

/-- In a list in file order with a gap behind each block the merge is the insertion in file order. -/
theorem mergedFree_eq_insertFree (hgap : l₁.Pairwise (fun x y => x.stop ≤ y.offset))
    (h₁ : ∀ x ∈ l₁, x.offset < b.offset) (h₂ : ∀ x ∈ l₂, b.offset < x.offset) :
    mergedFree l₁ b l₂ = insertFree b (l₁ ++ l₂) := by
  -- only the last block of `l₁` can touch `b`
  have hlast : ∀ l p, l₁ = l ++ [p] → ∀ x ∈ l, x.offset < b.offset ∧ x.stop ≠ b.offset := by
    rintro l p rfl x hx
    have := (List.pairwise_append.1 hgap).2.2 x hx p (by simp)
    have := h₁ p (by simp)
    exact ⟨h₁ x (by simp [hx]), by omega⟩
  have hpair : ∀ l p, l₁ = l ++ [p] → p.stop = b.offset → insertFree b (l₁ ++ l₂) = l ++ joinNext (p.join b) l₂ := by
    rintro l p rfl hpb
    rw [List.append_assoc]
    exact insertFree_of_touch (hlast l p rfl) (h₁ p (by simp)) hpb
  have hnone : l₁.getLast?.filter (fun p => p.stop = b.offset) = none →
      insertFree b (l₁ ++ l₂) = l₁ ++ joinNext b l₂ := by
    intro hp
    refine insertFree_of_gap (fun x hx => ?_) h₂
    rcases List.eq_nil_or_concat l₁ with rfl | ⟨l, p, rfl⟩
    · cases hx
    · rw [List.concat_eq_append] at *
      have hpb : p.stop ≠ b.offset := by
        intro e; simp [Option.filter, e] at hp
      rcases List.mem_append.1 hx with hx | hx
      · exact hlast l p rfl x hx
      · rw [List.mem_singleton.1 hx]; exact ⟨h₁ p (by simp), hpb⟩
  have hnext : ∀ c : Block, c.stop = b.stop → l₂.head?.filter (fun n => b.stop = n.offset) = none →
      joinNext c l₂ = c :: l₂ := by
    intro c hc hn
    cases l₂ with
    | nil => rfl
    | cons n l₂ =>
      have : ¬ b.stop = n.offset := by
        intro e; simp [Option.filter, e] at hn
      rw [joinNext, if_neg (by rw [hc]; exact this)]
  unfold mergedFree
  rcases hp : l₁.getLast?.filter (fun p => p.stop = b.offset) with _ | p <;>
    rcases hn : l₂.head?.filter (fun n => b.stop = n.offset) with _ | n <;>
    simp only [hp, hn]
  · rw [hnone hp, hnext b rfl hn]
  · obtain ⟨r, rfl, hbn⟩ := head?_filter_eq_some hn
    have hbn : b.stop = n.offset := by simpa using hbn
    rw [hnone hp, joinNext, if_pos hbn, List.tail_cons]
  · obtain ⟨l, rfl, hpb⟩ := getLast?_filter_eq_some hp
    have hpb : p.stop = b.offset := by simpa using hpb
    rw [hpair l p rfl hpb, hnext _ (Block.stop_join hpb) hn, List.dropLast_concat]
  · obtain ⟨l, rfl, hpb⟩ := getLast?_filter_eq_some hp
    obtain ⟨r, rfl, hbn⟩ := head?_filter_eq_some hn
    have hpb : p.stop = b.offset := by simpa using hpb
    have hbn : b.stop = n.offset := by simpa using hbn
    rw [hpair l p rfl hpb, joinNext, if_pos (by rw [Block.stop_join hpb]; exact hbn), List.dropLast_concat,
      List.tail_cons]

/-- The stores of `insert_block_to_free_list` for a block between `l₁` and `l₂`. -/
def insertStores (l₁ : List Block) (b : Block) (l₂ : List Block) : List (Field × Nat) :=
  if l₁ ++ l₂ = [] then [(.nextFreeBlockOffset, b.offset)]
  else linkStores (offsets l₁) b.offset (offsets l₂) ++ mergeStores l₁ b l₂

/-- The place of `b` in a free list, which need not be in file order: in front of the first block behind it. -/
structure FreePosition (b : Block) (l₁ l₂ : List Block) : Prop where
  before : ∀ x ∈ l₁, x.offset < b.offset
  behind : ∀ x ∈ l₂.head?, b.offset < x.offset

/-- What `insert_block_to_free_list` relies on: `b` is on no list, and its place is between `l₁` and `l₂`. -/
structure Insertable (D : Set Nat) (db : Nat) (F : Words) (l₁ : List Block) (b : Block) (l₂ u : List Block) :
    Prop where
  headers : Headers D db F
  holds : Layout.Holds F ⟨l₁ ++ l₂, u⟩
  size : F (.dataSize b.offset) = b.dataSize
  distinct : Layout.Distinct ⟨l₁ ++ b :: l₂, u⟩
  mem : ∀ x ∈ l₁ ++ b :: l₂, x.offset ∈ D
  stop : ∀ x ∈ l₁ ++ b :: l₂, x.stop ≤ db
  position : FreePosition b l₁ l₂
  length : l₁.length < db

private theorem Insertable.exec_link {D : Set Nat} {db : Nat} (h : Insertable D db F l₁ b l₂ u)
    (curr : Nat) (hcurr : l₁ = [] → curr = (offsets l₂).headD nullOffset) :
    Exec D db F (linkFreeBlock b.offset curr ((offsets l₁).getLastD nullOffset) ((offsets l₂).headD nullOffset)) ()
      (linkStores (offsets l₁) b.offset (offsets l₂)) := by
  have hf := h.holds.free
  simp only [List.map_append] at hf
  refine exec_linkFreeBlock h.headers hf ?_ (fun e => hcurr (List.map_eq_nil_iff.1 e))
  intro x hx
  simp only [List.mem_append, List.mem_cons, List.mem_map] at hx
  rcases hx with ⟨y, hy, rfl⟩ | rfl | ⟨y, hy, rfl⟩
  · exact h.mem y (by simp [hy])
  · exact h.mem b (by simp)
  · exact h.mem y (by simp [hy])

private theorem Insertable.linked {D : Set Nat} {db : Nat} (h : Insertable D db F l₁ b l₂ u)
    (hws : StoresOn D (linkStores (offsets l₁) b.offset (offsets l₂))) :
    LinkedBetween D db (F.after (linkStores (offsets l₁) b.offset (offsets l₂))) l₁ b l₂ u :=
  ⟨h.headers.after hws, h.holds.link h.distinct h.size, h.distinct, h.mem, h.stop⟩

/-- `insert_block_to_free_list` finds the place, links the block in and merges it, whatever its links were before. -/
theorem exec_insertBlockToFreeList {D : Set Nat} {db : Nat} (h : Insertable D db F l₁ b l₂ u) :
    Exec D db F (insertBlockToFreeList b.offset) () (insertStores l₁ b l₂) := by
  have hD := h.headers
  have hf := h.holds.free
  simp only [List.map_append] at hf
  have hfree : Field.nextFreeBlockOffset.On D := trivial
  have hb := hD.inside _ (h.mem b (by simp))
  unfold insertBlockToFreeList
  apply exec_load_bind hD hfree
  rw [hf.head]
  by_cases hne : l₁ ++ l₂ = []
  · obtain ⟨rfl, rfl⟩ := List.append_eq_nil_iff.1 hne
    rw [if_pos (by rfl), insertStores, if_pos hne]
    have := hD.small
    exact exec_store hD hfree (by omega)
  · have hne' : offsets l₁ ++ offsets l₂ ≠ [] := by
      rw [← List.map_append]; simpa using hne
    have hmem : ∀ x ∈ offsets l₁ ++ offsets l₂, x ∈ D := by
      intro x hx
      rw [← List.map_append] at hx
      obtain ⟨y, hy, rfl⟩ := List.mem_map.1 hx
      apply h.mem y
      simp only [List.mem_append, List.mem_cons] at hy ⊢
      tauto
    have h₁ : ∀ x ∈ offsets l₁, x < b.offset := by simpa using h.position.before
    have h₂ : ∀ x ∈ (offsets l₂).head?, b.offset < x := by simpa using h.position.behind
    rw [if_neg (hD.ne_null (hmem _ (headD_mem hne' _))), insertStores, if_neg hne]
    apply exec_get_bind hD
    intro s hs
    rw [hs]
    apply exec_read_bind hD (exec_findFreePosition_from hD hf.seg hmem h₁ h₂ hne' (by simpa using h.length))
    apply exec_read_bind hD (exec_freeNeighbours hD hf hmem h₁ h₂ hne')
    have hlink := h.exec_link (if offsets l₂ = [] then (offsets l₁).getLastD nullOffset else
      (offsets l₂).headD nullOffset) (fun e => if_neg (by subst e; simpa using hne))
    exact exec_bind hD hlink (exec_mergeFreeBlock (h.linked hlink.stores))

/-- The free list after `insert_block_to_free_list`; the links of a block that becomes the only one have to be `NULL`. -/
theorem holds_insertStores {D : Set Nat} {db : Nat} (h : Insertable D db F l₁ b l₂ u)
    (hlinks : l₁ ++ l₂ = [] → F (.prevBlockOffset b.offset) = nullOffset ∧ F (.nextBlockOffset b.offset) = nullOffset) :
    Layout.Holds (F.after (insertStores l₁ b l₂)) ⟨mergedFree l₁ b l₂, u⟩ := by
  by_cases hne : l₁ ++ l₂ = []
  · obtain ⟨hp, hn⟩ := hlinks hne
    rw [insertStores, if_pos hne]
    obtain ⟨rfl, rfl⟩ := List.append_eq_nil_iff.1 hne
    refine ⟨⟨?_, ?_, ?_, trivial⟩, h.holds.used.congr (by simp) (by simp) (by simp), ?_⟩
    · simp [mergedFree]
    · simpa using hp
    · simpa using hn
    · intro c hc
      have hc' : c = b ∨ c ∈ u := by simpa [Layout.blocks, mergedFree] using hc
      rw [Words.after_cons, Words.after_nil, Function.update_of_ne (by simp)]
      rcases hc' with rfl | hc'
      · exact h.size
      · exact h.holds.sizes c (List.mem_append_right _ hc')
  · have hlink := h.exec_link ((offsets l₂).headD nullOffset) (fun _ => rfl)
    rw [insertStores, if_neg hne, Words.after_append]
    exact holds_mergeStores (h.linked hlink.stores)

end

end KeyValueStore
