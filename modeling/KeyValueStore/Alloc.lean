import KeyValueStore.Free

/-!
# `alloc` on a well formed buffer

`alloc` takes the first free block that is large enough, cutting off the rest when that leaves more than 100 bytes.  It is
given by the stores it makes (`exec_alloc_none`, `exec_alloc_whole`, `exec_alloc_split`) and by the layout it leaves, which
is well formed again.  For a free list in any order the rest of a split goes where `insert_block_to_free_list` finds its
place (`exec_alloc_cut`, `holds_cutStores`).

The one exception is the rest of the only free block: `insert_block_to_free_list` leaves its links as they are, so the free
list is what the old bytes of the payload say (`alloc_of_staleSplit`).
-/

namespace KeyValueStore

open DoublyLinked ByteMemory

variable {F : Words} {L : Layout} {db : Nat}

/-- What a split leaves of `c` behind the `n` bytes handed out. -/
def Block.rest (c : Block) (n : Nat) : Block := ⟨c.offset + sizeofBlock + n, c.dataSize - n - sizeofBlock⟩

/-- The stores of `alloc` when it hands out all of `c`. -/
def wholeStores (l₁ : List Block) (c : Block) (l₂ u : List Block) : List (Field × Nat) :=
  unlinkStores .nextFreeBlockOffset (offsets l₁) c.offset (offsets l₂) ++ pushStores c.offset (offsets u)

/-- The stores that make the rest of `c` a free block. -/
def restStores (l₁ : List Block) (c : Block) (n : Nat) (l₂ : List Block) : List (Field × Nat) :=
  (.dataSize (c.rest n).offset, (c.rest n).dataSize) :: (insertStores l₁ (c.rest n) l₂ ++ [(.dataSize c.offset, n)])

/-- The stores of `alloc` when it splits `c` and inserts the rest between `k₁` and `k₂`. -/
def cutStores (l₁ : List Block) (c : Block) (n : Nat) (l₂ k₁ k₂ u : List Block) : List (Field × Nat) :=
  unlinkStores .nextFreeBlockOffset (offsets l₁) c.offset (offsets l₂) ++
    (restStores k₁ c n k₂ ++ pushStores c.offset (offsets u))

/-- The stores of `alloc` when it splits `c` and the rest takes the place of `c`. -/
def splitStores (l₁ : List Block) (c : Block) (n : Nat) (l₂ u : List Block) : List (Field × Nat) :=
  cutStores l₁ c n l₂ l₁ l₂ u

/-- The loop of `alloc` passes over the blocks that are too small. -/
private theorem exec_allocLoop {D : Set Nat} (hD : Headers D db F) {n fuel p : Nat} {l₁ l₂ : List Block}
    {r : Option Nat} {ws : List (Field × Nat)}
    (hseg : Seg (fun b => F (.prevBlockOffset b)) (fun b => F (.nextBlockOffset b)) p (offsets (l₁ ++ l₂)) nullOffset)
    (hmem : ∀ x ∈ l₁, x.offset ∈ D ∧ F (.dataSize x.offset) = x.dataSize ∧ x.dataSize < n)
    (h : Exec D db F (allocLoop n fuel ((offsets l₂).headD nullOffset)) r ws) :
    Exec D db F (allocLoop n (fuel + l₁.length) ((offsets (l₁ ++ l₂)).headD nullOffset)) r ws := by
  induction l₁ generalizing p with
  | nil => exact h
  | cons x l₁ ih =>
    obtain ⟨hx, hxs, hxn⟩ := hmem x (List.mem_cons_self ..)
    obtain ⟨-, hn, ht⟩ := hseg
    change F (.nextBlockOffset x.offset) = _ at hn
    have hsx : (Field.dataSize x.offset).On D := hx
    have hnx : (Field.nextBlockOffset x.offset).On D := hx
    show Exec D db F (allocLoop n (fuel + l₁.length + 1) x.offset) r ws
    rw [allocLoop, if_neg (hD.ne_null hx)]
    apply exec_load_bind hD hsx
    rw [if_neg (by rw [hxs]; omega)]
    apply exec_load_bind hD hnx
    rw [hn]
    exact ih ht (fun y hy => hmem y (List.mem_cons_of_mem _ hy))

section

variable {l₁ l₂ u : List Block} {c : Block} {n : Nat}

private theorem perm_of_free (hfree : L.free = l₁ ++ c :: l₂) : L.blocks.Perm (c :: (l₁ ++ l₂ ++ L.used)) := by
  rw [Layout.blocks, hfree, List.append_assoc, List.cons_append, List.append_assoc]
  exact List.perm_middle

theorem Layout.Sound.unlinkFree (h : L.Sound db) (hF : L.Holds F) (hfree : L.free = l₁ ++ c :: l₂) :
    Layout.Holds (F.after (unlinkStores .nextFreeBlockOffset (offsets l₁) c.offset (offsets l₂)))
      ⟨l₁ ++ l₂, L.used⟩ := by
  obtain ⟨fr, us⟩ := L
  obtain rfl : fr = l₁ ++ c :: l₂ := hfree
  exact hF.unlinkFree h.distinct

private theorem exec_unlink_of_sound {D : Set Nat} (hD : Headers D db F) (h : L.Sound db) (hF : L.Holds F)
    (hfree : L.free = l₁ ++ c :: l₂) (hmem : ∀ x ∈ L.blocks, x.offset ∈ D) :
    Exec D db F (removeBlockFromList .nextFreeBlockOffset c.offset) ()
      (unlinkStores .nextFreeBlockOffset (offsets l₁) c.offset (offsets l₂)) := by
  obtain ⟨fr, us⟩ := L
  obtain rfl : fr = l₁ ++ c :: l₂ := hfree
  exact exec_unlinkFree hD hF h.distinct (fun x hx => hmem x (Layout.WellFormed.free_mem hx))

private theorem exec_push_of_mem {D : Set Nat} (hD : Headers D db F) (hmem : ∀ x ∈ L.blocks, x.offset ∈ D)
    (hused : IsList F .nextUsedBlockOffset (offsets L.used)) (hc : c ∈ L.free) :
    Exec D db F (do insertBlockToUsedList c.offset; return c.data) c.data (pushStores c.offset (offsets L.used)) := by
  refine exec_bind_pure hD (exec_insertBlockToUsedList hD hused fun x hx => ?_) c.data
  rcases List.mem_cons.1 hx with rfl | hx
  · exact hmem c (Layout.WellFormed.free_mem hc)
  · obtain ⟨y, hy, rfl⟩ := List.mem_map.1 hx
    exact hmem y (Layout.WellFormed.used_mem hy)

private theorem exec_takeBlock_whole (h : L.Sound db) (hdb : db < 2 ^ 31) (hF : ∀ f, F f < 2 ^ 64)
    (hholds : L.Holds F) (hfree : L.free = l₁ ++ c :: l₂) (hn : n ≤ c.dataSize) (hz : c.dataSize < n + 124) :
    Exec {x | x ∈ offsets L.blocks} db F (takeBlock c.offset n) c.data (wholeStores l₁ c l₂ L.used) := by
  have hD := h.headers hdb hF
  have hc : c ∈ L.free := by rw [hfree]; simp
  have hmem : ∀ x ∈ L.blocks, x.offset ∈ {x | x ∈ offsets L.blocks} := fun x hx => List.mem_map_of_mem hx
  have hcs : (Field.dataSize c.offset).On {x | x ∈ offsets L.blocks} := hmem c (Layout.WellFormed.free_mem hc)
  have hlt := h.inside c (Layout.WellFormed.free_mem hc)
  have hrm := exec_unlink_of_sound hD h hholds hfree hmem
  have hD₁ := hD.after hrm.stores
  unfold takeBlock
  refine exec_bind hD hrm (exec_load_bind hD₁ hcs ?_)
  rw [unlink_dataSize (Or.inl rfl), hholds.sizes c (Layout.WellFormed.free_mem hc)]
  unfold Block.stop sizeofBlock at hlt
  unfold sizeofBlock
  rw [add64_of_lt (show n + 24 < 2 ^ 64 by omega), add64_of_lt (by omega), if_neg (by omega)]
  exact exec_push_of_mem hD₁ hmem (h.unlinkFree hholds hfree).used hc

/-- The part split off lies in the payload of `c`, apart from every other block. -/
theorem Layout.Sound.rest_apart (h : L.Sound db) (hc : c ∈ L.free) (hz : n + 124 ≤ c.dataSize) {b : Block}
    (hb : b ∈ L.blocks) : b.offset + 24 ≤ (c.rest n).offset ∨ (c.rest n).stop ≤ b.offset := by
  have := b.offset_lt_stop
  rcases h.eq_or_apart hb (Layout.WellFormed.free_mem hc) with rfl | hbc | hbc <;>
    simp only [Block.rest, Block.stop, sizeofBlock] at * <;> omega

/-- The header of the part split off lies in the payload of `c`. -/
theorem headers_rest (h : L.Sound db) (hdb : db < 2 ^ 31) (hF : ∀ f, F f < 2 ^ 64) (hc : c ∈ L.free)
    (hz : n + 124 ≤ c.dataSize) : Headers {x | x ∈ (c.rest n).offset :: offsets L.blocks} db F := by
  have hD := h.headers hdb hF
  have hcb := h.inside c (Layout.WellFormed.free_mem hc)
  have hrest : ∀ x ∈ offsets L.blocks, x + 24 ≤ (c.rest n).offset ∨ (c.rest n).offset + 24 ≤ x := by
    intro x hx
    obtain ⟨b, hb, rfl⟩ := List.mem_map.1 hx
    have := (c.rest n).offset_lt_stop
    rcases h.rest_apart hc hz hb with e | e <;> omega
  refine ⟨hdb, hD.header, ?_, ?_, fun f _ => hF f⟩
  · intro x hx
    rcases List.mem_cons.1 hx with rfl | hx
    · simp only [Block.rest, Block.stop, sizeofBlock, sizeofBufferHeader] at *; omega
    · exact hD.inside x hx
  · intro x hx y hy
    rcases List.mem_cons.1 hx with rfl | hx <;> rcases List.mem_cons.1 hy with rfl | hy
    · exact Or.inl rfl
    · rcases hrest y hy with e | e
      · exact Or.inr (Or.inr e)
      · exact Or.inr (Or.inl e)
    · exact Or.inr (hrest x hx)
    · exact hD.apart x hx y hy

/-- The layout after a split, before the rest is merged with the blocks that it touches. -/
theorem Layout.Sound.cut (h : L.Sound db) (hfree : L.free = l₁ ++ c :: l₂) (hz : n + 124 ≤ c.dataSize)
    {k₁ k₂ : List Block} (hk : k₁ ++ k₂ = l₁ ++ l₂) : Layout.Sound ⟨k₁ ++ c.rest n :: k₂, ⟨c.offset, n⟩ :: L.used⟩ db := by
  have hc : c ∈ L.free := by rw [hfree]; simp
  have hcb := h.inside c (Layout.WellFormed.free_mem hc)
  have hp₂ : (⟨c.offset, n⟩ :: c.rest n :: (l₁ ++ l₂ ++ L.used)).Perm
      (Layout.blocks ⟨k₁ ++ c.rest n :: k₂, ⟨c.offset, n⟩ :: L.used⟩) := by
    rw [← hk]
    refine List.Perm.trans (List.Perm.cons _ ?_) List.perm_middle.symm
    rw [List.append_assoc, List.append_assoc, List.cons_append]
    exact List.perm_middle.symm
  have h₁ : Layout.Sound ⟨c :: (l₁ ++ l₂), L.used⟩ db := h.perm (perm_of_free hfree)
  obtain ⟨hc₁, hp⟩ := List.pairwise_cons.1 h₁.apart
  refine Layout.Sound.perm (L := ⟨⟨c.offset, n⟩ :: c.rest n :: (l₁ ++ l₂), L.used⟩) ⟨h.header, ?_, ?_⟩ hp₂
  · refine List.pairwise_cons.2 ⟨fun x hx => ?_, List.pairwise_cons.2 ⟨fun x hx => ?_, hp⟩⟩
    · rcases List.mem_cons.1 hx with rfl | hx
      · exact Or.inl (Nat.le_refl _)
      · rcases hc₁ x hx with e | e <;> simp only [Block.Apart, Block.stop, sizeofBlock] at * <;> omega
    · rcases hc₁ x hx with e | e <;> simp only [Block.Apart, Block.rest, Block.stop, sizeofBlock] at * <;> omega
  · intro x hx
    rcases List.mem_cons.1 hx with rfl | hx
    · simp only [Block.stop, sizeofBlock] at *; omega
    rcases List.mem_cons.1 hx with rfl | hx
    · simp only [Block.rest, Block.stop, sizeofBlock] at *; omega
    · exact h₁.inside x (List.mem_cons_of_mem _ hx)

private theorem insertable_rest {k₁ k₂ : List Block} (h : L.Sound db) (hfree : L.free = l₁ ++ c :: l₂)
    (hz : n + 124 ≤ c.dataSize) (hk : k₁ ++ k₂ = l₁ ++ l₂) (hpos : FreePosition (c.rest n) k₁ k₂)
    (hD : Headers {x | x ∈ (c.rest n).offset :: offsets L.blocks} db F) (hholds : Layout.Holds F ⟨l₁ ++ l₂, L.used⟩)
    (hs : F (.dataSize (c.rest n).offset) = (c.rest n).dataSize) :
    Insertable {x | x ∈ (c.rest n).offset :: offsets L.blocks} db F k₁ (c.rest n) k₂ L.used := by
  have hcut := h.cut hfree hz hk
  have hcut' : Layout.Sound ⟨k₁ ++ c.rest n :: k₂, L.used⟩ db :=
    hcut.sublist (List.Sublist.refl _) (List.sublist_cons_self ..)
  have hmem : ∀ x ∈ k₁ ++ c.rest n :: k₂, x = c.rest n ∨ x ∈ L.blocks := by
    intro x hx
    have hx' : x = c.rest n ∨ x ∈ k₁ ++ k₂ := by
      simp only [List.mem_append, List.mem_cons] at hx ⊢; tauto
    refine hx'.imp_right fun hx' => Layout.WellFormed.free_mem ?_
    rw [hk] at hx'
    rw [hfree]
    simp only [List.mem_append, List.mem_cons] at hx' ⊢
    tauto
  refine ⟨hD, hk ▸ hholds, hs, hcut'.distinct, ?_, fun x hx => (hcut'.inside x (List.mem_append_left _ hx)).2, hpos, ?_⟩
  · intro x hx
    rcases hmem x hx with rfl | hx
    · exact List.mem_cons_self ..
    · exact List.mem_cons_of_mem _ (List.mem_map_of_mem hx)
  · have := hcut'.length_lt
    simp only [Layout.blocks, List.length_append] at this
    omega

/-- The used list is not touched, whatever the links of the block inserted. -/
private theorem insertStores_usedList {D : Set Nat} {b : Block} (h : Insertable D db F l₁ b l₂ u) :
    IsList (F.after (insertStores l₁ b l₂)) .nextUsedBlockOffset (offsets u) := by
  by_cases hne : l₁ ++ l₂ = []
  · rw [insertStores, if_pos hne]
    exact h.holds.used.congr (by simp) (by simp) (by simp)
  · exact (holds_insertStores h (fun e => absurd e hne)).used

section

-- `c` is split, and its rest belongs between `k₁` and `k₂`
variable {k₁ k₂ : List Block} (h : L.Sound db) (hdb : db < 2 ^ 31) (hF : ∀ f, F f < 2 ^ 64) (hholds : L.Holds F)
  (hfree : L.free = l₁ ++ c :: l₂) (hz : n + 124 ≤ c.dataSize) (hk : k₁ ++ k₂ = l₁ ++ l₂)
  (hpos : FreePosition (c.rest n) k₁ k₂)

include h hdb hF hholds hfree hz hk hpos

/-- The words after `remove_block_from_list` and the store of the size of the rest. -/
private theorem insertable_of_cut :
    Insertable {x | x ∈ (c.rest n).offset :: offsets L.blocks} db
      (Words.after F (unlinkStores .nextFreeBlockOffset (offsets l₁) c.offset (offsets l₂) ++
        [(.dataSize (c.rest n).offset, (c.rest n).dataSize)])) k₁ (c.rest n) k₂ L.used := by
  have hc : c ∈ L.free := by rw [hfree]; simp
  have hcb := h.inside c (Layout.WellFormed.free_mem hc)
  have hD := headers_rest h hdb hF hc hz
  have hmem : ∀ x ∈ L.blocks, x.offset ∈ {x | x ∈ (c.rest n).offset :: offsets L.blocks} := fun x hx =>
    List.mem_cons_of_mem _ (List.mem_map_of_mem hx)
  have hrm := exec_unlink_of_sound hD h hholds hfree hmem
  have hsize : (c.rest n).dataSize < 2 ^ 64 := by
    simp only [Block.rest, Block.stop, sizeofBlock] at *; omega
  have hun := h.unlinkFree hholds hfree
  rw [Words.after_append]
  refine insertable_rest h hfree hz hk hpos ((hD.after hrm.stores).update hsize) ⟨?_, ?_, ?_⟩ ?_
  · exact hun.free.congr (by simp) (by simp) (by simp)
  · exact hun.used.congr (by simp) (by simp) (by simp)
  · intro b hb
    have hne : b.offset ≠ (c.rest n).offset := by
      have hb' : b ∈ L.blocks := by
        simp only [Layout.blocks, hfree, List.mem_append, List.mem_cons] at hb ⊢; tauto
      have := (c.rest n).offset_lt_stop
      rcases h.rest_apart hc hz hb' with e | e <;> omega
    rw [Words.after_cons, Words.after_nil, Function.update_of_ne (by simpa using hne)]
    exact hun.sizes b hb
  · simp

private theorem exec_splitBlock :
    Exec {x | x ∈ (c.rest n).offset :: offsets L.blocks} db
      (F.after (unlinkStores .nextFreeBlockOffset (offsets l₁) c.offset (offsets l₂))) (splitBlock c.offset n) ()
      (restStores k₁ c n k₂) := by
  have hc : c ∈ L.free := by rw [hfree]; simp
  have hcb := h.inside c (Layout.WellFormed.free_mem hc)
  have hins := insertable_of_cut h hdb hF hholds hfree hz hk hpos
  have hD := headers_rest h hdb hF hc hz
  have hmem : ∀ x ∈ L.blocks, x.offset ∈ {x | x ∈ (c.rest n).offset :: offsets L.blocks} := fun x hx =>
    List.mem_cons_of_mem _ (List.mem_map_of_mem hx)
  have hcs : (Field.dataSize c.offset).On {x | x ∈ (c.rest n).offset :: offsets L.blocks} :=
    hmem c (Layout.WellFormed.free_mem hc)
  have hrs : (Field.dataSize (c.rest n).offset).On {x | x ∈ (c.rest n).offset :: offsets L.blocks} :=
    List.mem_cons_self ..
  have hD₁ := hD.after (exec_unlink_of_sound hD h hholds hfree hmem).stores
  have hsize : (c.rest n).dataSize < 2 ^ 64 := by
    simp only [Block.rest, Block.stop, sizeofBlock] at *; omega
  have hn : n < 2 ^ 64 := by
    simp only [Block.stop, sizeofBlock] at hcb; omega
  rw [Words.after_append] at hins
  unfold splitBlock restStores
  apply exec_load_bind hD₁ hcs
  have hval : sub64 (sub64 (F.after (unlinkStores .nextFreeBlockOffset (offsets l₁) c.offset (offsets l₂))
      (.dataSize c.offset)) n) sizeofBlock = (c.rest n).dataSize := by
    rw [unlink_dataSize (Or.inl rfl), hholds.sizes c (Layout.WellFormed.free_mem hc)]
    unfold Block.stop sizeofBlock at *
    rw [sub64_of_le (show n ≤ c.dataSize by omega) (by omega), sub64_of_le (by omega) (by omega)]
    rfl
  rw [hval]
  apply exec_store_bind hD₁ hrs hsize
  exact exec_bind hins.headers (exec_insertBlockToFreeList hins)
    (exec_store (hins.headers.after (exec_insertBlockToFreeList hins).stores) hcs hn)

private theorem restStores_usedList :
    IsList (F.after (unlinkStores .nextFreeBlockOffset (offsets l₁) c.offset (offsets l₂) ++ restStores k₁ c n k₂))
      .nextUsedBlockOffset (offsets L.used) := by
  have := insertStores_usedList (insertable_of_cut h hdb hF hholds hfree hz hk hpos)
  rw [Words.after_append] at this
  rw [Words.after_append, restStores, Words.after_cons, Words.after_append]
  exact this.congr (by simp) (by simp) (by simp)

private theorem exec_takeBlock_cut :
    Exec {x | x ∈ (c.rest n).offset :: offsets L.blocks} db F (takeBlock c.offset n) c.data
      (cutStores l₁ c n l₂ k₁ k₂ L.used) := by
  have hc : c ∈ L.free := by rw [hfree]; simp
  have hcb := h.inside c (Layout.WellFormed.free_mem hc)
  have hD := headers_rest h hdb hF hc hz
  have hmem : ∀ x ∈ L.blocks, x.offset ∈ {x | x ∈ (c.rest n).offset :: offsets L.blocks} := fun x hx =>
    List.mem_cons_of_mem _ (List.mem_map_of_mem hx)
  have hcs : (Field.dataSize c.offset).On {x | x ∈ (c.rest n).offset :: offsets L.blocks} :=
    hmem c (Layout.WellFormed.free_mem hc)
  have hrm := exec_unlink_of_sound hD h hholds hfree hmem
  have hD₁ := hD.after hrm.stores
  have hsplit := exec_splitBlock h hdb hF hholds hfree hz hk hpos
  have hused := restStores_usedList h hdb hF hholds hfree hz hk hpos
  rw [Words.after_append] at hused
  unfold takeBlock
  refine exec_bind hD hrm (exec_load_bind hD₁ hcs ?_)
  rw [unlink_dataSize (Or.inl rfl), hholds.sizes c (Layout.WellFormed.free_mem hc)]
  unfold Block.stop sizeofBlock at hcb
  rw [sizeofBlock, add64_of_lt (show n + 24 < 2 ^ 64 by omega), add64_of_lt (by omega), if_pos (by omega)]
  exact exec_bind hD₁ hsplit (exec_push_of_mem (hD₁.after hsplit.stores) hmem hused hc)

end

private theorem exec_alloc {D : Set Nat} {r : Option Nat} {ws : List (Field × Nat)} (hD : Headers D db F)
    (h : L.Sound db) (hholds : L.Holds F) (hmem : ∀ x ∈ L.blocks, x.offset ∈ D) (hfree : L.free = l₁ ++ l₂)
    (hsmall : ∀ x ∈ l₁, x.dataSize < n)
    (hrest : ∀ fuel, Exec D db F (allocLoop n (fuel + 1) ((offsets l₂).headD nullOffset)) r ws) :
    Exec D db F (alloc n) r ws := by
  have hlen := h.length_lt
  simp only [Layout.blocks, hfree, List.length_append] at hlen
  obtain ⟨k, hk⟩ : ∃ k, db = k + 1 + l₁.length := ⟨db - 1 - l₁.length, by omega⟩
  have hf : Field.nextFreeBlockOffset.On D := trivial
  unfold alloc
  refine exec_get_bind hD fun s hs => exec_load_bind hD hf ?_
  rw [hholds.free.head, hs, hfree]
  have := exec_allocLoop hD (hfree ▸ hholds.free.seg) (fun x hx => ?_) (hrest k)
  · rwa [← hk] at this
  · have hx' : x ∈ L.blocks := Layout.WellFormed.free_mem (hfree ▸ List.mem_append_left _ hx)
    exact ⟨hmem x hx', hholds.sizes x hx', hsmall x hx⟩

/-- `alloc` returns `nullptr` and stores nothing when every free block is too small. -/
theorem exec_alloc_none (h : L.Sound db) (hdb : db < 2 ^ 31) (hF : ∀ f, F f < 2 ^ 64) (hholds : L.Holds F)
    (hsmall : ∀ x ∈ L.free, x.dataSize < n) :
    Exec {x | x ∈ offsets L.blocks} db F (alloc n) none [] := by
  apply exec_alloc (h.headers hdb hF) h hholds (fun x hx => List.mem_map_of_mem hx) (List.append_nil _).symm hsmall
  intro fuel
  show Exec _ db F (allocLoop n (fuel + 1) nullOffset) none []
  rw [allocLoop, if_pos rfl]
  exact exec_pure none

private theorem exec_allocLoop_found {D : Set Nat} {ws : List (Field × Nat)} (hD : Headers D db F)
    (hholds : L.Holds F) (hc : c ∈ L.free) (hcD : c.offset ∈ D) (hn : n ≤ c.dataSize)
    (htake : Exec D db F (takeBlock c.offset n) c.data ws) (fuel : Nat) :
    Exec D db F (allocLoop n (fuel + 1) c.offset) (some c.data) ws := by
  have hcs : (Field.dataSize c.offset).On D := hcD
  rw [allocLoop, if_neg (hD.ne_null hcD)]
  apply exec_load_bind hD hcs
  rw [hholds.sizes c (Layout.WellFormed.free_mem hc), if_pos hn]
  have := exec_bind hD htake (k := fun a => pure (some a)) (exec_pure (some c.data))
  rwa [List.append_nil] at this

/-- `alloc` hands out all of the first free block that is large enough when 100 bytes or less would be left. -/
theorem exec_alloc_whole (h : L.Sound db) (hdb : db < 2 ^ 31) (hF : ∀ f, F f < 2 ^ 64) (hholds : L.Holds F)
    (hfree : L.free = l₁ ++ c :: l₂) (hsmall : ∀ x ∈ l₁, x.dataSize < n) (hn : n ≤ c.dataSize)
    (hz : c.dataSize < n + 124) :
    Exec {x | x ∈ offsets L.blocks} db F (alloc n) (some c.data) (wholeStores l₁ c l₂ L.used) := by
  have hD := h.headers hdb hF
  have hc : c ∈ L.free := by rw [hfree]; simp
  apply exec_alloc hD h hholds (fun x hx => List.mem_map_of_mem hx) hfree hsmall
  exact exec_allocLoop_found hD hholds hc (List.mem_map_of_mem (Layout.WellFormed.free_mem hc)) hn
    (exec_takeBlock_whole h hdb hF hholds hfree hn hz)

/-- `alloc` splits the first free block that is large enough when more than 100 bytes would be left. -/
theorem exec_alloc_cut {k₁ k₂ : List Block} (h : L.Sound db) (hdb : db < 2 ^ 31) (hF : ∀ f, F f < 2 ^ 64)
    (hholds : L.Holds F) (hfree : L.free = l₁ ++ c :: l₂) (hsmall : ∀ x ∈ l₁, x.dataSize < n)
    (hz : n + 124 ≤ c.dataSize) (hk : k₁ ++ k₂ = l₁ ++ l₂) (hpos : FreePosition (c.rest n) k₁ k₂) :
    Exec {x | x ∈ (c.rest n).offset :: offsets L.blocks} db F (alloc n) (some c.data)
      (cutStores l₁ c n l₂ k₁ k₂ L.used) := by
  have hc : c ∈ L.free := by rw [hfree]; simp
  have hD := headers_rest h hdb hF hc hz
  apply exec_alloc hD h hholds (fun x hx => List.mem_cons_of_mem _ (List.mem_map_of_mem hx)) hfree hsmall
  exact exec_allocLoop_found hD hholds hc (List.mem_cons_of_mem _ (List.mem_map_of_mem (Layout.WellFormed.free_mem hc)))
    (by omega) (exec_takeBlock_cut h hdb hF hholds hfree hz hk hpos)

/-- Either every free block is too small, or there is a first one that is large enough. -/
theorem Layout.first_fit (L : Layout) (n : Nat) : (∀ x ∈ L.free, x.dataSize < n) ∨
    ∃ l₁ c l₂, L.free = l₁ ++ c :: l₂ ∧ (∀ x ∈ l₁, x.dataSize < n) ∧ n ≤ c.dataSize := by
  rcases hf : L.free.find? (fun x => n ≤ x.dataSize) with _ | c
  · left
    intro x hx
    have := List.find?_eq_none.1 hf x hx
    simpa using this
  · right
    obtain ⟨hc, l₁, l₂, hl, hsmall⟩ := List.find?_eq_some_iff_append.1 hf
    exact ⟨l₁, c, l₂, hl, fun x hx => by simpa using hsmall x hx, by simpa using hc⟩

/-! ### The layout that `alloc` leaves -/

theorem Layout.Sound.takeWhole (h : L.Sound db) (hfree : L.free = l₁ ++ c :: l₂) :
    Layout.Sound ⟨l₁ ++ l₂, c :: L.used⟩ db :=
  h.perm ((perm_of_free hfree).trans List.perm_middle.symm)

theorem Layout.WellFormed.afterWhole (h : L.WellFormed db) (hfree : L.free = l₁ ++ c :: l₂) :
    Layout.WellFormed ⟨l₁ ++ l₂, c :: L.used⟩ db := by
  refine .of_gapped (h.tiled.perm ((perm_of_free hfree).trans List.perm_middle.symm)) ?_
  have hg := h.gapped
  rw [hfree] at hg
  exact hg.sublist (List.Sublist.append_left (List.sublist_cons_self c l₂) l₁)

/-- The layout after a split. -/
def Layout.afterSplit (l₁ : List Block) (c : Block) (n : Nat) (l₂ u : List Block) : Layout :=
  ⟨l₁ ++ c.rest n :: l₂, ⟨c.offset, n⟩ :: u⟩

theorem Layout.WellFormed.afterSplit (h : L.WellFormed db) (hfree : L.free = l₁ ++ c :: l₂)
    (hz : n + 124 ≤ c.dataSize) : (Layout.afterSplit l₁ c n l₂ L.used).WellFormed db := by
  have hstop : (c.rest n).stop = c.stop := by simp only [Block.rest, Block.stop, sizeofBlock]; omega
  refine .of_gapped ?_ ?_
  · have hcut : Tiled (⟨c.offset, n⟩ :: c.rest n :: (l₁ ++ l₂ ++ L.used)) db :=
      (h.tiled.perm (perm_of_free hfree)).cut rfl rfl hstop
    apply hcut.perm
    show List.Perm _ ((l₁ ++ c.rest n :: l₂) ++ ⟨c.offset, n⟩ :: L.used)
    refine List.Perm.trans (List.Perm.cons _ ?_) List.perm_middle.symm
    rw [List.append_assoc, List.append_assoc, List.cons_append]
    exact List.perm_middle.symm
  · have hg := h.gapped
    rw [hfree, List.pairwise_append, List.pairwise_cons] at hg
    obtain ⟨h₁, ⟨hc, h₂⟩, hl⟩ := hg
    refine List.pairwise_append.2 ⟨h₁, List.pairwise_cons.2 ⟨fun x hx => hstop ▸ hc x hx, h₂⟩, ?_⟩
    intro x hx y hy
    rcases List.mem_cons.1 hy with rfl | hy
    · have := hl x hx c (List.mem_cons_self ..)
      simp only [Block.rest, sizeofBlock]; omega
    · exact hl x hx y (List.mem_cons_of_mem _ hy)

/-- Nothing touches the rest, as nothing touched `c`. -/
private theorem Layout.WellFormed.rest_touches_none (h : L.WellFormed db) (hfree : L.free = l₁ ++ c :: l₂)
    (hz : n + 124 ≤ c.dataSize) : l₁.getLast?.filter (fun p => p.stop = (c.rest n).offset) = none ∧
      l₂.head?.filter (fun x => (c.rest n).stop = x.offset) = none := by
  have hco := (h.afterSplit hfree hz).coalesced
  simp only [Layout.afterSplit] at hco
  constructor
  · rw [Option.filter_eq_none_iff]
    intro p hp
    simpa using hco p (by simp [List.mem_of_getLast? hp]) (c.rest n) (by simp)
  · rw [Option.filter_eq_none_iff]
    intro x hx
    simpa using hco (c.rest n) (by simp) x (by simp [List.mem_of_mem_head? hx])

theorem Layout.WellFormed.mergedFree_rest (h : L.WellFormed db) (hfree : L.free = l₁ ++ c :: l₂)
    (hz : n + 124 ≤ c.dataSize) : mergedFree l₁ (c.rest n) l₂ = l₁ ++ c.rest n :: l₂ := by
  obtain ⟨h₁, h₂⟩ := h.rest_touches_none hfree hz
  simp only [mergedFree, h₁, h₂]

theorem Layout.WellFormed.mergeStores_rest (h : L.WellFormed db) (hfree : L.free = l₁ ++ c :: l₂)
    (hz : n + 124 ≤ c.dataSize) : mergeStores l₁ (c.rest n) l₂ = [] := by
  obtain ⟨h₁, h₂⟩ := h.rest_touches_none hfree hz
  simp only [mergeStores, h₁, h₂]

/-- In a free list in file order the rest takes the place of `c`. -/
private theorem Layout.WellFormed.freePosition_rest (h : L.WellFormed db) (hfree : L.free = l₁ ++ c :: l₂)
    (hz : n + 124 ≤ c.dataSize) : FreePosition (c.rest n) l₁ l₂ := by
  have hsorted := (h.afterSplit hfree hz).sorted
  simp only [Layout.afterSplit, List.pairwise_append, List.pairwise_cons] at hsorted
  exact ⟨fun x hx => hsorted.2.2 x hx _ (List.mem_cons_self ..),
    fun x hx => hsorted.2.1.1 x (List.mem_of_mem_head? hx)⟩

theorem exec_alloc_split (h : L.WellFormed db) (hdb : db < 2 ^ 31) (hF : ∀ f, F f < 2 ^ 64) (hholds : L.Holds F)
    (hfree : L.free = l₁ ++ c :: l₂) (hsmall : ∀ x ∈ l₁, x.dataSize < n) (hz : n + 124 ≤ c.dataSize) :
    Exec {x | x ∈ (c.rest n).offset :: offsets L.blocks} db F (alloc n) (some c.data)
      (splitStores l₁ c n l₂ L.used) :=
  exec_alloc_cut h.sound hdb hF hholds hfree hsmall hz rfl (h.freePosition_rest hfree hz)

theorem insertable_of_split (h : L.WellFormed db) (hdb : db < 2 ^ 31) (hF : ∀ f, F f < 2 ^ 64) (hholds : L.Holds F)
    (hfree : L.free = l₁ ++ c :: l₂) (hz : n + 124 ≤ c.dataSize) :
    Insertable {x | x ∈ (c.rest n).offset :: offsets L.blocks} db
      (Words.after F (unlinkStores .nextFreeBlockOffset (offsets l₁) c.offset (offsets l₂) ++
        [(.dataSize (c.rest n).offset, (c.rest n).dataSize)])) l₁ (c.rest n) l₂ L.used :=
  insertable_of_cut h.sound hdb hF hholds hfree hz rfl (h.freePosition_rest hfree hz)

theorem holds_wholeStores (h : L.Sound db) (hholds : L.Holds F) (hfree : L.free = l₁ ++ c :: l₂) :
    Layout.Holds (F.after (wholeStores l₁ c l₂ L.used)) ⟨l₁ ++ l₂, c :: L.used⟩ := by
  have hc : c ∈ L.free := by rw [hfree]; simp
  rw [wholeStores, Words.after_append]
  apply (h.unlinkFree hholds hfree).push (h.takeWhole hfree).distinct
  rw [unlink_dataSize (Or.inl rfl), hholds.sizes c (Layout.WellFormed.free_mem hc)]

/-- The layout after a split, unless the rest becomes the only free block and has old bytes for links. -/
theorem holds_cutStores {k₁ k₂ : List Block} (h : L.Sound db) (hdb : db < 2 ^ 31) (hF : ∀ f, F f < 2 ^ 64)
    (hholds : L.Holds F) (hfree : L.free = l₁ ++ c :: l₂) (hz : n + 124 ≤ c.dataSize) (hk : k₁ ++ k₂ = l₁ ++ l₂)
    (hpos : FreePosition (c.rest n) k₁ k₂)
    (hlinks : l₁ ++ l₂ = [] → F (.prevBlockOffset (c.rest n).offset) = nullOffset ∧
      F (.nextBlockOffset (c.rest n).offset) = nullOffset) :
    Layout.Holds (F.after (cutStores l₁ c n l₂ k₁ k₂ L.used))
      ⟨mergedFree k₁ (c.rest n) k₂, ⟨c.offset, n⟩ :: L.used⟩ := by
  have hins := insertable_of_cut h hdb hF hholds hfree hz hk hpos
  have hne : c.offset ≠ (c.rest n).offset := by simp only [Block.rest, sizeofBlock]; omega
  have hs := (h.cut hfree hz hk).merged
  -- into an empty list the rest is inserted without its links being stored
  have hholds₁ := holds_insertStores hins (fun e => by
    have e' : l₁ ++ l₂ = [] := hk ▸ e
    obtain ⟨rfl, rfl⟩ := List.append_eq_nil_iff.1 e'
    obtain ⟨hp, hn⟩ := hlinks e'
    rw [Words.after_append]
    constructor
    · rw [Words.after_cons, Words.after_nil, Function.update_of_ne (by simp), unlink_prev (Or.inl rfl),
        if_neg (Ne.symm hne), if_neg (by simp), hp]
    · rw [Words.after_cons, Words.after_nil, Function.update_of_ne (by simp), unlink_next (Or.inl rfl),
        if_neg (Ne.symm hne), if_neg (by simp), hn])
  have hws : cutStores l₁ c n l₂ k₁ k₂ L.used =
      (unlinkStores .nextFreeBlockOffset (offsets l₁) c.offset (offsets l₂) ++
        [(.dataSize (c.rest n).offset, (c.rest n).dataSize)]) ++ (insertStores k₁ (c.rest n) k₂ ++
          ([(.dataSize c.offset, n)] ++ pushStores c.offset (offsets L.used))) := by
    simp [cutStores, restStores]
  rw [hws, Words.after_append, Words.after_append, Words.after_append]
  refine Layout.Holds.push (b := ⟨c.offset, n⟩) ⟨?_, ?_, ?_⟩ hs.distinct (by simp)
  · exact hholds₁.free.congr (by simp) (by simp) (by simp)
  · exact hholds₁.used.congr (by simp) (by simp) (by simp)
  · intro b hb
    have hnd := hs.distinct.nodup
    simp only [Layout.blocks] at hnd
    rw [offsets, List.map_append, List.map_cons, List.nodup_middle, List.nodup_cons, ← List.map_append] at hnd
    have hbc : b.offset ≠ c.offset := fun e => hnd.1 (e ▸ List.mem_map_of_mem hb)
    rw [Words.after_cons, Words.after_nil, Function.update_of_ne (by simpa using hbc)]
    exact hholds₁.sizes b hb

theorem holds_splitStores (h : L.WellFormed db) (hdb : db < 2 ^ 31) (hF : ∀ f, F f < 2 ^ 64) (hholds : L.Holds F)
    (hfree : L.free = l₁ ++ c :: l₂) (hz : n + 124 ≤ c.dataSize)
    (hlinks : l₁ ++ l₂ = [] → F (.prevBlockOffset (c.rest n).offset) = nullOffset ∧
      F (.nextBlockOffset (c.rest n).offset) = nullOffset) :
    Layout.Holds (F.after (splitStores l₁ c n l₂ L.used)) (Layout.afterSplit l₁ c n l₂ L.used) := by
  have := holds_cutStores h.sound hdb hF hholds hfree hz rfl (h.freePosition_rest hfree hz) hlinks
  rwa [h.mergedFree_rest hfree hz] at this

/-! ### The split of the only free block -/

/-- A split of the only free block does not store to the links of the rest. -/
private theorem splitStores_links (hc : (c.rest n).offset ≠ c.offset) (hu : (c.rest n).offset ∉ offsets u) :
    F.after (splitStores [] c n [] u) (.prevBlockOffset (c.rest n).offset) = F (.prevBlockOffset (c.rest n).offset) ∧
      F.after (splitStores [] c n [] u) (.nextBlockOffset (c.rest n).offset) =
        F (.nextBlockOffset (c.rest n).offset) := by
  have hhead : ¬ (offsets u ≠ [] ∧ (c.rest n).offset = (offsets u).headD nullOffset) := fun e =>
    hu (e.2 ▸ headD_mem e.1 _)
  rw [splitStores, cutStores, Words.after_append, Words.after_append]
  constructor
  · rw [push_prev, if_neg hc, if_neg hhead]
    simp only [restStores, insertStores, List.append_nil, if_true, List.cons_append, List.nil_append,
      Words.after_cons, Words.after_nil]
    rw [Function.update_of_ne (by simp), Function.update_of_ne (by simp), Function.update_of_ne (by simp),
      unlink_prev (Or.inl rfl), if_neg hc, if_neg (by simp)]
  · rw [push_next, if_neg hc]
    simp only [restStores, insertStores, List.append_nil, if_true, List.cons_append, List.nil_append,
      Words.after_cons, Words.after_nil]
    rw [Function.update_of_ne (by simp), Function.update_of_ne (by simp), Function.update_of_ne (by simp),
      unlink_next (Or.inl rfl), if_neg hc, if_neg (by simp)]

/-- What the words `G` say after the split of the only free block `c`, when they were `F` before: everything as it
should be, except that the links of the rest are the old ones. -/
structure SplitOnly (F G : Words) (c : Block) (n : Nat) (u : List Block) : Prop where
  freeHead : G .nextFreeBlockOffset = (c.rest n).offset
  used : IsList G .nextUsedBlockOffset (offsets (⟨c.offset, n⟩ :: u))
  sizes : ∀ b ∈ c.rest n :: ⟨c.offset, n⟩ :: u, G (.dataSize b.offset) = b.dataSize
  prev : G (.prevBlockOffset (c.rest n).offset) = F (.prevBlockOffset (c.rest n).offset)
  next : G (.nextBlockOffset (c.rest n).offset) = F (.nextBlockOffset (c.rest n).offset)

theorem SplitOnly.congr {F' G : Words} {D : Set Nat} (h : SplitOnly F F' c n u)
    (hD : ∀ b ∈ c.rest n :: ⟨c.offset, n⟩ :: u, b.offset ∈ D) (hG : ∀ f : Field, f.On D → G f = F' f) :
    SplitOnly F G c n u := by
  have hr := hD _ (List.mem_cons_self ..)
  have hu : ∀ x ∈ offsets (⟨c.offset, n⟩ :: u), x ∈ D := by
    intro x hx
    obtain ⟨b, hb, rfl⟩ := List.mem_map.1 hx
    exact hD b (List.mem_cons_of_mem _ hb)
  refine ⟨(hG .nextFreeBlockOffset trivial).trans h.freeHead, h.used.congr (hG .nextUsedBlockOffset trivial) ?_ ?_, ?_,
    (hG (.prevBlockOffset _) hr).trans h.prev, (hG (.nextBlockOffset _) hr).trans h.next⟩
  · exact fun x hx => hG (.prevBlockOffset x) (hu x hx)
  · exact fun x hx => hG (.nextBlockOffset x) (hu x hx)
  · exact fun b hb => (hG (.dataSize b.offset) (hD b hb)).trans (h.sizes b hb)

theorem splitOnly_of_wellFormed (h : L.WellFormed db) (hdb : db < 2 ^ 31) (hF : ∀ f, F f < 2 ^ 64) (hholds : L.Holds F)
    (hfree : L.free = [c]) (hz : n + 124 ≤ c.dataSize) :
    SplitOnly F (F.after (splitStores [] c n [] L.used)) c n L.used := by
  have hfree' : L.free = [] ++ c :: [] := hfree
  have hc : c ∈ L.free := by rw [hfree]; simp
  have hr : ∀ b ∈ L.blocks, b.offset ≠ (c.rest n).offset := by
    intro b hb
    have := b.offset_lt_stop
    rcases h.tiled.eq_or_apart hb (Layout.WellFormed.free_mem hc) with rfl | hbc | hbc <;>
      simp only [Block.rest, Block.stop, sizeofBlock] at * <;> omega
  have hru : ∀ b ∈ (⟨c.offset, n⟩ :: L.used : List Block), b.offset ≠ (c.rest n).offset := by
    intro b hb
    rcases List.mem_cons.1 hb with rfl | hb
    · exact hr c (Layout.WellFormed.free_mem hc)
    · exact hr b (Layout.WellFormed.used_mem hb)
  -- with zero links the same stores leave the layout `afterSplit`; they act on each word alone
  let F₀ := Function.update (Function.update F (.prevBlockOffset (c.rest n).offset) nullOffset)
    (.nextBlockOffset (c.rest n).offset) nullOffset
  have hF₀ : ∀ f, f ≠ .prevBlockOffset (c.rest n).offset → f ≠ .nextBlockOffset (c.rest n).offset → F f = F₀ f :=
    fun f hp hn => by simp only [F₀, Function.update_of_ne hn, Function.update_of_ne hp]
  have hF₀64 : ∀ f, F₀ f < 2 ^ 64 := fun f => by
    have := hF f
    simp only [F₀, Function.update_apply, nullOffset]
    split_ifs <;> omega
  have hholds₀ : L.Holds F₀ := by
    have hmem : ∀ x ∈ offsets L.blocks, x ≠ (c.rest n).offset := by
      intro x hx
      obtain ⟨b, hb, rfl⟩ := List.mem_map.1 hx
      exact hr b hb
    rw [offsets, Layout.blocks, List.map_append] at hmem
    refine ⟨hholds.free.congr ?_ ?_ ?_, hholds.used.congr ?_ ?_ ?_, fun b hb => ?_⟩
    · exact (hF₀ _ (by simp) (by simp)).symm
    · exact fun x hx => (hF₀ _ (by simpa using hmem x (List.mem_append_left _ hx)) (by simp)).symm
    · exact fun x hx => (hF₀ _ (by simp) (by simpa using hmem x (List.mem_append_left _ hx))).symm
    · exact (hF₀ _ (by simp) (by simp)).symm
    · exact fun x hx => (hF₀ _ (by simpa using hmem x (List.mem_append_right _ hx)) (by simp)).symm
    · exact fun x hx => (hF₀ _ (by simp) (by simpa using hmem x (List.mem_append_right _ hx))).symm
    · exact (hF₀ _ (by simp) (by simp)).symm.trans (hholds.sizes b hb)
  have hafter := holds_splitStores h hdb hF₀64 hholds₀ hfree' hz (fun _ => by simp [F₀])
  have hlinks := splitStores_links (F := F) (hr c (Layout.WellFormed.free_mem hc)).symm (fun hm => by
    obtain ⟨b, hb, e⟩ := List.mem_map.1 hm
    exact hr b (Layout.WellFormed.used_mem hb) e)
  refine ⟨?_, hafter.used.congr ?_ ?_ ?_, fun b hb => ?_, hlinks.1, hlinks.2⟩
  · exact (Words.after_congr (hF₀ _ (by simp) (by simp)) _).trans hafter.free.head
  · exact Words.after_congr (hF₀ _ (by simp) (by simp)) _
  · intro x hx
    obtain ⟨b, hb, rfl⟩ := List.mem_map.1 hx
    exact Words.after_congr (hF₀ _ (by simpa using hru b hb) (by simp)) _
  · intro x hx
    obtain ⟨b, hb, rfl⟩ := List.mem_map.1 hx
    exact Words.after_congr (hF₀ _ (by simp) (by simpa using hru b hb)) _
  · exact (Words.after_congr (hF₀ _ (by simp) (by simp)) _).trans (hafter.sizes b hb)

end

end KeyValueStore
