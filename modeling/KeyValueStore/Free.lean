import KeyValueStore.FreeList
import Mathlib.Data.List.Perm.Subperm
import Mathlib.Data.List.TakeWhile

/-!
# `free` on a well formed buffer

`free` moves a block from the used list into the free list.  It is given by the stores it makes (`exec_free`) and by the
layout it leaves: in a free list of any order the block is merged where `insert_block_to_free_list` finds its place
(`Sound.holds_freeStores`), and for a well formed layout that is `insertFree` (`holds_freeStores`), and the layout is well
formed again.
-/

namespace KeyValueStore

open DoublyLinked ByteMemory

variable {F : Words} {L : Layout} {db : Nat}

/-! ### Facts about well formed layouts -/

theorem Layout.Sound.distinct (h : L.Sound db) : L.Distinct := by
  constructor
  · rw [offsets, List.Nodup, List.pairwise_map]
    apply h.apart.imp
    intro b c hbc he
    have := b.offset_lt_stop
    have := c.offset_lt_stop
    rcases hbc with hbc | hbc <;> omega
  · intro hm
    obtain ⟨b, hb, he⟩ := List.mem_map.1 hm
    have := (h.inside b hb).1
    rw [he] at this
    exact absurd this (by decide)

theorem Layout.WellFormed.distinct (h : L.WellFormed db) : L.Distinct := h.sound.distinct

/-- Different offsets behind the header of the file are fewer than its bytes. -/
theorem Layout.Sound.length_lt (h : L.Sound db) : L.blocks.length < db := by
  have hsub : offsets L.blocks ⊆ List.range' 1 (db - 1) := by
    intro x hx
    obtain ⟨b, hb, rfl⟩ := List.mem_map.1 hx
    have := h.inside b hb
    have := b.offset_lt_stop
    rw [List.mem_range'_1]
    unfold sizeofBufferHeader at *
    omega
  have hle := (List.subperm_of_subset h.distinct.nodup hsub).length_le
  rw [List.length_map, List.length_range'] at hle
  have := h.header
  unfold sizeofBufferHeader at this
  omega

theorem Layout.WellFormed.free_mem {b : Block} (hb : b ∈ L.free) : b ∈ L.blocks :=
  List.mem_append_left _ hb

theorem Layout.WellFormed.used_mem {b : Block} (hb : b ∈ L.used) : b ∈ L.blocks :=
  List.mem_append_right _ hb

/-- A free list in file order leaves a gap behind each of its blocks. -/
theorem Layout.WellFormed.gapped (h : L.WellFormed db) : L.free.Pairwise (fun b c => b.stop < c.offset) := by
  refine List.Pairwise.imp_of_mem (fun {b c} hb hc hlt => ?_) h.sorted
  have hne := h.coalesced b hb c hc
  have := c.offset_lt_stop
  rcases h.tiled.eq_or_apart (free_mem hb) (free_mem hc) with rfl | hbc | hbc
  · omega
  · omega
  · omega

/-- The headers of the blocks lie inside the file and do not overlap. -/
theorem Layout.Sound.headers (h : L.Sound db) (hdb : db < 2 ^ 31) (hF : ∀ f, F f < 2 ^ 64) :
    Headers {x | x ∈ offsets L.blocks} db F := by
  refine ⟨hdb, h.header, ?_, ?_, fun f _ => hF f⟩
  · intro x hx
    obtain ⟨b, hb, rfl⟩ := List.mem_map.1 hx
    have := h.inside b hb
    have := b.offset_lt_stop
    unfold sizeofBufferHeader at *
    omega
  · intro x hx y hy
    obtain ⟨b, hb, rfl⟩ := List.mem_map.1 hx
    obtain ⟨c, hc, rfl⟩ := List.mem_map.1 hy
    have := b.offset_lt_stop
    have := c.offset_lt_stop
    rcases h.eq_or_apart hb hc with rfl | hbc | hbc <;> omega

theorem Layout.WellFormed.headers (h : L.WellFormed db) (hdb : db < 2 ^ 31) (hF : ∀ f, F f < 2 ^ 64) :
    Headers {x | x ∈ offsets L.blocks} db F :=
  h.sound.headers hdb hF

/-! ### The free list after an insertion -/

private theorem mem_insertFree_offset {b x : Block} {l : List Block} (hx : x ∈ insertFree b l) :
    ∃ y, (y = b ∨ y ∈ l) ∧ x.offset = y.offset := by
  have hjoin : ∀ (c : Block) (l : List Block), x ∈ joinNext c l → x.offset = c.offset ∨ x ∈ l := by
    intro c l hx
    cases l with
    | nil => rw [joinNext, List.mem_singleton] at hx; exact Or.inl (by rw [hx])
    | cons n l =>
      rw [joinNext] at hx
      split at hx
      · rcases List.mem_cons.1 hx with rfl | hx
        · exact Or.inl rfl
        · exact Or.inr (List.mem_cons_of_mem _ hx)
      · rcases List.mem_cons.1 hx with rfl | hx
        · exact Or.inl rfl
        · exact Or.inr hx
  induction l with
  | nil => exact ⟨b, Or.inl rfl, by rw [insertFree, List.mem_singleton] at hx; rw [hx]⟩
  | cons c l ih =>
    rw [insertFree] at hx
    split at hx
    · rcases hjoin _ _ hx with e | hx
      · exact ⟨b, Or.inl rfl, e⟩
      · exact ⟨x, Or.inr hx, rfl⟩
    · split at hx
      · rcases hjoin _ _ hx with e | hx
        · exact ⟨c, Or.inr (List.mem_cons_self ..), e⟩
        · exact ⟨x, Or.inr (List.mem_cons_of_mem _ hx), rfl⟩
      · rcases List.mem_cons.1 hx with rfl | hx
        · exact ⟨x, Or.inr (List.mem_cons_self ..), rfl⟩
        · obtain ⟨y, hy, e⟩ := ih hx
          exact ⟨y, hy.imp_right (List.mem_cons_of_mem _), e⟩

private theorem joinNext_gapped {b : Block} {l : List Block} (hl : l.Pairwise (fun b c => b.stop < c.offset))
    (hb : ∀ x ∈ l, b.stop ≤ x.offset) : (joinNext b l).Pairwise (fun b c => b.stop < c.offset) := by
  cases l with
  | nil => exact List.pairwise_singleton ..
  | cons n l =>
    obtain ⟨hn, hl'⟩ := List.pairwise_cons.1 hl
    have hbn := hb n (List.mem_cons_self ..)
    have hns := n.offset_lt_stop
    rw [joinNext]
    split
    · rename_i e
      exact List.pairwise_cons.2 ⟨fun x hx => by rw [Block.stop_join e]; exact hn x hx, hl'⟩
    · refine List.pairwise_cons.2 ⟨fun x hx => ?_, hl⟩
      rcases List.mem_cons.1 hx with rfl | hx
      · omega
      · have := hn x hx; omega

/-- Insertion keeps a gap behind every free block. -/
theorem insertFree_gapped {b : Block} {l : List Block} (hl : l.Pairwise (fun b c => b.stop < c.offset))
    (hb : ∀ x ∈ l, x.Apart b) : (insertFree b l).Pairwise (fun b c => b.stop < c.offset) := by
  induction l with
  | nil => exact List.pairwise_singleton ..
  | cons c l ih =>
    obtain ⟨hc, hl'⟩ := List.pairwise_cons.1 hl
    have hcb := hb c (List.mem_cons_self ..)
    have hbs := b.offset_lt_stop
    have hcs := c.offset_lt_stop
    have hbl : ∀ x ∈ l, b.offset < c.offset → b.stop ≤ x.offset := by
      intro x hx hlt
      have := hc x hx
      rcases hcb with e | e <;> omega
    rw [insertFree]
    split
    · rename_i hlt
      refine joinNext_gapped hl (fun x hx => ?_)
      rcases List.mem_cons.1 hx with rfl | hx
      · rcases hcb with e | e <;> omega
      · exact hbl x hx hlt
    · split
      · rename_i e
        refine joinNext_gapped hl' (fun x hx => ?_)
        rw [Block.stop_join e]
        have := hc x hx
        rcases hb x (List.mem_cons_of_mem _ hx) with e' | e'
        · have := x.offset_lt_stop; omega
        · exact e'
      · rename_i hlt hne
        have hlt' : c.stop < b.offset := by rcases hcb with e | e <;> omega
        refine List.pairwise_cons.2 ⟨fun x hx => ?_, ih hl' (fun x hx => hb x (List.mem_cons_of_mem _ hx))⟩
        obtain ⟨y, rfl | hy, e⟩ := mem_insertFree_offset hx
        · rw [e]; exact hlt'
        · rw [e]; exact hc y hy

private theorem joinNext_tiled {b : Block} {l u : List Block} (h : Tiled (b :: (l ++ u)) db) :
    Tiled (joinNext b l ++ u) db := by
  cases l with
  | nil => exact h
  | cons n l =>
    rw [joinNext]
    split
    · rename_i e; exact h.join e
    · exact h

/-- Insertion joins blocks, it does not change the bytes covered. -/
private theorem insertFree_tiled {b : Block} {l u : List Block} (h : Tiled (b :: (l ++ u)) db) :
    Tiled (insertFree b l ++ u) db := by
  induction l generalizing u with
  | nil => exact h
  | cons c l ih =>
    rw [insertFree]
    split
    · exact joinNext_tiled h
    · split
      · rename_i e
        exact joinNext_tiled ((h.perm (List.Perm.swap _ _ _)).join e)
      · have h' : Tiled (b :: (l ++ (c :: u))) db := 
          h.perm (List.Perm.cons _ List.perm_middle.symm)
        exact (ih h').perm List.perm_middle

theorem Layout.WellFormed.of_gapped (ht : Tiled L.blocks db) (hg : L.free.Pairwise (fun b c => b.stop < c.offset)) :
    L.WellFormed db := by
  refine ⟨ht, hg.imp (fun {b c} hbc => ?_), ?_⟩
  · have := b.offset_lt_stop; omega
  · intro b hb c hc e
    have h1 := b.offset_lt_stop
    have h2 := c.offset_lt_stop
    have hsymm : Std.Symm (fun b c : Block => b.stop ≠ c.offset ∧ c.stop ≠ b.offset) := ⟨fun _ _ h => ⟨h.2, h.1⟩⟩
    have hne : L.free.Pairwise (fun b c => b.stop ≠ c.offset ∧ c.stop ≠ b.offset) := by
      refine hg.imp (fun {b c} hlt => ?_)
      have := b.offset_lt_stop
      have := c.offset_lt_stop
      omega
    by_cases hbc : b = c
    · subst hbc; omega
    · exact (hne.forall hb hc hbc).1 e

/-! ### `free` -/

/-- The free blocks that `insert_block_to_free_list` passes over for `b`, and the others. -/
def Layout.before (L : Layout) (b : Block) : List Block := L.free.takeWhile (fun x => x.offset < b.offset)

def Layout.behind (L : Layout) (b : Block) : List Block := L.free.dropWhile (fun x => x.offset < b.offset)

/-- The stores of `free` for the block `b` between `u₁` and `u₂` on the used list. -/
def freeStores (L : Layout) (u₁ : List Block) (b : Block) (u₂ : List Block) : List (Field × Nat) :=
  unlinkStores .nextUsedBlockOffset (offsets u₁) b.offset (offsets u₂) ++ insertStores (L.before b) b (L.behind b)

/-- The layout that `free` leaves. -/
def Layout.afterFree (L : Layout) (b : Block) : Layout := ⟨insertFree b L.free, L.used.erase b⟩

section

variable {u₁ u₂ : List Block} {b : Block}

theorem Layout.before_append_behind (L : Layout) (b : Block) : L.before b ++ L.behind b = L.free :=
  List.takeWhile_append_dropWhile

/-- The place of a block that is not on the free list. -/
theorem Layout.freePosition (L : Layout) (hb : b.offset ∉ offsets L.free) : FreePosition b (L.before b) (L.behind b) := by
  constructor
  · intro x hx
    simpa using List.mem_takeWhile_imp hx
  · intro x hx
    have hmem : x ∈ L.free := (List.dropWhile_sublist _).subset (List.mem_of_mem_head? hx)
    have hne : x.offset ≠ b.offset := fun e => hb (e ▸ List.mem_map_of_mem hmem)
    have hnot : ¬ x.offset < b.offset := by
      have := List.head?_dropWhile_not (fun x : Block => decide (x.offset < b.offset)) L.free
      rw [Option.mem_def] at hx
      rw [Layout.behind] at hx
      rw [hx] at this
      simpa using this
    omega

private theorem Layout.Sound.offset_notMem_free (h : L.Sound db) (hb : b ∈ L.used) : b.offset ∉ offsets L.free :=
  fun hm => h.distinct.disjoint _ hm (List.mem_map_of_mem hb)

/-- In a list in file order the blocks in front of `b` and those behind it. -/
theorem Layout.WellFormed.mergedFree_eq (h : L.WellFormed db) (hb : b ∈ L.used) :
    mergedFree (L.before b) b (L.behind b) = insertFree b L.free := by
  have hpos := L.freePosition (h.sound.offset_notMem_free hb)
  have hsub : (L.behind b).Sublist L.free := List.dropWhile_sublist _
  rw [mergedFree_eq_insertFree ?_ hpos.before ?_, L.before_append_behind]
  · exact (h.gapped.sublist (List.takeWhile_sublist _)).imp (fun hlt => Nat.le_of_lt hlt)
  · intro x hx
    have hs := h.sorted.sublist hsub
    rcases hl : L.behind b with _ | ⟨y, l⟩
    · rw [hl] at hx
      cases hx
    · have hy : b.offset < y.offset := hpos.behind y (by rw [hl]; rfl)
      rw [hl] at hx hs
      rcases List.mem_cons.1 hx with rfl | hx
      · exact hy
      · exact Nat.lt_trans hy ((List.pairwise_cons.1 hs).1 x hx)

private theorem Layout.Sound.join {l₁ l₂ u : List Block} {c : Block} (h : Layout.Sound ⟨l₁ ++ b :: c :: l₂, u⟩ db)
    (hbc : b.stop = c.offset) : Layout.Sound ⟨l₁ ++ b.join c :: l₂, u⟩ db := by
  have h₁ : Layout.Sound ⟨b :: c :: (l₁ ++ l₂), u⟩ db := by
    refine h.perm (List.Perm.append_right u ?_)
    exact List.perm_middle.trans (List.Perm.cons _ List.perm_middle)
  obtain ⟨hb, hp⟩ := List.pairwise_cons.1 h₁.apart
  obtain ⟨hc, hp⟩ := List.pairwise_cons.1 hp
  have hstop := Block.stop_join hbc
  refine Layout.Sound.perm (L := ⟨b.join c :: (l₁ ++ l₂), u⟩) ⟨h.header, ?_, ?_⟩
    (List.Perm.append_right u List.perm_middle.symm)
  · refine List.pairwise_cons.2 ⟨fun x hx => ?_, hp⟩
    have := x.offset_lt_stop
    have hb' := hb x (List.mem_cons_of_mem _ hx)
    have hc' := hc x hx
    unfold Block.Apart at *
    rw [hstop]
    simp only [Block.join] at *
    omega
  · intro x hx
    rcases List.mem_cons.1 hx with rfl | hx
    · rw [hstop]
      exact ⟨(h₁.inside b (List.mem_cons_self ..)).1,
        (h₁.inside c (List.mem_cons_of_mem _ (List.mem_cons_self ..))).2⟩
    · exact h₁.inside x (List.mem_cons_of_mem _ (List.mem_cons_of_mem _ hx))

/-- Merging keeps the blocks apart. -/
theorem Layout.Sound.merged {l₁ l₂ u : List Block} (h : Layout.Sound ⟨l₁ ++ b :: l₂, u⟩ db) :
    Layout.Sound ⟨mergedFree l₁ b l₂, u⟩ db := by
  unfold mergedFree
  rcases hp : l₁.getLast?.filter (fun p => p.stop = b.offset) with _ | p <;>
    rcases hn : l₂.head?.filter (fun n => b.stop = n.offset) with _ | n <;>
    simp only [hp, hn]
  · exact h
  · obtain ⟨r, rfl, e⟩ := head?_filter_eq_some hn
    exact h.join (of_decide_eq_true e)
  · obtain ⟨r, rfl, e⟩ := getLast?_filter_eq_some hp
    rw [List.append_assoc, List.singleton_append] at h
    rw [List.dropLast_concat]
    exact h.join (of_decide_eq_true e)
  · obtain ⟨r, rfl, e⟩ := getLast?_filter_eq_some hp
    obtain ⟨r', rfl, e'⟩ := head?_filter_eq_some hn
    rw [List.append_assoc, List.singleton_append] at h
    rw [List.dropLast_concat]
    exact (h.join (of_decide_eq_true e)).join ((Block.stop_join (of_decide_eq_true e)).trans (of_decide_eq_true e'))

/-- Merging makes no new block offset. -/
theorem mem_mergedFree_offset {l₁ l₂ : List Block} {x : Block} (hx : x ∈ mergedFree l₁ b l₂) :
    x.offset ∈ offsets (l₁ ++ b :: l₂) := by
  suffices hy : ∃ y ∈ l₁ ++ b :: l₂, x.offset = y.offset by
    obtain ⟨y, hy, e⟩ := hy
    exact e ▸ List.mem_map_of_mem hy
  unfold mergedFree at hx
  rcases hp : l₁.getLast?.filter (fun p => p.stop = b.offset) with _ | p <;>
    rcases hn : l₂.head?.filter (fun n => b.stop = n.offset) with _ | n <;>
    simp only [hp, hn] at hx
  · exact ⟨x, hx, rfl⟩
  · obtain ⟨r, rfl, -⟩ := head?_filter_eq_some hn
    simp only [List.tail_cons, List.mem_append, List.mem_cons] at hx
    rcases hx with hx | rfl | hx
    · exact ⟨x, by simp [hx], rfl⟩
    · exact ⟨b, by simp, rfl⟩
    · exact ⟨x, by simp [hx], rfl⟩
  · obtain ⟨r, rfl, -⟩ := getLast?_filter_eq_some hp
    simp only [List.dropLast_concat, List.mem_append, List.mem_cons] at hx
    rcases hx with hx | rfl | hx
    · exact ⟨x, by simp [hx], rfl⟩
    · exact ⟨p, by simp, rfl⟩
    · exact ⟨x, by simp [hx], rfl⟩
  · obtain ⟨r, rfl, -⟩ := getLast?_filter_eq_some hp
    obtain ⟨r', rfl, -⟩ := head?_filter_eq_some hn
    simp only [List.dropLast_concat, List.tail_cons, List.mem_append, List.mem_cons] at hx
    rcases hx with hx | rfl | hx
    · exact ⟨x, by simp [hx], rfl⟩
    · exact ⟨p, by simp, rfl⟩
    · exact ⟨x, by simp [hx], rfl⟩

theorem Layout.Sound.erase_used (h : L.Sound db) (hu : L.used = u₁ ++ b :: u₂) :
    L.used.erase b = u₁ ++ u₂ := by
  have hb : b ∉ u₁ := by
    intro hm
    have hn := h.distinct.used_nodup
    rw [hu, offsets, List.map_append, List.map_cons, List.nodup_middle, List.nodup_cons, ← List.map_append] at hn
    exact hn.1 (List.mem_map_of_mem (List.mem_append_left _ hm))
  rw [hu, List.erase_append_right _ hb, List.erase_cons_head]

/-- A used block and its place in the free list: the same blocks in another order. -/
theorem Layout.perm_link (hu : L.used = u₁ ++ b :: u₂) :
    L.blocks.Perm (Layout.blocks ⟨L.before b ++ b :: L.behind b, u₁ ++ u₂⟩) := by
  have h₁ : (L.free ++ L.used).Perm (b :: (L.free ++ (u₁ ++ u₂))) := by
    rw [hu, ← List.append_assoc, ← List.append_assoc]
    exact List.perm_middle
  refine h₁.trans ?_
  rw [← L.before_append_behind b, List.append_assoc]
  show List.Perm _ (L.before b ++ b :: L.behind b ++ (u₁ ++ u₂))
  rw [List.append_assoc]
  exact List.perm_middle.symm

theorem Layout.Sound.insertable (h : L.Sound db) (hD : Headers {x | x ∈ offsets L.blocks} db F)
    (hu : L.used = u₁ ++ b :: u₂) (hholds : Layout.Holds F ⟨L.free, u₁ ++ u₂⟩)
    (hs : F (.dataSize b.offset) = b.dataSize) :
    Insertable {x | x ∈ offsets L.blocks} db F (L.before b) b (L.behind b) (u₁ ++ u₂) := by
  have hbu : b ∈ L.used := by rw [hu]; simp
  have hsplit := L.before_append_behind b
  have hmem : ∀ x ∈ L.before b ++ b :: L.behind b, x ∈ L.blocks := by
    intro x hx
    have hx' : x = b ∨ x ∈ L.before b ++ L.behind b := by
      simp only [List.mem_append, List.mem_cons] at hx ⊢; tauto
    rcases hx' with rfl | hx'
    · exact WellFormed.used_mem hbu
    · exact WellFormed.free_mem (hsplit ▸ hx')
  refine ⟨hD, ?_, hs, h.distinct.perm (L.perm_link hu), fun x hx => List.mem_map_of_mem (hmem x hx),
    fun x hx => (h.inside x (hmem x hx)).2, L.freePosition (h.offset_notMem_free hbu), ?_⟩
  · rw [hsplit]; exact hholds
  · have := h.length_lt
    have : (L.before b).length ≤ L.free.length := (List.takeWhile_sublist _).length_le
    simp only [Layout.blocks, List.length_append] at *
    omega

theorem Layout.Sound.unlinked (h : L.Sound db) (hF : L.Holds F) (hu : L.used = u₁ ++ b :: u₂) :
    Layout.Holds (F.after (unlinkStores .nextUsedBlockOffset (offsets u₁) b.offset (offsets u₂)))
      ⟨L.free, u₁ ++ u₂⟩ := by
  obtain ⟨fr, us⟩ := L
  obtain rfl : us = u₁ ++ b :: u₂ := hu
  exact hF.unlinkUsed h.distinct

/-- `free` of a used block: the stores it makes, for a free list in any order. -/
theorem exec_free (h : L.Sound db) (hdb : db < 2 ^ 31) (hF : ∀ f, F f < 2 ^ 64) (hholds : L.Holds F)
    (hu : L.used = u₁ ++ b :: u₂) :
    Exec {x | x ∈ offsets L.blocks} db F (free b.data) () (freeStores L u₁ b u₂) := by
  have hD := h.headers hdb hF
  have hbu : b ∈ L.used := by rw [hu]; simp
  have hlist := hholds.used
  have hnodup := h.distinct.used_nodup
  rw [hu] at hlist hnodup
  simp only [offsets, List.map_append, List.map_cons] at hlist hnodup
  have hrm := exec_removeBlockFromList hD (Or.inr rfl) hlist hnodup (fun x hx => by
    have : x ∈ offsets L.used := by rw [hu]; simpa using hx
    obtain ⟨y, hy, rfl⟩ := List.mem_map.1 this
    exact List.mem_map_of_mem (Layout.WellFormed.used_mem hy))
  have hs := hholds.sizes b (Layout.WellFormed.used_mem hbu)
  have hins := h.insertable (hD.after hrm.stores) hu (h.unlinked hholds hu) (by rw [unlink_dataSize (Or.inr rfl), hs])
  unfold free
  rw [show b.data - sizeofBlock = b.offset from Nat.add_sub_cancel ..]
  exact exec_bind hD hrm (exec_insertBlockToFreeList hins)

theorem Layout.Sound.holds_freeStores (h : L.Sound db) (hdb : db < 2 ^ 31) (hF : ∀ f, F f < 2 ^ 64) (hholds : L.Holds F)
    (hu : L.used = u₁ ++ b :: u₂) :
    Layout.Holds (F.after (freeStores L u₁ b u₂)) ⟨mergedFree (L.before b) b (L.behind b), u₁ ++ u₂⟩ := by
  have hbu : b ∈ L.used := by rw [hu]; simp
  have hs := hholds.sizes b (Layout.WellFormed.used_mem hbu)
  have hstores : StoresOn {x | x ∈ offsets L.blocks}
      (unlinkStores .nextUsedBlockOffset (offsets u₁) b.offset (offsets u₂)) := fun w hw =>
    (exec_free h hdb hF hholds hu).stores w (List.mem_append_left _ hw)
  have hins := h.insertable ((h.headers hdb hF).after hstores) hu (h.unlinked hholds hu)
    (by rw [unlink_dataSize (Or.inr rfl), hs])
  rw [freeStores, Words.after_append]
  exact holds_insertStores hins (fun _ => ⟨by rw [unlink_prev (Or.inr rfl), if_pos rfl],
    by rw [unlink_next (Or.inr rfl), if_pos rfl]⟩)

/-- The layout that `free` leaves. -/
theorem holds_freeStores (h : L.WellFormed db) (hdb : db < 2 ^ 31) (hF : ∀ f, F f < 2 ^ 64) (hholds : L.Holds F)
    (hu : L.used = u₁ ++ b :: u₂) : (L.afterFree b).Holds (F.after (freeStores L u₁ b u₂)) := by
  have hbu : b ∈ L.used := by rw [hu]; simp
  rw [Layout.afterFree, h.sound.erase_used hu, ← h.mergedFree_eq hbu]
  exact h.sound.holds_freeStores hdb hF hholds hu

/-- `free` keeps the layout well formed. -/
theorem Layout.WellFormed.afterFree (h : L.WellFormed db) (hb : b ∈ L.used) : (L.afterFree b).WellFormed db := by
  have hperm : L.blocks.Perm (b :: (L.free ++ L.used.erase b)) :=
    (List.Perm.append_left L.free (List.perm_cons_erase hb)).trans List.perm_middle
  have ht := h.tiled.perm hperm
  refine .of_gapped (insertFree_tiled ht) (insertFree_gapped h.gapped fun x hx => ?_)
  rcases h.tiled.eq_or_apart (free_mem hx) (used_mem hb) with rfl | hxb
  · exact absurd (List.mem_map_of_mem hb) (h.distinct.disjoint _ (List.mem_map_of_mem hx))
  · exact hxb

/-- `free` makes no new block offset. -/
theorem Layout.offset_afterFree (hb : b ∈ L.used) {c : Block}
    (hc : c ∈ (L.afterFree b).blocks) : c.offset ∈ offsets L.blocks := by
  rcases List.mem_append.1 hc with hc | hc
  · obtain ⟨d, hd, he⟩ := mem_insertFree_offset hc
    rw [he]
    rcases hd with rfl | hd
    · exact List.mem_map_of_mem (WellFormed.used_mem hb)
    · exact List.mem_map_of_mem (WellFormed.free_mem hd)
  · exact List.mem_map_of_mem (WellFormed.used_mem (List.mem_of_mem_erase hc))

end

end KeyValueStore
