import KeyValueStore.FileBackedBuffer
import KeyValueStore.DoublyLinked
import Mathlib.Data.List.Pairwise
import Mathlib.Data.List.Perm.Basic

/-!
# Layouts

A layout lists the free and the used blocks of a buffer in list order.  `Layout.Holds F L` reads it off the header
words `F`; `Layout.WellFormed L db` says that the blocks tile the file behind its header and that the free list is in file
order with no two blocks adjacent.  `WellFormed` is the conjunction, for a file.

Tiling is kept as a property of the unordered blocks (`Tiled`), which the operations change by joining two adjacent
blocks and by cutting one in two.
-/

namespace KeyValueStore

open ByteMemory DoublyLinked

structure Block where
  offset : Nat
  dataSize : Nat
  deriving DecidableEq, Repr

/-- The offset of the block's payload. -/
def Block.data (b : Block) : Nat := b.offset + sizeofBlock

/-- The end of the block. -/
def Block.stop (b : Block) : Nat := b.offset + sizeofBlock + b.dataSize

theorem Block.offset_lt_stop (b : Block) : b.offset + 24 ≤ b.stop := by
  unfold Block.stop sizeofBlock; omega

/-- The block made of `b` and the block `c` behind it. -/
def Block.join (b c : Block) : Block := ⟨b.offset, b.dataSize + (sizeofBlock + c.dataSize)⟩

theorem Block.stop_join {b c : Block} (h : b.stop = c.offset) : (b.join c).stop = c.stop := by
  simp only [Block.stop, Block.join] at *; omega

/-- No byte belongs to both blocks. -/
def Block.Apart (b c : Block) : Prop := b.stop ≤ c.offset ∨ c.stop ≤ b.offset

theorem Block.Apart.symm {b c : Block} (h : b.Apart c) : c.Apart b := Or.symm h

instance : Std.Symm Block.Apart := ⟨fun _ _ => Block.Apart.symm⟩

structure Layout where
  free : List Block
  used : List Block
  deriving DecidableEq, Repr

/-- All blocks. -/
def Layout.blocks (L : Layout) : List Block := L.free ++ L.used

/-! ### Lists in the header words -/

/-- The words hold the `NULL`-terminated doubly linked list of the offsets `l`. -/
structure IsList (F : Field → Nat) (listHead : Field) (l : List Nat) : Prop where
  head : F listHead = l.headD nullOffset
  seg : Seg (fun b => F (.prevBlockOffset b)) (fun b => F (.nextBlockOffset b)) nullOffset l nullOffset

/-- The free list and the used list read from the words are those of the layout. -/
structure Layout.Holds (F : Field → Nat) (L : Layout) : Prop where
  free : IsList F .nextFreeBlockOffset (L.free.map Block.offset)
  used : IsList F .nextUsedBlockOffset (L.used.map Block.offset)
  sizes : ∀ b ∈ L.blocks, F (.dataSize b.offset) = b.dataSize

/-- The list with a given head is determined by the words. -/
theorem IsList.unique {F : Field → Nat} {listHead : Field} {l l' : List Nat} (h : IsList F listHead l)
    (h' : IsList F listHead l') (hl : nullOffset ∉ l) (hl' : nullOffset ∉ l') : l = l' :=
  h.seg.eq_of_head h'.seg hl hl' (h.head.symm.trans h'.head)

/-- The first block of a list has no predecessor. -/
theorem IsList.prev_head {F : Field → Nat} {listHead : Field} {l : List Nat} (h : IsList F listHead l)
    (hne : F listHead ≠ nullOffset) : F (.prevBlockOffset (F listHead)) = nullOffset := by
  cases l with
  | nil => exact absurd h.head hne
  | cons b l =>
    have hhead : F listHead = b := h.head
    rw [hhead]
    exact h.seg.1

/-! ### Tilings -/

/-- The blocks follow each other from `a` to `e` without a gap. -/
def Tiles : Nat → List Block → Nat → Prop
  | a, [], e => a = e
  | a, b :: bs, e => b.offset = a ∧ Tiles b.stop bs e

/-- In some order the blocks tile the file behind its header. -/
def Tiled (bs : List Block) (db : Nat) : Prop := ∃ l : List Block, l.Perm bs ∧ Tiles sizeofBufferHeader l db

structure Layout.WellFormed (L : Layout) (db : Nat) : Prop where
  tiled : Tiled L.blocks db
  sorted : L.free.Pairwise (fun b c => b.offset < c.offset)
  coalesced : ∀ b ∈ L.free, ∀ c ∈ L.free, b.stop ≠ c.offset

/-- The blocks lie behind the header of the file and inside it, and share no byte. -/
structure Layout.Sound (L : Layout) (db : Nat) : Prop where
  header : sizeofBufferHeader ≤ db
  apart : L.blocks.Pairwise Block.Apart
  inside : ∀ b ∈ L.blocks, sizeofBufferHeader ≤ b.offset ∧ b.stop ≤ db

/-- The file holds a well formed layout: both lists are `NULL`-terminated with the right back links, they and the sizes
in the headers are those of the layout, and the layout is well formed. -/
def WellFormed (s : FileBackedBuffer) : Prop := ∃ L : Layout, L.Holds s.field ∧ L.WellFormed s.dbSize

theorem tiles_append {a e : Nat} {l₁ l₂ : List Block} :
    Tiles a (l₁ ++ l₂) e ↔ ∃ m, Tiles a l₁ m ∧ Tiles m l₂ e := by
  induction l₁ generalizing a with
  | nil => simp [Tiles]
  | cons b bs ih => simp only [List.cons_append, Tiles, ih]; tauto

theorem Tiles.le {a e : Nat} {l : List Block} (h : Tiles a l e) : a ≤ e := by
  induction l generalizing a with
  | nil => exact Nat.le_of_eq h
  | cons b bs ih =>
    have h1 := ih h.2
    have h2 := b.offset_lt_stop
    have h3 := h.1
    omega

theorem Tiles.bounds {a e : Nat} {l : List Block} (h : Tiles a l e) {b : Block} (hb : b ∈ l) :
    a ≤ b.offset ∧ b.stop ≤ e := by
  obtain ⟨l₁, l₂, rfl⟩ := List.append_of_mem hb
  obtain ⟨m, h₁, h₂, h₃⟩ := tiles_append.1 h
  have := h₁.le
  have := h₃.le
  omega

theorem Tiles.pairwise {a e : Nat} {l : List Block} (h : Tiles a l e) :
    l.Pairwise (fun b c => b.stop ≤ c.offset) := by
  induction l generalizing a with
  | nil => exact List.Pairwise.nil
  | cons b bs ih => exact List.pairwise_cons.2 ⟨fun c hc => (h.2.bounds hc).1, ih h.2⟩

theorem Tiles.sum {a e : Nat} {l : List Block} (h : Tiles a l e) :
    a + (l.map fun b => sizeofBlock + b.dataSize).sum = e := by
  induction l generalizing a with
  | nil => simpa [Tiles] using h
  | cons b bs ih =>
    have := ih h.2
    have := h.1
    simp only [List.map_cons, List.sum_cons, Block.stop] at *
    omega

theorem Tiled.perm {bs cs : List Block} {db : Nat} (h : Tiled bs db) (hp : bs.Perm cs) : Tiled cs db := by
  obtain ⟨l, hl, ht⟩ := h
  exact ⟨l, hl.trans hp, ht⟩

theorem Tiled.bounds {bs : List Block} {db : Nat} (h : Tiled bs db) {b : Block} (hb : b ∈ bs) :
    sizeofBufferHeader ≤ b.offset ∧ b.stop ≤ db := by
  obtain ⟨l, hl, ht⟩ := h
  exact ht.bounds (hl.mem_iff.2 hb)

theorem Tiled.pairwise {bs : List Block} {db : Nat} (h : Tiled bs db) : bs.Pairwise Block.Apart := by
  obtain ⟨l, hl, ht⟩ := h
  refine (hl.pairwise_iff fun h => h.symm).1 (ht.pairwise.imp Or.inl)

/-- Used bytes and free bytes add up to the file behind its header. -/
theorem Tiled.sum {bs : List Block} {db : Nat} (h : Tiled bs db) :
    sizeofBufferHeader + (bs.map fun b => sizeofBlock + b.dataSize).sum = db := by
  obtain ⟨l, hl, ht⟩ := h
  rw [← (hl.map _).sum_nat]
  exact ht.sum

theorem Tiled.nodup {bs : List Block} {db : Nat} (h : Tiled bs db) : (bs.map Block.offset).Nodup := by
  rw [List.Nodup, List.pairwise_map]
  apply h.pairwise.imp
  intro b c hbc he
  have := b.offset_lt_stop
  have := c.offset_lt_stop
  rcases hbc with hbc | hbc <;> omega

/-- Two blocks of a tiling are the same or share no byte. -/
theorem Tiled.eq_or_apart {bs : List Block} {db : Nat} (h : Tiled bs db) {b c : Block} (hb : b ∈ bs) (hc : c ∈ bs) :
    b = c ∨ b.Apart c := by
  by_cases he : b = c
  · exact Or.inl he
  · exact Or.inr (h.pairwise.forall hb hc he)

/-- Two adjacent blocks of a tiling may be joined. -/
theorem Tiled.join {b c : Block} {bs : List Block} {db : Nat} (h : Tiled (b :: c :: bs) db)
    (hbc : b.stop = c.offset) : Tiled (b.join c :: bs) db := by
  obtain ⟨l, hl, ht⟩ := h
  obtain ⟨l₁, l₂, rfl⟩ := List.append_of_mem (hl.mem_iff.2 (List.mem_cons_self ..))
  have hl' : (l₁ ++ l₂).Perm (c :: bs) := (List.perm_middle.symm.trans hl).cons_inv
  obtain ⟨m, h₁, h₂, h₃⟩ := tiles_append.1 ht
  have hc := hl'.mem_iff.2 (List.mem_cons_self ..)
  have hc' := c.offset_lt_stop
  cases l₂ with
  | nil =>
    have hc₁ := (h₁.bounds (by simpa using hc)).2
    have := b.offset_lt_stop
    omega
  | cons d ds =>
    obtain ⟨hd, h₄⟩ := h₃
    have hdc : d = c := by
      by_contra hne
      rcases List.mem_append.1 hc with hc | hc
      · have := (h₁.bounds hc).2
        have := b.offset_lt_stop
        omega
      · rcases List.mem_cons.1 hc with hc | hc
        · exact hne hc.symm
        · have := (h₄.bounds hc).1
          have := d.offset_lt_stop
          omega
    subst hdc
    refine ⟨l₁ ++ b.join d :: ds, ?_, tiles_append.2 ⟨m, h₁, h₂, ?_⟩⟩
    · exact List.perm_middle.trans ((List.perm_middle.symm.trans hl').cons_inv.cons _)
    · rw [Block.stop_join hbc]; exact h₄

/-! ### Sound layouts -/

theorem Tiled.sound {L : Layout} {db : Nat} (h : Tiled L.blocks db) : L.Sound db :=
  ⟨by have := h.sum; omega, h.pairwise, fun _ hb => h.bounds hb⟩

theorem Layout.WellFormed.sound {L : Layout} {db : Nat} (h : L.WellFormed db) : L.Sound db := h.tiled.sound

theorem Layout.Sound.perm {L L' : Layout} {db : Nat} (h : L.Sound db) (hp : L.blocks.Perm L'.blocks) : L'.Sound db :=
  ⟨h.header, (hp.pairwise_iff fun h => h.symm).1 h.apart, fun b hb => h.inside b (hp.mem_iff.2 hb)⟩

theorem Layout.Sound.sublist {L L' : Layout} {db : Nat} (h : L.Sound db) (hf : L'.free.Sublist L.free)
    (hu : L'.used.Sublist L.used) : L'.Sound db :=
  have hs : L'.blocks.Sublist L.blocks := hf.append hu
  ⟨h.header, h.apart.sublist hs, fun b hb => h.inside b (hs.subset hb)⟩

/-- Two blocks are the same or share no byte. -/
theorem Layout.Sound.eq_or_apart {L : Layout} {db : Nat} (h : L.Sound db) {b c : Block} (hb : b ∈ L.blocks)
    (hc : c ∈ L.blocks) : b = c ∨ b.Apart c := by
  by_cases he : b = c
  · exact Or.inl he
  · exact Or.inr (h.apart.forall hb hc he)

/-- No block is listed twice, on one list or on both. -/
theorem Layout.WellFormed.nodup {L : Layout} {db : Nat} (h : L.WellFormed db) :
    (L.blocks.map Block.offset).Nodup :=
  h.tiled.nodup

/-- The payloads of two used blocks share no byte. -/
theorem Layout.WellFormed.payloads_apart {L : Layout} {db : Nat} (h : L.WellFormed db) :
    L.used.Pairwise (fun b c => b.stop ≤ c.data ∨ c.stop ≤ b.data) := by
  apply (List.pairwise_append.1 h.tiled.pairwise).2.1.imp
  intro b c hbc
  unfold Block.data
  rcases hbc with hbc | hbc <;> omega

/-- Free bytes and used bytes, the headers included, make up the file behind its header. -/
theorem Layout.WellFormed.bytes {L : Layout} {db : Nat} (h : L.WellFormed db) :
    (L.free.map fun b => sizeofBlock + b.dataSize).sum + (L.used.map fun b => sizeofBlock + b.dataSize).sum =
      db - sizeofBufferHeader := by
  have := h.tiled.sum
  rw [Layout.blocks, List.map_append, List.sum_append] at this
  omega

/-- A block of a tiling may be cut in two. -/
theorem Tiled.cut {b c d : Block} {bs : List Block} {db : Nat} (h : Tiled (b :: bs) db)
    (hc : c.offset = b.offset) (hcd : c.stop = d.offset) (hd : d.stop = b.stop) : Tiled (c :: d :: bs) db := by
  obtain ⟨l, hl, ht⟩ := h
  obtain ⟨l₁, l₂, rfl⟩ := List.append_of_mem (hl.mem_iff.2 (List.mem_cons_self ..))
  obtain ⟨m, h₁, h₂, h₃⟩ := tiles_append.1 ht
  refine ⟨l₁ ++ c :: d :: l₂, ?_, tiles_append.2 ⟨m, h₁, hc.trans h₂, hcd.symm, hd ▸ h₃⟩⟩
  exact List.perm_middle.trans ((List.perm_middle.trans ((List.perm_middle.symm.trans hl).cons_inv.cons d)).cons c)

end KeyValueStore
