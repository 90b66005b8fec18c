import KeyValueStore.CleanLinks
import KeyValueStore.FileBuffer

/-!
# Blocks of one size

When every `alloc` asks for the same `n` bytes, a block starts a whole number of steps of `n + 24` bytes behind the header of
the file: the rest of a split starts one step behind the block that is split, and a merged block starts where its first
part did.  A write into the `n` bytes that were asked for meets no other point of this grid, so the links that are read
there when a block is split are `NULL`, and no split is stale (`Gridded.not_staleSplit`).
-/

namespace KeyValueStore

open ByteMemory DoublyLinked

variable {dbSize n : Nat} {s s' : FileBackedBuffer} {L : Layout}

/-- Where the blocks of a file start if all allocations ask for `n` bytes. -/
def grid (n db : Nat) : Set Nat := {x | (∃ k, x = 16 + k * (n + 24)) ∧ x + 24 ≤ db}

/-- All blocks start on the grid, and the links at the other points of the grid are `NULL`. -/
structure Layout.Gridded (n db : Nat) (F : Words) (L : Layout) : Prop where
  wellFormed : L.WellFormed db
  clean : L.Clean (grid n db) F
  mem : ∀ b ∈ L.blocks, b.offset ∈ grid n db

def FileBackedBuffer.Gridded (n : Nat) (s : FileBackedBuffer) : Prop := ∃ L : Layout, L.Gridded n s.dbSize s.field

theorem FileBackedBuffer.Gridded.wellFormed (h : s.Gridded n) : WellFormed s := by
  obtain ⟨L, hL⟩ := h
  exact ⟨L, hL.clean.holds, hL.wellFormed⟩

private theorem grid_apart {db x y : Nat} (hx : x ∈ grid n db) (hy : y ∈ grid n db) :
    x = y ∨ x + (n + 24) ≤ y ∨ y + (n + 24) ≤ x := by
  obtain ⟨⟨k, rfl⟩, -⟩ := hx
  obtain ⟨⟨m, rfl⟩, -⟩ := hy
  rcases Nat.lt_trichotomy k m with hkm | rfl | hmk
  · have := Nat.mul_le_mul_right (n + 24) (Nat.succ_le_of_lt hkm)
    rw [Nat.succ_mul] at this
    omega
  · exact Or.inl rfl
  · have := Nat.mul_le_mul_right (n + 24) (Nat.succ_le_of_lt hmk)
    rw [Nat.succ_mul] at this
    omega

private theorem headers_grid {db : Nat} {F : Words} (hdb : db < 2 ^ 31) (h16 : 16 ≤ db) (hF : ∀ f, F f < 2 ^ 64) :
    Headers (grid n db) db F := by
  refine ⟨hdb, h16, ?_, fun x hx y hy => ?_, fun f _ => hF f⟩
  · rintro x ⟨⟨k, rfl⟩, hx⟩
    omega
  · have := grid_apart hx hy
    omega

theorem StoresOn.mono {D D' : Set Nat} {ws : List (Field × Nat)} (h : StoresOn D ws) (hD : D ⊆ D') : StoresOn D' ws := by
  intro w hw
  obtain ⟨hf, hv⟩ := h w hw
  refine ⟨?_, hv⟩
  rcases w with ⟨f, v⟩
  cases f <;> first
    | trivial
    | exact hD hf

private theorem Layout.WellFormed.header_le {db : Nat} (h : L.WellFormed db) : 16 ≤ db := by
  have := h.tiled.sum
  unfold sizeofBufferHeader at this
  omega

namespace Layout.Gridded

theorem headers (h : L.Gridded n s.dbSize s.field) : Headers (grid n s.dbSize) s.dbSize s.field :=
  headers_grid s.dbSize_lt h.wellFormed.header_le s.field_lt

private theorem of_after {L' : Layout} (h : L.Gridded n s.dbSize s.field) {D : Set Nat} (hD : D ⊆ grid n s.dbSize)
    {ws : List (Field × Nat)} (hws : StoresOn D ws) (hwf : L'.WellFormed s.dbSize)
    (hc : L'.Clean (grid n s.dbSize) (Words.after s.field ws)) (hmem : ∀ b ∈ L'.blocks, b.offset ∈ grid n s.dbSize) :
    L'.Gridded n (s.after ws).dbSize (s.after ws).field := by
  have hagree : Agrees (grid n s.dbSize) (Words.after s.field ws) (s.after ws) :=
    Agrees.after h.headers (fun _ _ => rfl) (hws.mono hD)
  refine ⟨hwf, ⟨hc.holds.congr hmem hagree, hc.distinct, fun x hx hm => ?_⟩, hmem⟩
  obtain ⟨hp, hn⟩ := hc.cleared x hx hm
  have hxp : (Field.prevBlockOffset x).On (grid n s.dbSize) := hx
  have hxn : (Field.nextBlockOffset x).On (grid n s.dbSize) := hx
  exact ⟨(hagree _ hxp).trans hp, (hagree _ hxn).trans hn⟩

private theorem offsets_subset (h : L.Gridded n s.dbSize s.field) : {x | x ∈ offsets L.blocks} ⊆ grid n s.dbSize := by
  intro x hx
  obtain ⟨b, hb, rfl⟩ := List.mem_map.1 hx
  exact h.mem b hb

/-- The rest of a split starts on the grid, and no block starts there. -/
theorem rest (h : L.Gridded n s.dbSize s.field) {c : Block} (hc : c ∈ L.free) (hz : n + 124 ≤ c.dataSize) :
    (c.rest n).offset ∈ grid n s.dbSize ∧ (c.rest n).offset ∉ offsets L.blocks := by
  obtain ⟨⟨k, hk⟩, -⟩ := h.mem c (WellFormed.free_mem hc)
  have hstop := (h.wellFormed.tiled.bounds (WellFormed.free_mem hc)).2
  have hoff : (c.rest n).offset = c.offset + 24 + n := rfl
  refine ⟨⟨⟨k + 1, ?_⟩, ?_⟩, fun hm => ?_⟩
  · rw [hoff, hk, Nat.succ_mul]
    omega
  · simp only [Block.stop, sizeofBlock] at hstop
    omega
  · obtain ⟨b, hb, he⟩ := List.mem_map.1 hm
    have := b.offset_lt_stop
    rcases h.wellFormed.tiled.eq_or_apart hb (WellFormed.free_mem hc) with rfl | hbc | hbc <;>
      simp only [Block.stop, sizeofBlock] at * <;> omega

theorem not_staleSplit (h : L.Gridded n s.dbSize s.field) : ¬ StaleSplit s n := by
  intro hst
  obtain ⟨c, hfree, hz, hl⟩ := (staleSplit_iff h.clean.holds h.wellFormed.sound).1 hst
  have hc : c ∈ L.free := by rw [hfree]; exact List.mem_singleton_self c
  obtain ⟨hr, hrest⟩ := h.rest hc hz
  exact hl (h.clean.cleared _ hr hrest)

theorem alloc (h : L.Gridded n s.dbSize s.field) :
    KeyValueStore.alloc n s = some (none, s) ∨ ∃ p s', KeyValueStore.alloc n s = some (some p, s') ∧ s'.Gridded n := by
  have hdb := s.dbSize_lt
  have hF := s.field_lt
  rcases L.first_fit n with hsmall | ⟨l₁, c, l₂, hfree, hsmall, hn⟩
  · have hrun := (exec_alloc_none h.wellFormed.sound hdb hF h.clean.holds hsmall).run s rfl fun _ _ => rfl
    rw [FileBackedBuffer.after_nil] at hrun
    exact Or.inl hrun
  · right
    have hc : c ∈ L.free := by rw [hfree]; simp
    by_cases hz : n + 124 ≤ c.dataSize
    · obtain ⟨hr, hrest⟩ := h.rest hc hz
      have hx := exec_alloc_split h.wellFormed hdb hF h.clean.holds hfree hsmall hz
      refine ⟨_, _, hx.run s rfl fun _ _ => rfl, _, h.of_after ?_ hx.stores (h.wellFormed.afterSplit hfree hz)
        (h.clean.split h.wellFormed hdb hF hfree hz hr hrest) fun b hb => ?_⟩
      · intro x hx
        rcases List.mem_cons.1 hx with rfl | hx
        · exact hr
        · exact h.offsets_subset hx
      · rcases mem_afterSplit hb with rfl | hb
        · exact hr
        · rw [← hfree] at hb
          exact h.offsets_subset hb
    · have hx := exec_alloc_whole h.wellFormed.sound hdb hF h.clean.holds hfree hsmall hn (by omega)
      refine ⟨_, _, hx.run s rfl fun _ _ => rfl, _, h.of_after h.offsets_subset hx.stores (h.wellFormed.afterWhole hfree)
        (h.clean.whole h.wellFormed hfree) fun b hb => h.mem b ?_⟩
      simp only [Layout.blocks, hfree, List.mem_append, List.mem_cons] at hb ⊢
      tauto

theorem free (h : L.Gridded n s.dbSize s.field) {b : Block} (hb : b ∈ L.used) :
    ∃ s', KeyValueStore.free b.data s = some ((), s') ∧ s'.Gridded n := by
  obtain ⟨u₁, u₂, hu⟩ := List.append_of_mem hb
  have hx := exec_free h.wellFormed.sound s.dbSize_lt s.field_lt h.clean.holds hu
  refine ⟨_, hx.run s rfl fun _ _ => rfl, _, h.of_after h.offsets_subset hx.stores (h.wellFormed.afterFree hb)
    (h.clean.free h.wellFormed s.dbSize_lt s.field_lt hu (h.mem b (WellFormed.used_mem hb))) fun c hc => ?_⟩
  exact h.offsets_subset (Layout.offset_afterFree hb hc)

/-- A write into the first `n` bytes of a payload meets no point of the grid. -/
theorem write (h : L.Gridded n s.dbSize s.field) {b : Block} (hb : b ∈ L.used) {i : Nat} {bs : List UInt8}
    (hi : i + bs.length ≤ b.dataSize) (hn : i + bs.length ≤ n) :
    L.Gridded n s.dbSize (FileBackedBuffer.field { s with base := setBytes s.base (b.data + i) bs }) := by
  refine ⟨h.wellFormed, ⟨holds_write h.clean.holds h.wellFormed.sound hb hi, h.clean.distinct, fun x hx hm => ?_⟩, h.mem⟩
  have hkeep : ∀ y, x ≤ y → y < x + 16 → setBytes s.base (b.data + i) bs y = s.base y := by
    intro y hy hy'
    apply setBytes_outside
    have := grid_apart hx (h.mem b (WellFormed.used_mem hb))
    simp only [Block.data, sizeofBlock]
    omega
  obtain ⟨hp, hn⟩ := h.clean.cleared x hx hm
  constructor
  · exact (word_congr fun j hj => hkeep _ (by simp only [Field.address]; omega) (by simp only [Field.address]; omega)).trans hp
  · exact (word_congr fun j hj => hkeep _ (by simp only [Field.address]; omega) (by simp only [Field.address]; omega)).trans hn

end Layout.Gridded

/-! ### The operations of the buffer -/

namespace FileBackedBuffer.Gridded

theorem not_staleSplit (h : s.Gridded n) : ¬ StaleSplit s n := by
  obtain ⟨L, hL⟩ := h
  exact hL.not_staleSplit

theorem alloc (h : s.Gridded n) : (allocPlain n s).2.Gridded n := by
  obtain ⟨L, hL⟩ := id h
  unfold allocPlain
  rcases hL.alloc with hrun | ⟨p, s', hrun, hg⟩
  · rw [hrun]
    exact h
  · rw [hrun]
    exact hg

theorem free (h : s.Gridded n) {b : Payload} (hb : b ∈ (guardedBuffer dbSize).usedBlocks s) :
    ((guardedBuffer dbSize).free b.data s).Gridded n := by
  obtain ⟨L, hL⟩ := h
  rw [guardedBuffer_used hL.clean.holds hL.wellFormed] at hb
  obtain ⟨c, hc, rfl⟩ := List.mem_map.1 hb
  obtain ⟨s', hrun, hg⟩ := hL.free hc
  have hs' : (guardedBuffer dbSize).free c.payload.data s = s' := by
    show (KeyValueStore.free c.data s).elim s Prod.snd = s'
    rw [hrun]
    rfl
  rw [hs']
  exact hg

theorem write (h : s.Gridded n) {b : Payload} (hb : b ∈ (guardedBuffer dbSize).usedBlocks s) {a : Nat} {bs : List UInt8}
    (ha : b.data ≤ a) (hsize : a + bs.length ≤ b.data + b.size) (hn : a + bs.length ≤ b.data + n) :
    ((guardedBuffer dbSize).write a bs s).Gridded n := by
  obtain ⟨L, hL⟩ := h
  rw [guardedBuffer_used hL.clean.holds hL.wellFormed] at hb
  obtain ⟨c, hc, rfl⟩ := List.mem_map.1 hb
  simp only [Block.payload] at ha hsize hn
  obtain ⟨i, rfl⟩ : ∃ i, a = c.data + i := ⟨a - c.data, by omega⟩
  exact ⟨L, hL.write hc (by omega) (by omega)⟩

end FileBackedBuffer.Gridded

theorem newFile_field (dbSize : Nat) (h : dbSize < 2 ^ 31) (f : Field) : (newFile dbSize h).field f = nullOffset :=
  word_eq_zero.2 fun _ _ => rfl

/-- A new file is gridded for every size. -/
theorem emptyFile_gridded (dbSize : Nat) (h40 : 40 ≤ dbSize) (h : dbSize < 2 ^ 31) (n : Nat) :
    (emptyFile dbSize h).Gridded n := by
  obtain ⟨b, hb, hdb, hL, hwf⟩ := initBuffer_layout dbSize h40 h
  have hx := exec_initBuffer (headers_newFile h40 h) h40
  have hrun := hx.run _ rfl fun _ _ => rfl
  obtain rfl : b = (newFile dbSize h).after (initStores dbSize) := (Prod.mk.inj (Option.some.inj (hb.symm.trans hrun))).2
  have he : emptyFile dbSize h = (newFile dbSize h).after (initStores dbSize) := by rw [emptyFile, hb]; rfl
  have h16 : (16 : Nat) ∈ grid n dbSize := ⟨⟨0, by omega⟩, h40⟩
  have hgrid : Headers (grid n dbSize) dbSize (newFile dbSize h).field :=
    headers_grid h (by omega) (FileBackedBuffer.field_lt _)
  have hsub : ({x | x ∈ [16]} : Set Nat) ⊆ grid n dbSize := fun x hx => List.mem_singleton.1 hx ▸ h16
  have hagree := Agrees.after hgrid (fun _ _ => rfl) (hx.stores.mono hsub)
  rw [he]
  refine ⟨_, hwf, ⟨hL, hwf.distinct, fun x hx hm => ?_⟩, fun c hc => ?_⟩
  · have hne : x ≠ 16 := fun e => hm (by rw [e]; exact List.mem_singleton_self 16)
    have hxp : (Field.prevBlockOffset x).On (grid n dbSize) := hx
    have hxn : (Field.nextBlockOffset x).On (grid n dbSize) := hx
    constructor
    · rw [hagree _ hxp, Words.after_of_forall_ne _ (by simp [initStores, hne.symm]), newFile_field]
    · rw [hagree _ hxn, Words.after_of_forall_ne _ (by simp [initStores, hne.symm]), newFile_field]
  · rw [List.mem_singleton.1 hc]
    exact h16

end KeyValueStore
