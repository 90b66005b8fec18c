import KeyValueStore.Effects
import KeyValueStore.Spans
import Mathlib.Data.Finset.Dedup
import Mathlib.Data.Finset.Insert

/-!
# The free list and the free bytes

The free list of a well formed layout is determined by the bytes of the free blocks, since these lie apart from each other.
So `alloc` fails only when no interval of the file is large enough (`alloc_none_iff`), the order in which blocks are freed
does not matter (`frees_commute`), and a block that is freed right after it was handed out is put back (`free_undoes_alloc`).
-/

namespace KeyValueStore

open ByteMemory Spans

/-- The bytes of the blocks, their headers included. -/
abbrev CoversByte (l : List Block) (x : Nat) : Prop := Covers Block.offset Block.stop l x

variable {s s' : FileBackedBuffer} {L : Layout} {n p : Nat} {b c : Block} {l : List Block} {db : Nat}

theorem coversByte_cons {x : Nat} : CoversByte (b :: l) x ↔ (b.offset ≤ x ∧ x < b.stop) ∨ CoversByte l x := covers_cons

private theorem separated_of_gapped (h : l.Pairwise fun b c => b.stop < c.offset) : Separated Block.offset Block.stop l :=
  ⟨fun b _ => by have := b.offset_lt_stop; omega, h⟩

private theorem Layout.WellFormed.separated (h : L.WellFormed db) : Separated Block.offset Block.stop L.free :=
  separated_of_gapped h.gapped

/-- Every byte behind the header of the file belongs to a block. -/
theorem Tiled.covers {bs : List Block} (h : Tiled bs db) {x : Nat} :
    CoversByte bs x ↔ sizeofBufferHeader ≤ x ∧ x < db := by
  obtain ⟨l, hl, ht⟩ := h
  have hperm : CoversByte bs x ↔ CoversByte l x := by
    constructor
    · rintro ⟨b, hb, hx⟩
      exact ⟨b, hl.mem_iff.2 hb, hx⟩
    · rintro ⟨b, hb, hx⟩
      exact ⟨b, hl.mem_iff.1 hb, hx⟩
  rw [hperm]
  clear hl hperm
  generalize sizeofBufferHeader = a at ht
  induction l generalizing a with
  | nil =>
    obtain rfl : a = db := ht
    simp only [CoversByte, Covers, List.not_mem_nil, false_and, exists_false, false_iff]
    omega
  | cons b l ih =>
    obtain ⟨rfl, ht⟩ := ht
    have hle := ht.le
    have hb := b.offset_lt_stop
    have hrest : CoversByte l x ↔ b.stop ≤ x ∧ x < db := ih b.stop ht
    rw [coversByte_cons, hrest]
    omega

private theorem Layout.WellFormed.covers_free (h : L.WellFormed db) {x : Nat} :
    CoversByte L.free x ↔ (sizeofBufferHeader ≤ x ∧ x < db) ∧ ¬ CoversByte L.used x := by
  rw [← h.tiled.covers]
  constructor
  · rintro ⟨b, hb, hx₁, hx₂⟩
    refine ⟨⟨b, Layout.WellFormed.free_mem hb, hx₁, hx₂⟩, ?_⟩
    rintro ⟨c, hc, hx₃, hx₄⟩
    rcases h.free_apart hc b hb with e | e <;> omega
  · rintro ⟨⟨b, hb, hx⟩, hnot⟩
    rcases List.mem_append.1 hb with hb | hb
    · exact ⟨b, hb, hx⟩
    · exact absurd ⟨b, hb, hx⟩ hnot

/-! ### When `alloc` fails -/

private theorem Layout.exists_firstFit (h : L.WellFormed db) (n : Nat) :
    (∀ x ∈ L.free, x.dataSize < n) ∨ ∃ c, L.FirstFit n c := by
  rcases L.first_fit n with hsmall | ⟨l₁, c, l₂, hfree, hsmall, hn⟩
  · exact Or.inl hsmall
  · refine Or.inr ⟨c, hfree ▸ by simp, hn, fun x hx hnx => ?_⟩
    have hsorted := h.sorted
    rw [hfree] at hx hsorted
    rcases List.mem_append.1 hx with hx | hx
    · have := hsmall x hx
      omega
    · rcases List.mem_cons.1 hx with rfl | hx
      · exact Nat.le_refl _
      · exact Nat.le_of_lt ((List.pairwise_cons.1 (List.pairwise_append.1 hsorted).2.1).1 x hx)

/-- Whether `alloc` finds a block. -/
theorem alloc_eq_none_iff (hL : L.Holds s.field) (h : L.WellFormed s.dbSize) :
    (∃ s', alloc n s = some (none, s')) ↔ ∀ x ∈ L.free, x.dataSize < n := by
  constructor
  · rintro ⟨s', hrun⟩
    rcases L.exists_firstFit h n with hsmall | ⟨c, hfit⟩
    · exact hsmall
    · obtain ⟨t, ht, -⟩ := alloc_of_firstFit hL h hfit
      simp [hrun] at ht
  · exact fun hsmall => ⟨s, alloc_of_small hL h hsmall⟩

/-- `alloc` fails only when the space is not there: no interval of `n` bytes and a header is disjoint from the used blocks. -/
theorem alloc_none_iff (hL : L.Holds s.field) (h : L.WellFormed s.dbSize) (n : Nat) :
    (∃ s', alloc n s = some (none, s')) ↔
      ¬ ∃ a, 16 ≤ a ∧ a + (n + 24) ≤ s.dbSize ∧
        ∀ x, a ≤ x → x < a + (n + 24) → ∀ b ∈ L.used, x < b.offset ∨ b.stop ≤ x := by
  rw [alloc_eq_none_iff hL h]
  constructor
  · rintro hsmall ⟨a, ha, he, hfree⟩
    obtain ⟨c, hc, h₁, h₂⟩ := exists_span_of_covers h.separated (show a < a + (n + 24) by omega) fun x hx₁ hx₂ => by
      refine h.covers_free.2 ⟨⟨Nat.le_trans ha hx₁, by omega⟩, ?_⟩
      rintro ⟨b, hb, hb₁, hb₂⟩
      rcases hfree x hx₁ hx₂ b hb with e | e <;> omega
    have := hsmall c hc
    unfold Block.stop sizeofBlock at h₂
    omega
  · intro hnone x hx
    by_contra hn
    have hb := h.tiled.bounds (Layout.WellFormed.free_mem hx)
    refine hnone ⟨x.offset, hb.1, ?_, fun y hy₁ hy₂ b hb => ?_⟩
    · have := hb.2
      unfold Block.stop sizeofBlock at this
      omega
    · have hap := h.free_apart hb x hx
      unfold Block.Apart Block.stop sizeofBlock at *
      omega

theorem alloc_none_of_four_blocks : ∃ s, (∃ s', alloc 241 s = some (none, s')) ∧
    ¬ ∃ a, 16 ≤ a ∧ a + (241 + 24) ≤ s.dbSize ∧ ∀ x, a ≤ x → x < a + (241 + 24) →
      ∀ b ∈ [(⟨96, 16⟩ : Block), ⟨16, 16⟩], x < b.offset ∨ b.stop ≤ x := by
  obtain ⟨c, -, -, hL, hwf⟩ := exists_fourBlocks
  have hrun := (alloc_effect hL hwf 241).1 (by decide)
  exact ⟨c.buffer, ⟨_, hrun⟩, (alloc_none_iff hL hwf 241).1 ⟨_, hrun⟩⟩

/-! ### A block that is freed again -/

private theorem Layout.WellFormed.afterFree_afterAlloc (h : L.WellFormed db) (hc : c ∈ L.free) :
    (L.afterAlloc n c).afterFree (c.handedOut n) = L := by
  obtain ⟨l₁, l₂, hfree⟩ := List.append_of_mem hc
  have hg := h.gapped
  rw [hfree, List.pairwise_append, List.pairwise_cons] at hg
  obtain ⟨-, ⟨hbehind, -⟩, hbefore⟩ := hg
  have h₁ : ∀ x ∈ l₁, x.offset < c.offset ∧ x.stop ≠ c.offset := by
    intro x hx
    have := hbefore x hx c (List.mem_cons_self ..)
    have := x.offset_lt_stop
    omega
  have hcs := c.offset_lt_stop
  -- a split block is joined with its rest again, a whole one comes back as it was
  by_cases hz : n + 124 ≤ c.dataSize
  · have hjoin : (⟨c.offset, n⟩ : Block).join (c.rest n) = c := by
      obtain ⟨o, z⟩ := c
      simp only [Block.join, Block.rest, sizeofBlock, Block.mk.injEq, true_and] at *
      omega
    have htouch : (⟨c.offset, n⟩ : Block).stop = (c.rest n).offset := rfl
    have hins : insertFree ⟨c.offset, n⟩ (l₁ ++ c.rest n :: l₂) = l₁ ++ c :: l₂ := by
      rw [insertFree_of_gap (b := ⟨c.offset, n⟩) h₁, joinNext, if_pos htouch, hjoin]
      intro x hx
      rcases List.mem_cons.1 hx with rfl | hx
      · simp only [Block.rest, sizeofBlock]
        omega
      · have := hbehind x hx
        simp only
        omega
    rw [h.afterAlloc_split hfree hz, Block.handedOut, if_pos hz, Layout.afterSplit, Layout.afterFree]
    simp only
    rw [hins, List.erase_cons_head, ← hfree]
  · have hins : insertFree c (l₁ ++ l₂) = l₁ ++ c :: l₂ := by
      rw [insertFree_of_gap h₁]
      · cases l₂ with
        | nil => rfl
        | cons x l₂ =>
          have := hbehind x (List.mem_cons_self ..)
          rw [joinNext, if_neg (by omega)]
      · intro x hx
        have := hbehind x hx
        omega
    rw [h.afterAlloc_whole hfree hz, Block.handedOut, if_neg hz, Layout.afterFree]
    simp only
    rw [hins, List.erase_cons_head, ← hfree]

/-- The bytes of a payload do not matter for the layout. -/
theorem Layout.Holds.base (hL : L.Holds s.field) (h : L.WellFormed s.dbSize) (hb : b ∈ L.used) {m : Mem}
    (hm : ∀ x, ¬ (b.data ≤ x ∧ x < b.stop) → m x = s.base x) : L.Holds (FileBackedBuffer.field { s with base := m }) := by
  refine hL.congr (D := {x | x ∈ offsets L.blocks}) (fun c hc => List.mem_map_of_mem hc) fun f hf =>
    word_congr fun i hi => hm _ ?_
  rintro ⟨h₁, h₂⟩
  obtain ⟨h16, hout⟩ := payload_outside h.sound hb h₁ h₂
  cases f with
  | nextFreeBlockOffset => simp only [Field.address] at h16; omega
  | nextUsedBlockOffset => simp only [Field.address] at h16; omega
  | prevBlockOffset d => have := hout d hf; simp only [Field.address] at this; omega
  | nextBlockOffset d => have := hout d hf; simp only [Field.address] at this; omega
  | dataSize d => have := hout d hf; simp only [Field.address] at this; omega

/-- `free` undoes `alloc`, whatever the client has written into the block. -/
theorem free_undoes_alloc (hL : L.Holds s.field) (h : L.WellFormed s.dbSize) (hrun : alloc n s = some (some p, s'))
    (hs' : WellFormed s') {m : Mem}
    (hm : ∀ x, ¬ (p ≤ x ∧ x < p + s'.field (.dataSize (p - sizeofBlock))) → m x = s'.base x) :
    ∃ t, free p { s' with base := m } = some ((), t) ∧ t.dbSize = s.dbSize ∧ L.Holds t.field := by
  rcases L.exists_firstFit h n with hsmall | ⟨c, hfit⟩
  · simp [alloc_of_small hL h hsmall] at hrun
  · obtain ⟨t, ht, he⟩ := alloc_of_firstFit hL h hfit
    obtain ⟨hp, rfl⟩ := Prod.mk.inj (Option.some.inj (hrun.symm.trans ht))
    obtain rfl : p = c.data := Option.some.inj hp
    obtain ⟨hholds, hwf⟩ := he.layout.2 (he.wellFormed.1 hs')
    have hmem : c.handedOut n ∈ (L.afterAlloc n c).used := List.mem_cons_self ..
    have hoffset : (c.handedOut n).offset = c.offset := by
      unfold Block.handedOut
      split <;> rfl
    have hdata : (c.handedOut n).data = c.data := congrArg (· + sizeofBlock) hoffset
    have hsize : s'.field (.dataSize (c.data - sizeofBlock)) = (c.handedOut n).dataSize := by
      rw [← he.sizes _ (List.mem_cons_self ..), hoffset]
      simp only [Block.data, Nat.add_sub_cancel]
    have hstop : (c.handedOut n).stop = c.data + (c.handedOut n).dataSize := by
      rw [Block.stop, hoffset]
      rfl
    have hwritten := hholds.base hwf hmem (m := m) fun x hx => hm x (by rwa [hsize, ← hstop, ← hdata])
    obtain ⟨t, hfree, hdb, hafter, -, -⟩ := free_spec hwritten hwf hmem
    rw [hdata] at hfree
    rw [h.afterFree_afterAlloc hfit.mem] at hafter
    exact ⟨t, hfree, hdb.trans he.dbSize, hafter⟩

theorem free_undoes_alloc_of_new : ∃ (s s' t : FileBackedBuffer) (m : Mem), alloc 16 s = some (some 40, s') ∧
    m 40 = 1 ∧ free 40 { s' with base := m } = some ((), t) ∧ Layout.Holds t.field ⟨[⟨16, 180⟩], []⟩ := by
  obtain ⟨s, hs, -, hL, hwf⟩ := initBuffer_layout 220 (by decide) (by decide)
  have hfit : Layout.FirstFit ⟨[⟨16, 180⟩], []⟩ 16 ⟨16, 180⟩ := ⟨by simp, by decide, by simp⟩
  have hns : (initBuffer (newFile 220 (by decide))).all (fun r => ¬ StaleSplit r.2 16) := by decide +kernel
  rw [hs] at hns
  have hnot : ¬ StaleSplit s 16 := by simpa using hns
  obtain ⟨s', hrun, he⟩ := alloc_of_firstFit hL hwf hfit
  have hrun : alloc 16 s = some (some 40, s') := hrun
  have hsize : s'.field (.dataSize (40 - sizeofBlock)) = 16 := he.sizes ⟨16, 16⟩ (List.mem_cons_self ..)
  let m : Mem := fun x => if 40 ≤ x ∧ x < 56 then 1 else s'.base x
  obtain ⟨t, ht, -, hholds⟩ := free_undoes_alloc hL hwf hrun
    (he.wellFormed.2 fun ho => hnot ((oldLinks_iff hL hwf hfit).1 ho)) (m := m) fun x hx => if_neg (by rwa [hsize] at hx)
  exact ⟨s, s', t, m, hrun, rfl, ht, hholds⟩

/-! ### The order of the frees -/

/-- Blocks are freed one after another. -/
def freeAll : List Block → BufferM Unit
  | [] => pure ()
  | b :: bs => do
    free b.data
    freeAll bs

/-- `m` consists of blocks of `bs` that follow each other without a gap. -/
def IsRun (bs : Set Block) (m : Block) : Prop :=
  ∃ r : List Block, r ≠ [] ∧ (∀ b ∈ r, b ∈ bs) ∧ Tiles m.offset r m.stop

/-- No further block of `bs` touches the run. -/
structure IsMaximalRun (bs : Set Block) (m : Block) : Prop where
  run : IsRun bs m
  before : ∀ b ∈ bs, b.stop ≠ m.offset
  behind : ∀ b ∈ bs, m.stop ≠ b.offset

theorem IsRun.mono {bs bs' : Set Block} {m : Block} (h : IsRun bs m) (hsub : bs ⊆ bs') : IsRun bs' m := by
  obtain ⟨r, hr, hmem, ht⟩ := h
  exact ⟨r, hr, fun b hb => hsub (hmem b hb), ht⟩

private theorem isRun_of_mem {bs : Set Block} (hb : b ∈ bs) : IsRun bs b :=
  ⟨[b], List.cons_ne_nil _ _, fun x hx => by rwa [List.mem_singleton.1 hx], rfl, rfl⟩

theorem IsRun.join {bs : Set Block} (hb : IsRun bs b) (hc : IsRun bs c) (h : b.stop = c.offset) : IsRun bs (b.join c) := by
  obtain ⟨r, hr, hmem, ht⟩ := hb
  obtain ⟨r', -, hmem', ht'⟩ := hc
  refine ⟨r ++ r', by simp [hr], fun x hx => ?_, tiles_append.2 ⟨b.stop, ht, ?_⟩⟩
  · exact (List.mem_append.1 hx).elim (hmem x) (hmem' x)
  · rw [h, Block.stop_join h]
    exact ht'

/-- What holds of the block and of the free blocks, and of two that are joined, holds after the insertion. -/
private theorem forall_mem_insertFree {P : Block → Prop} (hb : P b) (hl : ∀ x ∈ l, P x)
    (hjoin : ∀ x y, P x → P y → x.stop = y.offset → P (x.join y)) : ∀ x ∈ insertFree b l, P x := by
  have hnext : ∀ (c : Block) (l : List Block), P c → (∀ x ∈ l, P x) → ∀ x ∈ joinNext c l, P x := by
    intro c l hc hl x hx
    cases l with
    | nil => rwa [List.mem_singleton.1 hx]
    | cons y l =>
      rw [joinNext] at hx
      split at hx
      · rename_i e
        rcases List.mem_cons.1 hx with rfl | hx
        · exact hjoin c y hc (hl y (List.mem_cons_self ..)) e
        · exact hl x (List.mem_cons_of_mem _ hx)
      · rcases List.mem_cons.1 hx with rfl | hx
        · exact hc
        · exact hl x hx
  induction l with
  | nil =>
    intro x hx
    rwa [List.mem_singleton.1 hx]
  | cons c l ih =>
    have hc := hl c (List.mem_cons_self ..)
    have hl' := fun x hx => hl x (List.mem_cons_of_mem _ hx)
    rw [insertFree]
    split
    · exact hnext b (c :: l) hb hl
    · split
      · rename_i e
        exact hnext (c.join b) l (hjoin c b hc hb e) hl'
      · intro x hx
        rcases List.mem_cons.1 hx with rfl | hx
        · exact hc
        · exact ih hl' x hx

private theorem covers_join (h : b.stop = c.offset) {x : Nat} :
    CoversByte (b.join c :: l) x ↔ CoversByte (b :: c :: l) x := by
  have hb := b.offset_lt_stop
  have hc := c.offset_lt_stop
  rw [coversByte_cons, coversByte_cons, coversByte_cons, Block.stop_join h, ← or_assoc]
  apply or_congr_left
  simp only [Block.join]
  omega

private theorem covers_joinNext {x : Nat} : CoversByte (joinNext b l) x ↔ CoversByte (b :: l) x := by
  cases l with
  | nil => rfl
  | cons c l =>
    rw [joinNext]
    split
    · exact covers_join ‹_›
    · rfl

private theorem covers_swap {x : Nat} : CoversByte (b :: c :: l) x ↔ CoversByte (c :: b :: l) x := by
  rw [coversByte_cons, coversByte_cons, coversByte_cons, coversByte_cons]
  exact or_left_comm

private theorem covers_insertFree {x : Nat} : CoversByte (insertFree b l) x ↔ CoversByte (b :: l) x := by
  induction l with
  | nil => rfl
  | cons c l ih =>
    rw [insertFree]
    split
    · exact covers_joinNext
    · split
      · rename_i e
        exact (covers_joinNext.trans (covers_join e)).trans covers_swap
      · refine Iff.trans ?_ covers_swap
        rw [coversByte_cons, ih, ← coversByte_cons]

/-- The free list `l` consists of the blocks of `bs`, merged. -/
structure Merges (bs : Set Block) (l : List Block) : Prop where
  gapped : l.Pairwise fun b c => b.stop < c.offset
  runs : ∀ m ∈ l, IsRun bs m
  covers : ∀ x, CoversByte l x ↔ ∃ b ∈ bs, b.offset ≤ x ∧ x < b.stop

private theorem merges_self (h : l.Pairwise fun b c => b.stop < c.offset) : Merges {b | b ∈ l} l :=
  ⟨h, fun _ hm => isRun_of_mem hm, fun _ => Iff.rfl⟩

theorem Merges.insert {bs : Set Block} (h : Merges bs l) (hb : ∀ x ∈ l, x.Apart b) :
    Merges (insert b bs) (insertFree b l) := by
  refine ⟨insertFree_gapped h.gapped hb, ?_, fun x => ?_⟩
  · exact forall_mem_insertFree (isRun_of_mem (Set.mem_insert ..)) (fun x hx => (h.runs x hx).mono (Set.subset_insert ..))
      fun x y hx hy e => hx.join hy e
  · rw [covers_insertFree, coversByte_cons, h.covers]
    simp

/-- The merged list is determined by the blocks. -/
theorem Merges.unique {bs : Set Block} {l' : List Block} (h : Merges bs l) (h' : Merges bs l') : l = l' := by
  have hends := ends_eq_of_covers (separated_of_gapped h.gapped) (separated_of_gapped h'.gapped)
    fun x => (h.covers x).trans (h'.covers x).symm
  refine List.map_injective_iff.2 (fun b c e => ?_) hends
  obtain ⟨h₁, h₂⟩ := Prod.mk.inj e
  rw [← b.between_self, ← c.between_self, h₁, h₂]

/-- Inside a run, a block that begins at some point is preceded by one that ends there. -/
private theorem exists_stop_of_tiles {bs : Set Block} (hap : ∀ x ∈ bs, ∀ y ∈ bs, x = y ∨ x.Apart y) {a e : Nat}
    {r : List Block} (hr : ∀ x ∈ r, x ∈ bs) (ht : Tiles a r e) (hb : b ∈ bs) (h₁ : a < b.offset) (h₂ : b.offset < e) :
    ∃ x ∈ bs, x.stop = b.offset := by
  induction r generalizing a with
  | nil =>
    obtain rfl : a = e := ht
    omega
  | cons d r ih =>
    obtain ⟨rfl, ht⟩ := ht
    have hd := hr d (List.mem_cons_self ..)
    have hbs := b.offset_lt_stop
    rcases Nat.lt_trichotomy d.stop b.offset with hlt | he | hgt
    · exact ih (fun x hx => hr x (List.mem_cons_of_mem _ hx)) ht hlt
    · exact ⟨d, hd, he⟩
    · rcases hap d hd b hb with rfl | e | e <;> omega

/-- A block that ends at some point inside a run is followed by one that begins there. -/
private theorem exists_offset_of_tiles {bs : Set Block} (hap : ∀ x ∈ bs, ∀ y ∈ bs, x = y ∨ x.Apart y) {a e : Nat}
    {r : List Block} (hr : ∀ x ∈ r, x ∈ bs) (ht : Tiles a r e) (hb : b ∈ bs) (h₁ : a < b.stop) (h₂ : b.stop < e) :
    ∃ x ∈ bs, b.stop = x.offset := by
  induction r generalizing a with
  | nil =>
    obtain rfl : a = e := ht
    omega
  | cons d r ih =>
    obtain ⟨rfl, ht⟩ := ht
    have hd := hr d (List.mem_cons_self ..)
    have hbs := b.offset_lt_stop
    rcases Nat.lt_trichotomy d.stop b.stop with hlt | he | hgt
    · exact ih (fun x hx => hr x (List.mem_cons_of_mem _ hx)) ht hlt
    · cases r with
      | nil =>
        obtain rfl : d.stop = e := ht
        omega
      | cons c r =>
        exact ⟨c, hr c (List.mem_cons_of_mem _ (List.mem_cons_self ..)), he.symm.trans ht.1.symm⟩
    · rcases hap d hd b hb with rfl | e | e <;> omega

/-- Between its ends a run is covered, and its ends are those of blocks. -/
private theorem IsRun.ends {bs : Set Block} {m : Block} (h : IsRun bs m) :
    (∃ b ∈ bs, b.offset = m.offset) ∧ (∃ b ∈ bs, b.stop = m.stop) ∧
      ∀ x, m.offset ≤ x → x < m.stop → ∃ b ∈ bs, b.offset ≤ x ∧ x < b.stop := by
  obtain ⟨r, hr, hmem, ht⟩ := h
  generalize m.offset = a at ht ⊢
  generalize m.stop = e at ht ⊢
  induction r generalizing a with
  | nil => exact absurd rfl hr
  | cons d r ih =>
    obtain ⟨rfl, ht⟩ := ht
    have hd := hmem d (List.mem_cons_self ..)
    by_cases hnil : r = []
    · subst hnil
      obtain rfl : d.stop = e := ht
      exact ⟨⟨d, hd, rfl⟩, ⟨d, hd, rfl⟩, fun x h₁ h₂ => ⟨d, hd, h₁, h₂⟩⟩
    · obtain ⟨-, hstop, hcov⟩ := ih hnil (fun x hx => hmem x (List.mem_cons_of_mem _ hx)) d.stop ht
      refine ⟨⟨d, hd, rfl⟩, hstop, fun x h₁ h₂ => ?_⟩
      rcases Nat.lt_or_ge x d.stop with hlt | hge
      · exact ⟨d, hd, h₁, hlt⟩
      · exact hcov x hge h₂

/-- The blocks of the merged list are the maximal runs. -/
theorem Merges.mem_iff {bs : Set Block} (h : Merges bs l) (hap : ∀ x ∈ bs, ∀ y ∈ bs, x = y ∨ x.Apart y) (m : Block) :
    m ∈ l ↔ IsMaximalRun bs m := by
  have hsep := separated_of_gapped h.gapped
  constructor
  · intro hm
    have hms := m.offset_lt_stop
    refine ⟨h.runs m hm, fun b hb e => ?_, fun b hb e => ?_⟩
    · -- the byte in front of `m` would belong to another block of the list
      have hbs := b.offset_lt_stop
      obtain ⟨c, hc, h₁, h₂⟩ := (h.covers (b.stop - 1)).2 ⟨b, hb, by omega, by omega⟩
      obtain rfl := hsep.eq_of_le hm hc (by omega) (by omega)
      omega
    · have hbs := b.offset_lt_stop
      obtain ⟨c, hc, h₁, h₂⟩ := (h.covers b.offset).2 ⟨b, hb, by omega, by omega⟩
      obtain rfl := hsep.eq_of_le hm hc (by omega) (by omega)
      omega
  · rintro ⟨hrun, hbefore, hbehind⟩
    have hms := m.offset_lt_stop
    obtain ⟨⟨b₁, hb₁, hoff⟩, ⟨b₂, hb₂, hstop⟩, hcov⟩ := hrun.ends
    obtain ⟨f, hf, h₁, h₂⟩ := exists_span_of_covers hsep (show m.offset < m.stop by omega)
      fun x hx₁ hx₂ => (h.covers x).2 (hcov x hx₁ hx₂)
    obtain ⟨r, -, hr, ht⟩ := h.runs f hf
    have he₁ : f.offset = m.offset := by
      by_contra hne
      obtain ⟨d, hd, e⟩ := exists_stop_of_tiles hap hr ht hb₁ (by omega) (by omega)
      exact hbefore d hd (e.trans hoff)
    have he₂ : f.stop = m.stop := by
      by_contra hne
      obtain ⟨d, hd, e⟩ := exists_offset_of_tiles hap hr ht hb₂ (by omega) (by omega)
      exact hbehind d hd (hstop.symm.trans e)
    rwa [← m.between_self, ← he₁, ← he₂, f.between_self]

/-- The layout after the blocks of a list are freed. -/
def Layout.afterFrees (L : Layout) (order : List Block) : Layout := order.foldl Layout.afterFree L

private theorem freeAll_spec {order : List Block} (hL : L.Holds s.field) (h : L.WellFormed s.dbSize) (hnodup : order.Nodup)
    (hused : ∀ b ∈ order, b ∈ L.used) :
    ∃ t, freeAll order s = some ((), t) ∧ t.dbSize = s.dbSize ∧ (L.afterFrees order).Holds t.field ∧
      (L.afterFrees order).WellFormed s.dbSize := by
  induction order generalizing s L with
  | nil => exact ⟨s, rfl, rfl, hL, h⟩
  | cons b order ih =>
    obtain ⟨hb, hnodup⟩ := List.nodup_cons.1 hnodup
    obtain ⟨s', hrun, hdb, hholds, hwf, -⟩ := free_spec hL h (hused b (List.mem_cons_self ..))
    have hrest : ∀ x ∈ order, x ∈ (L.afterFree b).used := fun x hx =>
      (List.mem_erase_of_ne fun e : x = b => hb (e ▸ hx)).2 (hused x (List.mem_cons_of_mem _ hx))
    obtain ⟨t, ht, hdb', hholds', hwf'⟩ := ih hholds (hdb.symm ▸ hwf) hnodup hrest
    refine ⟨t, ?_, hdb'.trans hdb, hholds', hdb ▸ hwf'⟩
    show (free b.data s).bind (fun r => freeAll order r.2) = _
    rw [hrun]
    exact ht

private theorem used_afterFrees {order : List Block} (hn : L.used.Nodup) :
    (L.afterFrees order).used = L.used.filter fun b => b ∉ order := by
  induction order generalizing L with
  | nil => simp [Layout.afterFrees]
  | cons b order ih =>
    have hu : (L.afterFree b).used = L.used.filter (· != b) := hn.erase_eq_filter b
    have hrest := ih (L := L.afterFree b) (hu ▸ hn.filter _)
    rw [hu, List.filter_filter] at hrest
    refine hrest.trans (List.filter_congr fun x _ => ?_)
    by_cases hx : x = b <;> simp [hx]

/-- The free list consists of the old free blocks and the freed ones, merged. -/
private theorem merges_afterFrees {order : List Block} {bs : Set Block} (h : L.WellFormed db) (hm : Merges bs L.free)
    (hnodup : order.Nodup) (hused : ∀ b ∈ order, b ∈ L.used) :
    Merges (bs ∪ {b | b ∈ order}) (L.afterFrees order).free := by
  induction order generalizing L bs with
  | nil => simpa [Layout.afterFrees] using hm
  | cons b order ih =>
    obtain ⟨hb, hnodup⟩ := List.nodup_cons.1 hnodup
    have hbu := hused b (List.mem_cons_self ..)
    have hrest : ∀ x ∈ order, x ∈ (L.afterFree b).used := fun x hx =>
      (List.mem_erase_of_ne fun e : x = b => hb (e ▸ hx)).2 (hused x (List.mem_cons_of_mem _ hx))
    have := ih (h.afterFree hbu) (hm.insert (h.free_apart hbu)) hnodup hrest
    have hset : insert b bs ∪ {x | x ∈ order} = bs ∪ {x | x ∈ b :: order} := by
      ext x
      simp only [Set.mem_union, Set.mem_insert_iff, Set.mem_ofPred_eq, List.mem_cons]
      tauto
    rwa [hset] at this

private theorem Layout.WellFormed.free_eq_of_used_nil (h : L.WellFormed db) (hu : L.used = []) (hne : L.free ≠ []) :
    L.free = [⟨16, db - 40⟩] := by
  obtain ⟨c, hc⟩ := List.exists_mem_of_ne_nil _ hne
  have hcb := h.tiled.bounds (Layout.WellFormed.free_mem hc)
  have hcs := c.offset_lt_stop
  unfold sizeofBufferHeader at hcb
  have hcov : ∀ x, 16 ≤ x → x < db → CoversByte L.free x := by
    intro x h₁ h₂
    refine h.covers_free.2 ⟨⟨h₁, h₂⟩, ?_⟩
    rintro ⟨b, hb, -⟩
    rw [hu] at hb
    cases hb
  obtain ⟨a, ha, h₁, h₂⟩ := exists_span_of_covers h.separated (show 16 < db by omega) hcov
  have hab := h.tiled.bounds (Layout.WellFormed.free_mem ha)
  have hall : ∀ x ∈ L.free, x = a := by
    intro x hx
    have hxb := h.tiled.bounds (Layout.WellFormed.free_mem hx)
    have := x.offset_lt_stop
    have := a.offset_lt_stop
    exact h.separated.eq_of_le hx ha (by omega) (by omega)
  have ha' : a = ⟨16, db - 40⟩ := by
    obtain ⟨o, z⟩ := a
    simp only [Block.stop, sizeofBlock, sizeofBufferHeader, Block.mk.injEq] at *
    omega
  have hrep := List.eq_replicate_of_mem hall
  have hlen : L.free.length = 1 := by
    have hnodup := h.free_nodup
    rw [hrep, List.nodup_replicate] at hnodup
    have := List.length_pos_iff.2 hne
    omega
  rw [hrep, hlen, ha']
  rfl

/-- The order in which a set of used blocks is freed does not matter: the free list is that of the maximal runs. -/
theorem frees_commute (hL : L.Holds s.field) (h : L.WellFormed s.dbSize) {S : Finset Block} (hS : ∀ b ∈ S, b ∈ L.used) :
    ∃ L' : Layout, L'.WellFormed s.dbSize ∧ L'.used = L.used.filter (· ∉ S) ∧
      (∀ m, m ∈ L'.free ↔ IsMaximalRun {b | b ∈ L.free ∨ b ∈ S} m) ∧
      (∀ order : List Block, order.Nodup → order.toFinset = S →
        ∃ t, freeAll order s = some ((), t) ∧ t.dbSize = s.dbSize ∧ L'.Holds t.field) ∧
      (L.blocks ≠ [] → (∀ b ∈ L.used, b ∈ S) → L'.used = [] ∧ L'.free = [⟨16, s.dbSize - 40⟩]) := by
  have hmem : ∀ order : List Block, order.toFinset = S → ∀ b, b ∈ order ↔ b ∈ S := by
    rintro order rfl b
    exact List.mem_toFinset.symm
  have hset : ∀ order : List Block, order.toFinset = S →
      {b | b ∈ L.free} ∪ {b | b ∈ order} = {b | b ∈ L.free ∨ b ∈ S} := by
    intro order ho
    ext b
    simp only [Set.mem_union, Set.mem_ofPred_eq, hmem order ho b]
  -- in every order the free blocks are what the free and the freed blocks merge to
  have hmerges : ∀ order : List Block, order.Nodup → order.toFinset = S →
      Merges {b | b ∈ L.free ∨ b ∈ S} (L.afterFrees order).free := by
    intro order hnodup ho
    have := merges_afterFrees h (merges_self h.gapped) hnodup fun b hb => hS b ((hmem order ho b).1 hb)
    rwa [hset order ho] at this
  have hused : ∀ order : List Block, order.toFinset = S → (L.afterFrees order).used = L.used.filter (· ∉ S) := by
    intro order ho
    rw [used_afterFrees (List.Nodup.of_map Block.offset h.distinct.used_nodup)]
    exact List.filter_congr fun b _ => decide_eq_decide.2 (not_congr (hmem order ho b))
  have hnodup := S.nodup_toList
  have hlist : S.toList.toFinset = S := S.toList_toFinset
  have hmerge := hmerges _ hnodup hlist
  obtain ⟨-, -, -, -, hwf⟩ := freeAll_spec hL h hnodup fun b hb => hS b ((hmem _ hlist b).1 hb)
  -- these blocks do not overlap, so what they merge to is determined
  have hap : ∀ x ∈ {b | b ∈ L.free ∨ b ∈ S}, ∀ y ∈ {b | b ∈ L.free ∨ b ∈ S}, x = y ∨ x.Apart y := by
    have hblocks : ∀ x ∈ {b | b ∈ L.free ∨ b ∈ S}, x ∈ L.blocks := by
      rintro x (hx | hx)
      · exact Layout.WellFormed.free_mem hx
      · exact Layout.WellFormed.used_mem (hS x hx)
    exact fun x hx y hy => h.tiled.eq_or_apart (hblocks x hx) (hblocks y hy)
  refine ⟨L.afterFrees S.toList, hwf, hused _ hlist, hmerge.mem_iff hap, fun order hn ho => ?_, fun hne hall => ?_⟩
  · obtain ⟨t, ht, hdb, hholds, -⟩ := freeAll_spec hL h hn fun b hb => hS b ((hmem order ho b).1 hb)
    have hsame : L.afterFrees order = L.afterFrees S.toList := by
      rw [show L.afterFrees order = ⟨(L.afterFrees order).free, (L.afterFrees order).used⟩ from rfl, hused order ho,
        (hmerges order hn ho).unique hmerge, ← hused _ hlist]
    exact ⟨t, ht, hdb, hsame ▸ hholds⟩
  · have hnil : (L.afterFrees S.toList).used = [] := by
      rw [hused _ hlist, List.filter_eq_nil_iff]
      intro b hb
      simpa using hall b hb
    refine ⟨hnil, hwf.free_eq_of_used_nil hnil fun hfree => hne ?_⟩
    -- a file without free and used blocks has no byte behind its header
    have hempty : (L.afterFrees S.toList).blocks = [] := by rw [Layout.blocks, hfree, hnil]; rfl
    have hsum := hwf.tiled.sum
    have hsum' := h.tiled.sum
    rw [hempty] at hsum
    cases hbs : L.blocks with
    | nil => rfl
    | cons b bs =>
      rw [hbs] at hsum'
      simp only [List.map_nil, List.sum_nil, List.map_cons, List.sum_cons, sizeofBlock] at hsum hsum'
      omega

/-- The two used blocks are freed in both orders. -/
theorem frees_commute_of_four_blocks : ∃ s : FileBackedBuffer, s.dbSize = 400 ∧
    ∀ order ∈ [[(⟨96, 16⟩ : Block), ⟨16, 16⟩], [⟨16, 16⟩, ⟨96, 16⟩]],
      ∃ t, freeAll order s = some ((), t) ∧ Layout.Holds t.field ⟨[⟨16, 360⟩], []⟩ := by
  obtain ⟨c, -, hdb, hL, hwf⟩ := exists_fourBlocks
  obtain ⟨L', -, -, -, horder, hall⟩ := frees_commute hL hwf (S := {⟨96, 16⟩, ⟨16, 16⟩}) (by decide)
  obtain ⟨hu, hf⟩ := hall (by decide) (by decide)
  rw [hdb] at hf
  refine ⟨c.buffer, hdb, fun order ho => ?_⟩
  obtain ⟨t, ht, -, hholds⟩ := horder order (by revert order; decide) (by revert order; decide)
  rw [show L' = ⟨L'.free, L'.used⟩ from rfl, hu, hf] at hholds
  exact ⟨t, ht, hholds⟩

/-- A file that consists of its header has no free block at all. -/
theorem not_one_free_block_of_header_only : ¬ ∀ (s : FileBackedBuffer) (L : Layout), L.Holds s.field →
    L.WellFormed s.dbSize → ∀ order : List Block, order.Perm L.used →
    ∃ t, freeAll order s = some ((), t) ∧ Layout.Holds t.field ⟨[⟨16, s.dbSize - 40⟩], []⟩ := by
  intro hall
  have hL : Layout.Holds (newFile 16 (by decide)).field ⟨[], []⟩ :=
    ⟨⟨by decide, trivial⟩, ⟨by decide, trivial⟩, by simp [Layout.blocks]⟩
  have hwf : Layout.WellFormed ⟨[], []⟩ (newFile 16 (by decide)).dbSize :=
    ⟨⟨[], List.Perm.refl _, rfl⟩, List.Pairwise.nil, by simp⟩
  obtain ⟨t, ht, hholds⟩ := hall _ _ hL hwf [] (List.Perm.refl _)
  obtain rfl : newFile 16 (by decide) = t := (Prod.mk.inj (Option.some.inj ht)).2
  have hhead := hholds.free.head
  exact absurd (hL.free.head.symm.trans hhead) (by decide)

end KeyValueStore
