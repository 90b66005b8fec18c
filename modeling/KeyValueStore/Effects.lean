import KeyValueStore.Client

/-!
# The effects of `alloc` and `free`

What one call does to a well formed buffer, in terms of the two lists and of the bytes of the file.  `alloc n` takes the free
block of lowest offset that is large enough (`FirstFit`) and leaves `Layout.afterAlloc`, or it finds none and changes nothing
(`alloc_effect`).  `free` adds the bytes of the block to the free list and merges them with the two free blocks they touch
(`free_effect`).  Neither call reads or writes
outside of the file or stores to a payload other than that of the free block it splits (`calls_confined`).
-/

namespace KeyValueStore

open ByteMemory DoublyLinked

/-- The free block of lowest offset with at least `n` bytes. -/
structure Layout.FirstFit (L : Layout) (n : Nat) (c : Block) : Prop where
  mem : c ∈ L.free
  size : n ≤ c.dataSize
  first : ∀ x ∈ L.free, n ≤ x.dataSize → c.offset ≤ x.offset

/-- What becomes of the block that `alloc n` takes. -/
def Block.handedOut (c : Block) (n : Nat) : Block := if n + 124 ≤ c.dataSize then ⟨c.offset, n⟩ else c

/-- The block is replaced by its rest, if it is split, and else deleted from the free list. -/
def Layout.afterAlloc (L : Layout) (n : Nat) (c : Block) : Layout where
  free := L.free.flatMap fun x => if x = c then (if n + 124 ≤ c.dataSize then [c.rest n] else []) else [x]
  used := c.handedOut n :: L.used

/-- The only free block is split, and where the links of its rest lie there are other bytes than zeros. -/
def OldLinks (s : FileBackedBuffer) (L : Layout) (n : Nat) (c : Block) : Prop :=
  L.free = [c] ∧ n + 124 ≤ c.dataSize ∧ ∃ i < 16, s.base ((c.rest n).offset + i) ≠ 0

/-- No sum or difference of `alloc n` wraps: that of the test for a split, the place and the size of the rest, and the ends
of the free blocks with which the rest is compared. -/
structure AllocExact (L : Layout) (n : Nat) (c : Block) : Prop where
  test : add64 (add64 n sizeofBlock) 100 = n + sizeofBlock + 100
  place : n + 124 ≤ c.dataSize → c.offset + sizeofBlock + n < 2 ^ 64
  rest : n + 124 ≤ c.dataSize →
    n + sizeofBlock ≤ c.dataSize ∧ sub64 (sub64 c.dataSize n) sizeofBlock = c.dataSize - n - sizeofBlock
  ends : ∀ x ∈ (L.afterAlloc n c).free, add64 (add64 x.offset sizeofBlock) x.dataSize = x.offset + sizeofBlock + x.dataSize

/-- What `alloc n` does when it takes the block `c`. -/
structure AllocEffect (s : FileBackedBuffer) (L : Layout) (n : Nat) (c : Block) (s' : FileBackedBuffer) : Prop where
  dbSize : s'.dbSize = s.dbSize
  exact : AllocExact L n c
  used : IsList s'.field .nextUsedBlockOffset (offsets (c.handedOut n :: L.used))
  sizes : ∀ b ∈ c.handedOut n :: L.used, s'.field (.dataSize b.offset) = b.dataSize
  size : n ≤ (c.handedOut n).dataSize ∧ (c.handedOut n).dataSize < n + 124
  layout : (L.afterAlloc n c).Holds s'.field ∧ (L.afterAlloc n c).WellFormed s'.dbSize ↔ ¬ OldLinks s L n c
  wellFormed : WellFormed s' ↔ ¬ OldLinks s L n c

variable {s : FileBackedBuffer} {L : Layout} {n : Nat} {b c : Block}

/-! ### `alloc` -/

/-- A free block is the first one that fits if those in front of it do not. -/
theorem Layout.FirstFit.split (hf : L.FirstFit n c) (h : L.WellFormed s.dbSize) :
    ∃ l₁ l₂, L.free = l₁ ++ c :: l₂ ∧ ∀ x ∈ l₁, x.dataSize < n := by
  obtain ⟨l₁, l₂, hfree⟩ := List.append_of_mem hf.mem
  refine ⟨l₁, l₂, hfree, fun x hx => ?_⟩
  have hsorted := h.sorted
  rw [hfree] at hsorted
  have hlt := (List.pairwise_append.1 hsorted).2.2 x hx c (List.mem_cons_self ..)
  by_contra hn
  have hmem : x ∈ L.free := hfree ▸ List.mem_append_left _ hx
  have := hf.first x hmem (by omega)
  omega

theorem Layout.WellFormed.free_nodup {db : Nat} (h : L.WellFormed db) : L.free.Nodup :=
  List.Nodup.of_map Block.offset h.distinct.free_nodup

/-- The free list of `afterAlloc`, when the place of the block is known. -/
private theorem Layout.WellFormed.afterAlloc_free {db : Nat} (h : L.WellFormed db) {l₁ l₂ : List Block}
    (hfree : L.free = l₁ ++ c :: l₂) :
    (L.afterAlloc n c).free = l₁ ++ ((if n + 124 ≤ c.dataSize then [c.rest n] else []) ++ l₂) := by
  have hnodup := h.free_nodup
  rw [hfree, List.nodup_middle, List.nodup_cons] at hnodup
  have hkeep : ∀ l : List Block, c ∉ l →
      l.flatMap (fun x => if x = c then (if n + 124 ≤ c.dataSize then [c.rest n] else []) else [x]) = l := by
    intro l hl
    induction l with
    | nil => rfl
    | cons x l ih =>
      have hx : x ≠ c := fun e => hl (e ▸ List.mem_cons_self ..)
      rw [List.flatMap_cons, ih (fun hm => hl (List.mem_cons_of_mem _ hm)), if_neg hx, List.singleton_append]
  rw [Layout.afterAlloc, hfree, List.flatMap_append, List.flatMap_cons, if_pos rfl,
    hkeep l₁ fun hm => hnodup.1 (List.mem_append_left _ hm), hkeep l₂ fun hm => hnodup.1 (List.mem_append_right _ hm)]

theorem Layout.WellFormed.afterAlloc_whole {db : Nat} (h : L.WellFormed db) {l₁ l₂ : List Block}
    (hfree : L.free = l₁ ++ c :: l₂) (hz : ¬ n + 124 ≤ c.dataSize) : L.afterAlloc n c = ⟨l₁ ++ l₂, c :: L.used⟩ := by
  have hf := h.afterAlloc_free (n := n) hfree
  have hu : (L.afterAlloc n c).used = c.handedOut n :: L.used := rfl
  rw [if_neg hz, List.nil_append] at hf
  rw [Block.handedOut, if_neg hz] at hu
  rw [← hf, ← hu]

theorem Layout.WellFormed.afterAlloc_split {db : Nat} (h : L.WellFormed db) {l₁ l₂ : List Block}
    (hfree : L.free = l₁ ++ c :: l₂) (hz : n + 124 ≤ c.dataSize) :
    L.afterAlloc n c = Layout.afterSplit l₁ c n l₂ L.used := by
  have hf := h.afterAlloc_free (n := n) hfree
  have hu : (L.afterAlloc n c).used = c.handedOut n :: L.used := rfl
  rw [if_pos hz, List.singleton_append] at hf
  rw [Block.handedOut, if_pos hz] at hu
  rw [Layout.afterSplit, ← hf, ← hu]

/-- The layout after `alloc` is well formed, whatever the bytes are. -/
theorem Layout.WellFormed.afterAlloc {db : Nat} (h : L.WellFormed db) (hc : c ∈ L.free) : (L.afterAlloc n c).WellFormed db := by
  obtain ⟨l₁, l₂, hfree⟩ := List.append_of_mem hc
  by_cases hz : n + 124 ≤ c.dataSize
  · rw [h.afterAlloc_split hfree hz]
    exact h.afterSplit hfree hz
  · rw [h.afterAlloc_whole hfree hz]
    exact h.afterWhole hfree

/-- The two links of the rest are zero iff its first sixteen bytes are. -/
theorem oldLinks_iff (hL : L.Holds s.field) (h : L.WellFormed s.dbSize) (hfit : L.FirstFit n c) :
    OldLinks s L n c ↔ StaleSplit s n := by
  have hbytes : (∃ i < 16, s.base ((c.rest n).offset + i) ≠ 0) ↔
      ¬ (s.field (.prevBlockOffset (c.rest n).offset) = nullOffset ∧
        s.field (.nextBlockOffset (c.rest n).offset) = nullOffset) := by
    have hprev : s.field (.prevBlockOffset (c.rest n).offset) = nullOffset ↔
        ∀ i < 8, s.base ((c.rest n).offset + i) = 0 := word_eq_zero
    have hnext : s.field (.nextBlockOffset (c.rest n).offset) = nullOffset ↔
        ∀ i < 8, s.base ((c.rest n).offset + 8 + i) = 0 := word_eq_zero
    rw [hprev, hnext]
    constructor
    · rintro ⟨i, hi, hne⟩ ⟨h₁, h₂⟩
      apply hne
      rcases Nat.lt_or_ge i 8 with h8 | h8
      · exact h₁ i h8
      · have := h₂ (i - 8) (by omega)
        rwa [Nat.add_assoc, Nat.add_sub_cancel' h8] at this
    · intro hne
      by_contra hall
      refine hne ⟨fun i hi => ?_, fun i hi => ?_⟩
      · by_contra hi'
        exact hall ⟨i, by omega, hi'⟩
      · by_contra hi'
        exact hall ⟨8 + i, by omega, by rwa [← Nat.add_assoc]⟩
  rw [staleSplit_iff hL h.sound, OldLinks, hbytes]
  constructor
  · rintro ⟨hfree, hz, hl⟩
    exact ⟨c, hfree, hz, hl⟩
  · rintro ⟨d, hfree, hz, hl⟩
    obtain rfl : c = d := by simpa [hfree] using hfit.mem
    exact ⟨hfree, hz, hl⟩

private theorem allocExact_of_fit (h : L.WellFormed s.dbSize) (hfit : L.FirstFit n c) : AllocExact L n c := by
  have hdb := s.dbSize_lt
  have hc := (h.tiled.bounds (Layout.WellFormed.free_mem hfit.mem)).2
  have hn := hfit.size
  unfold Block.stop sizeofBlock at hc
  refine ⟨?_, fun hz => ?_, fun hz => ⟨?_, ?_⟩, fun x hx => ?_⟩
  · unfold sizeofBlock
    rw [add64_of_lt (show n + 24 < 2 ^ 64 by omega), add64_of_lt (by omega)]
  · unfold sizeofBlock
    omega
  · unfold sizeofBlock
    omega
  · unfold sizeofBlock
    rw [sub64_of_le hn (by omega), sub64_of_le (by omega) (by omega)]
  · have hx' := ((h.afterAlloc hfit.mem).tiled.bounds (Layout.WellFormed.free_mem hx)).2
    unfold Block.stop sizeofBlock at hx'
    unfold sizeofBlock
    rw [add64_of_lt (show x.offset + 24 < 2 ^ 64 by omega), add64_of_lt (by omega)]

/-- The parts of the effect that the bytes of the payload decide. -/
private theorem allocEffect_of {s' : FileBackedBuffer} (hL : L.Holds s.field) (h : L.WellFormed s.dbSize)
    (hfit : L.FirstFit n c) (hrun : alloc n s = some (some c.data, s')) (hdb : s'.dbSize = s.dbSize)
    (hused : IsList s'.field .nextUsedBlockOffset (offsets (c.handedOut n :: L.used)))
    (hsizes : ∀ b ∈ c.handedOut n :: L.used, s'.field (.dataSize b.offset) = b.dataSize)
    (hlayout : ¬ OldLinks s L n c → (L.afterAlloc n c).Holds s'.field) : AllocEffect s L n c s' := by
  have hwf : (L.afterAlloc n c).WellFormed s'.dbSize := hdb ▸ h.afterAlloc hfit.mem
  have hold : WellFormed s' → ¬ OldLinks s L n c := by
    intro hs' ho
    obtain ⟨p, t, ht, hnot⟩ := alloc_of_staleSplit hL h ((oldLinks_iff hL h hfit).1 ho)
    obtain ⟨-, rfl⟩ := Prod.mk.inj (Option.some.inj (hrun.symm.trans ht))
    exact hnot hs'
  refine ⟨hdb, allocExact_of_fit h hfit, hused, hsizes, ?_, ?_, ?_⟩
  · have hn := hfit.size
    unfold Block.handedOut
    split
    · exact ⟨Nat.le_refl n, Nat.lt_add_of_pos_right (by decide)⟩
    · exact ⟨hn, by omega⟩
  · exact ⟨fun hl => hold ⟨_, hl⟩, fun ho => ⟨hlayout ho, hwf⟩⟩
  · exact ⟨hold, fun ho => ⟨_, hlayout ho, hwf⟩⟩

private theorem allocEffect_whole {l₁ l₂ : List Block} (hL : L.Holds s.field) (h : L.WellFormed s.dbSize)
    (hfit : L.FirstFit n c) (hfree : L.free = l₁ ++ c :: l₂) (hsmall : ∀ x ∈ l₁, x.dataSize < n)
    (hz : ¬ n + 124 ≤ c.dataSize) : ∃ s', alloc n s = some (some c.data, s') ∧ AllocEffect s L n c s' := by
  have ha := allocated_whole hL h hfree hsmall hfit.size (by omega)
  have hholds := ha.holds
  rw [← h.afterAlloc_whole hfree hz] at hholds
  exact ⟨_, ha.run, allocEffect_of hL h hfit ha.run ha.dbSize hholds.used
    (fun b hb => hholds.sizes b (Layout.WellFormed.used_mem hb)) fun _ => hholds⟩

private theorem allocEffect_split {l₁ l₂ : List Block} (hL : L.Holds s.field) (h : L.WellFormed s.dbSize)
    (hfit : L.FirstFit n c) (hfree : L.free = l₁ ++ c :: l₂) (hsmall : ∀ x ∈ l₁, x.dataSize < n)
    (hz : n + 124 ≤ c.dataSize) : ∃ s', alloc n s = some (some c.data, s') ∧ AllocEffect s L n c s' := by
  have hrun := (exec_alloc_split h s.dbSize_lt s.field_lt hL hfree hsmall hz).run s rfl (fun _ _ => rfl)
  have hout : c.handedOut n = ⟨c.offset, n⟩ := if_pos hz
  have hlayout : ¬ OldLinks s L n c →
      (L.afterAlloc n c).Holds (s.after (splitStores l₁ c n l₂ L.used)).field := by
    intro ho
    rw [h.afterAlloc_split hfree hz]
    exact (allocated_split hL h (fun hst => ho ((oldLinks_iff hL h hfit).2 hst)) hfree hsmall hz).holds
  refine ⟨_, hrun, ?_⟩
  by_cases ho : OldLinks s L n c
  · -- the used list is right even then
    have hnil : l₁ = [] ∧ l₂ = [] := by
      have hlen := congrArg List.length (hfree.symm.trans ho.1)
      simp only [List.length_append, List.length_cons, List.length_nil] at hlen
      exact ⟨List.length_eq_zero_iff.1 (by omega), List.length_eq_zero_iff.1 (by omega)⟩
    obtain ⟨rfl, rfl⟩ := hnil
    have hw := splitOnly_after hL h ho.1 hz
    refine allocEffect_of hL h hfit hrun rfl (hout ▸ hw.used) (fun b hb => ?_) hlayout
    exact hw.sizes b (List.mem_cons_of_mem _ (hout ▸ hb))
  · have hholds := hlayout ho
    exact allocEffect_of hL h hfit hrun rfl hholds.used
      (fun b hb => hholds.sizes b (Layout.WellFormed.used_mem hb)) hlayout

/-- `alloc` takes the first block that fits. -/
theorem alloc_of_firstFit (hL : L.Holds s.field) (h : L.WellFormed s.dbSize) (hfit : L.FirstFit n c) :
    ∃ s', alloc n s = some (some c.data, s') ∧ AllocEffect s L n c s' := by
  obtain ⟨l₁, l₂, hfree, hsmall⟩ := hfit.split h
  by_cases hz : n + 124 ≤ c.dataSize
  · exact allocEffect_split hL h hfit hfree hsmall hz
  · exact allocEffect_whole hL h hfit hfree hsmall hz

/-- `alloc` finds no block that fits. -/
theorem alloc_of_small (hL : L.Holds s.field) (h : L.WellFormed s.dbSize) (hsmall : ∀ x ∈ L.free, x.dataSize < n) :
    alloc n s = some (none, s) := by
  have hx := exec_alloc_none h.sound s.dbSize_lt s.field_lt hL hsmall
  have hrun := hx.run s rfl (fun _ _ => rfl)
  rwa [FileBackedBuffer.after_nil] at hrun

/-- The effect of `alloc`, and when it keeps the buffer well formed. -/
theorem alloc_effect (hL : L.Holds s.field) (h : L.WellFormed s.dbSize) (n : Nat) :
    ((∀ x ∈ L.free, x.dataSize < n) → alloc n s = some (none, s)) ∧
      ∀ c, L.FirstFit n c → ∃ s', alloc n s = some (some c.data, s') ∧ AllocEffect s L n c s' :=
  ⟨alloc_of_small hL h, fun _ hfit => alloc_of_firstFit hL h hfit⟩

/-- `alloc(20)` passes over the first free block and splits the second one. -/
theorem alloc_effect_of_four_blocks : ∃ s s', alloc 20 s = some (some 160, s') ∧
    AllocEffect s ⟨[⟨56, 16⟩, ⟨136, 240⟩], [⟨96, 16⟩, ⟨16, 16⟩]⟩ 20 ⟨136, 240⟩ s' := by
  obtain ⟨c, -, -, hL, hwf⟩ := exists_fourBlocks
  obtain ⟨s', hrun, he⟩ := (alloc_effect hL hwf 20).2 ⟨136, 240⟩ ⟨by simp, by decide, by decide⟩
  exact ⟨c.buffer, s', hrun, he⟩

/-! ### `free` -/

/-- The block from `a` up to `e`. -/
def Block.between (a e : Nat) : Block := ⟨a, e - a - sizeofBlock⟩

/-- Where `b` begins together with the block of `l` that ends at it. -/
def mergedStart (l : List Block) (b : Block) : Nat :=
  (l.find? fun x => x.stop = b.offset).elim b.offset Block.offset

/-- Where `b` ends together with the block of `l` that starts at its end. -/
def mergedStop (l : List Block) (b : Block) : Nat := (l.find? fun x => b.stop = x.offset).elim b.stop Block.stop

/-- The bytes of `b` are added to the free list, and merged with the free blocks that they touch. -/
def Layout.freed (L : Layout) (b : Block) : Layout where
  free := L.free.filter (fun x => x.stop < b.offset) ++
    Block.between (mergedStart L.free b) (mergedStop L.free b) :: L.free.filter fun x => b.stop < x.offset
  used := L.used.erase b

theorem Block.between_self (b : Block) : Block.between b.offset b.stop = b := by
  obtain ⟨o, z⟩ := b
  simp only [Block.between, Block.stop, Block.mk.injEq, true_and]
  omega

private theorem Block.join_eq_between {b c : Block} (h : b.stop = c.offset) : b.join c = Block.between b.offset c.stop := by
  rw [← Block.stop_join h]
  exact (b.join c).between_self.symm

private theorem joinNext_eq {b : Block} {l : List Block} (hl : l.Pairwise (fun b c => b.stop < c.offset))
    (hb : ∀ x ∈ l, b.stop ≤ x.offset) :
    joinNext b l = Block.between b.offset (mergedStop l b) :: l.filter fun x => b.stop < x.offset := by
  cases l with
  | nil => rw [joinNext, mergedStop, List.find?_nil, Option.elim_none, Block.between_self, List.filter_nil]
  | cons n l =>
    obtain ⟨hn, -⟩ := List.pairwise_cons.1 hl
    have hns := n.offset_lt_stop
    have hbn := hb n (List.mem_cons_self ..)
    have hrest : l.filter (fun x => b.stop < x.offset) = l := by
      rw [List.filter_eq_self]
      intro x hx
      have := hn x hx
      exact decide_eq_true (by omega)
    rw [joinNext, mergedStop, List.find?_cons, List.filter_cons, hrest]
    by_cases h : b.stop = n.offset
    · rw [if_pos h, decide_eq_true h, if_neg (by simp; omega), Block.join_eq_between h]
      rfl
    · have hnone : l.find? (fun x => b.stop = x.offset) = none := by
        rw [List.find?_eq_none]
        intro x hx e
        have := hn x hx
        have := of_decide_eq_true e
        omega
      rw [if_neg h, decide_eq_false h, hnone, if_pos (by simp; omega), Option.elim_none, Block.between_self]

/-- Insertion, as a change of the whole list. -/
theorem insertFree_eq {b : Block} {l : List Block} (hl : l.Pairwise (fun b c => b.stop < c.offset))
    (hb : ∀ x ∈ l, x.Apart b) :
    insertFree b l = l.filter (fun x => x.stop < b.offset) ++
      Block.between (mergedStart l b) (mergedStop l b) :: l.filter fun x => b.stop < x.offset := by
  have hbs := b.offset_lt_stop
  induction l with
  | nil => rw [insertFree, mergedStart, mergedStop, List.find?_nil, List.find?_nil, Option.elim_none, Option.elim_none,
      Block.between_self]; rfl
  | cons c l ih =>
    obtain ⟨hc, hl'⟩ := List.pairwise_cons.1 hl
    have hcs := c.offset_lt_stop
    have hcb := hb c (List.mem_cons_self ..)
    rw [insertFree]
    by_cases hlt : b.offset < c.offset
    · -- all blocks lie behind `b`
      have hbehind : ∀ x ∈ c :: l, b.stop ≤ x.offset ∧ b.offset < x.stop := by
        intro x hx
        have hxs := x.offset_lt_stop
        rcases List.mem_cons.1 hx with rfl | hx
        · rcases hcb with e | e <;> omega
        · have := hc x hx
          rcases hcb with e | e <;> omega
      have hnil : (c :: l).filter (fun x => x.stop < b.offset) = [] := by
        rw [List.filter_eq_nil_iff]
        intro x hx e
        have := hbehind x hx
        have := of_decide_eq_true e
        omega
      have hnone : (c :: l).find? (fun x => x.stop = b.offset) = none := by
        rw [List.find?_eq_none]
        intro x hx e
        have := hbehind x hx
        have := of_decide_eq_true e
        omega
      rw [if_pos hlt, hnil, List.nil_append, mergedStart, hnone]
      exact joinNext_eq hl fun x hx => (hbehind x hx).1
    · rw [if_neg hlt]
      by_cases he : c.stop = b.offset
      · -- `c` ends at `b`, and the others lie behind it
        have hbehind : ∀ x ∈ l, b.stop ≤ x.offset := by
          intro x hx
          have := hc x hx
          have := x.offset_lt_stop
          rcases hb x (List.mem_cons_of_mem _ hx) with e | e <;> omega
        have hnil : (c :: l).filter (fun x => x.stop < b.offset) = [] := by
          rw [List.filter_eq_nil_iff]
          intro x hx e
          have := of_decide_eq_true e
          rcases List.mem_cons.1 hx with rfl | hx
          · omega
          · have := hbehind x hx
            have := x.offset_lt_stop
            omega
        have hjoin := joinNext_eq (b := c.join b) hl' fun x hx => (Block.stop_join he).symm ▸ hbehind x hx
        have hstart : mergedStart (c :: l) b = c.offset := by rw [mergedStart, List.find?_cons, decide_eq_true he]; rfl
        have hstop : mergedStop (c :: l) b = mergedStop l (c.join b) := by
          have hne : ¬ b.stop = c.offset := by omega
          rw [mergedStop, mergedStop, List.find?_cons, decide_eq_false hne, Block.stop_join he]
        have hfilter : (c :: l).filter (fun x => b.stop < x.offset) = l.filter fun x => b.stop < x.offset := by
          rw [List.filter_cons_of_neg (by simp; omega)]
        rw [if_pos he, hjoin, hnil, hstart, hstop, hfilter, Block.stop_join he]
        rfl
      · have hlt' : c.stop < b.offset := by rcases hcb with e | e <;> omega
        have hne : ¬ b.stop = c.offset := by omega
        have hstart : mergedStart (c :: l) b = mergedStart l b := by
          rw [mergedStart, mergedStart, List.find?_cons, decide_eq_false he]
        have hstop : mergedStop (c :: l) b = mergedStop l b := by
          rw [mergedStop, mergedStop, List.find?_cons, decide_eq_false hne]
        rw [if_neg he, ih hl' (fun x hx => hb x (List.mem_cons_of_mem _ hx)), hstart, hstop,
          List.filter_cons_of_pos (by simpa using hlt'), List.filter_cons_of_neg (by simp; omega), List.cons_append]

theorem Layout.WellFormed.free_apart {db : Nat} (h : L.WellFormed db) (hb : b ∈ L.used) : ∀ x ∈ L.free, x.Apart b := by
  intro x hx
  rcases h.tiled.eq_or_apart (Layout.WellFormed.free_mem hx) (Layout.WellFormed.used_mem hb) with rfl | hxb
  · exact absurd (List.mem_map_of_mem hb) (h.distinct.disjoint _ (List.mem_map_of_mem hx))
  · exact hxb

private theorem Layout.WellFormed.freed_eq {db : Nat} (h : L.WellFormed db) (hb : b ∈ L.used) :
    L.freed b = L.afterFree b := by
  rw [Layout.freed, Layout.afterFree, insertFree_eq h.gapped (h.free_apart hb)]

private theorem stop_merged (l : List Block) (b : Block) :
    (Block.between (mergedStart l b) (mergedStop l b)).stop = mergedStop l b := by
  have hbs := b.offset_lt_stop
  have hstart : mergedStart l b ≤ b.offset := by
    unfold mergedStart
    cases hf : l.find? fun x => x.stop = b.offset with
    | none => exact Nat.le_refl _
    | some x =>
      have hx := x.offset_lt_stop
      have hp := List.find?_some hf
      have := of_decide_eq_true hp
      rw [Option.elim_some]
      omega
  have hstop : b.stop ≤ mergedStop l b := by
    unfold mergedStop
    cases hf : l.find? fun x => b.stop = x.offset with
    | none => exact Nat.le_refl _
    | some x =>
      have hx := x.offset_lt_stop
      have hp := List.find?_some hf
      have := of_decide_eq_true hp
      rw [Option.elim_some]
      omega
  simp only [Block.stop, Block.between, sizeofBlock] at *
  omega

/-- The effect of `free`. -/
theorem free_effect (hL : L.Holds s.field) (h : L.WellFormed s.dbSize) (hb : b ∈ L.used) :
    ∃ s', free b.data s = some ((), s') ∧ s'.dbSize = s.dbSize ∧ (L.freed b).Holds s'.field ∧
      (L.freed b).WellFormed s'.dbSize ∧
      (Block.between (mergedStart L.free b) (mergedStop L.free b)).stop = mergedStop L.free b := by
  obtain ⟨s', hrun, hdb, hholds, hwf, -⟩ := free_spec hL h hb
  refine ⟨s', hrun, hdb, ?_, ?_, stop_merged ..⟩
  · rw [h.freed_eq hb]
    exact hholds
  · rw [h.freed_eq hb, hdb]
    exact hwf

/-- The block between the two free ones is merged with both. -/
theorem free_effect_of_four_blocks : ∃ s s', free 120 s = some ((), s') ∧
    Layout.Holds s'.field ⟨[⟨56, 320⟩], [⟨16, 16⟩]⟩ ∧ Layout.WellFormed ⟨[⟨56, 320⟩], [⟨16, 16⟩]⟩ s'.dbSize := by
  obtain ⟨c, -, -, hL, hwf⟩ := exists_fourBlocks
  obtain ⟨s', hrun, -, hholds, hwf', -⟩ := free_effect hL hwf (b := ⟨96, 16⟩) (by simp)
  have hfreed : Layout.freed ⟨[⟨56, 16⟩, ⟨136, 240⟩], [⟨96, 16⟩, ⟨16, 16⟩]⟩ ⟨96, 16⟩ = ⟨[⟨56, 320⟩], [⟨16, 16⟩]⟩ := by decide
  rw [hfreed] at hholds hwf'
  exact ⟨c.buffer, s', hrun, hholds, hwf'⟩

/-! ### What the calls read and write -/

/-- The byte belongs to the word. -/
def Field.Covers (f : Field) (x : Nat) : Prop := f.address ≤ x ∧ x < f.address + 8

/-- The byte belongs to the header of the file, or to that of a block. -/
def Layout.HeaderByte (L : Layout) (x : Nat) : Prop := x < 16 ∨ ∃ b ∈ L.blocks, b.offset ≤ x ∧ x < b.offset + 24

/-- The byte belongs to the payload of the free block that `alloc n` splits. -/
def Layout.SplitByte (L : Layout) (n x : Nat) : Prop :=
  ∃ c, L.FirstFit n c ∧ n + 124 ≤ c.dataSize ∧ c.data ≤ x ∧ x < c.stop

/-- The call returns, and it stores to bytes of the file that are `allowed` only; what it returns and stores depends on the
bytes of the file only; and the payloads of the blocks `kept` are the same afterwards. -/
def Confined {α : Type} (call : BufferM α) (s : FileBackedBuffer) (allowed : Nat → Prop) (kept : List Block) : Prop :=
  ∃ a ws, call s = some (a, s.after ws) ∧
    (∀ w ∈ ws, ∀ x, w.1.Covers x → x < s.dbSize ∧ allowed x) ∧
    (∀ t : FileBackedBuffer, t.dbSize = s.dbSize → (∀ x < s.dbSize, t.base x = s.base x) → call t = some (a, t.after ws)) ∧
    KeepsPayloads kept s.base (s.after ws).base

theorem covers_header {D : Set Nat} {f : Field} (hf : f.On D) {x : Nat} (hx : f.Covers x) :
    x < 16 ∨ ∃ d ∈ D, d ≤ x ∧ x < d + 24 := by
  obtain ⟨h₁, h₂⟩ := hx
  cases f with
  | nextFreeBlockOffset => simp only [Field.address] at h₂; exact Or.inl (by omega)
  | nextUsedBlockOffset => simp only [Field.address] at h₂; exact Or.inl (by omega)
  | prevBlockOffset d => simp only [Field.address] at h₁ h₂; exact Or.inr ⟨d, hf, by omega, by omega⟩
  | nextBlockOffset d => simp only [Field.address] at h₁ h₂; exact Or.inr ⟨d, hf, by omega, by omega⟩
  | dataSize d => simp only [Field.address] at h₁ h₂; exact Or.inr ⟨d, hf, by omega, by omega⟩

/-- What is executed on the headers of `D` reads and writes there. -/
private theorem confined_of_exec {α : Type} {D : Set Nat} {call : BufferM α} {a : α} {ws : List (Field × Nat)}
    {allowed : Nat → Prop} {kept : List Block} (hD : Headers D s.dbSize s.field) (hx : Exec D s.dbSize s.field call a ws)
    (hallowed : ∀ x, (x < 16 ∨ ∃ d ∈ D, d ≤ x ∧ x < d + 24) → allowed x)
    (hkept : ∀ b ∈ kept, ∀ x, b.data ≤ x → x < b.stop → 16 ≤ x ∧ ∀ d ∈ D, x < d ∨ d + 24 ≤ x) :
    Confined call s allowed kept := by
  refine ⟨a, ws, hx.run s rfl (fun _ _ => rfl), fun w hw x hwx => ⟨?_, ?_⟩, fun t hdb ht => ?_, fun b hb x h₁ h₂ => ?_⟩
  · have := hD.address_le (hx.stores w hw).1
    have := hwx.2
    omega
  · exact hallowed x (covers_header (hx.stores w hw).1 hwx)
  · refine hx.run t hdb fun f hf => word_congr fun i hi => ht _ ?_
    have := hD.address_le hf
    omega
  · obtain ⟨h16, hout⟩ := hkept b hb x h₁ h₂
    exact applyStores_outside hx.stores h16 hout s.base

private theorem confined_alloc (hL : L.Holds s.field) (h : L.WellFormed s.dbSize) (n : Nat) :
    Confined (alloc n) s (fun x => L.HeaderByte x ∨ L.SplitByte n x) L.used := by
  have hheader : ∀ x, (x < 16 ∨ ∃ d ∈ {x | x ∈ offsets L.blocks}, d ≤ x ∧ x < d + 24) → L.HeaderByte x := by
    rintro x (hx | ⟨d, hd, hx⟩)
    · exact Or.inl hx
    · obtain ⟨b, hb, rfl⟩ := List.mem_map.1 hd
      exact Or.inr ⟨b, hb, hx⟩
  have hused : ∀ b ∈ L.used, ∀ x, b.data ≤ x → x < b.stop →
      16 ≤ x ∧ ∀ d ∈ {x | x ∈ offsets L.blocks}, x < d ∨ d + 24 ≤ x :=
    fun b hb x h₁ h₂ => payload_outside h.sound hb h₁ h₂
  rcases L.first_fit n with hsmall | ⟨l₁, c, l₂, hfree, hsmall, hn⟩
  · exact confined_of_exec h.headers_file (exec_alloc_none h.sound s.dbSize_lt s.field_lt hL hsmall)
      (fun x hx => Or.inl (hheader x hx)) hused
  · by_cases hz : n + 124 ≤ c.dataSize
    · have hc : c ∈ L.free := by rw [hfree]; simp
      refine confined_of_exec (headers_rest h.sound s.dbSize_lt s.field_lt hc hz)
        (exec_alloc_split h s.dbSize_lt s.field_lt hL hfree hsmall hz) (fun x hx => ?_)
        fun b hb x h₁ h₂ => payload_outside_rest h.sound hfree hz hb h₁ h₂
      rcases hx with hx | ⟨d, hd, hx⟩
      · exact Or.inl (Or.inl hx)
      · rcases List.mem_cons.1 hd with rfl | hd
        · -- the header of the rest
          refine Or.inr ⟨c, ⟨hc, hn, fun y hy hny => ?_⟩, hz, ?_, ?_⟩
          · rw [hfree] at hy
            have hsorted := h.sorted
            rw [hfree] at hsorted
            rcases List.mem_append.1 hy with hy | hy
            · have := hsmall y hy
              omega
            · rcases List.mem_cons.1 hy with rfl | hy
              · exact Nat.le_refl _
              · have := (List.pairwise_cons.1 (List.pairwise_append.1 hsorted).2.1).1 y hy
                omega
          · simp only [Block.rest, Block.data] at *
            omega
          · simp only [Block.rest, Block.stop, sizeofBlock] at *
            omega
        · exact Or.inl (hheader x (Or.inr ⟨d, hd, hx⟩))
    · exact confined_of_exec h.headers_file (exec_alloc_whole h.sound s.dbSize_lt s.field_lt hL hfree hsmall hn (by omega))
        (fun x hx => Or.inl (hheader x hx)) hused

private theorem confined_free (hL : L.Holds s.field) (h : L.WellFormed s.dbSize) (hb : b ∈ L.used) :
    Confined (free b.data) s L.HeaderByte (L.used.erase b) := by
  obtain ⟨u₁, u₂, hu⟩ := List.append_of_mem hb
  refine confined_of_exec h.headers_file (exec_free h.sound s.dbSize_lt s.field_lt hL hu) (fun x hx => ?_)
    fun c hc x h₁ h₂ => payload_outside h.sound (List.mem_of_mem_erase hc) h₁ h₂
  rcases hx with hx | ⟨d, hd, hx⟩
  · exact Or.inl hx
  · obtain ⟨c, hc, rfl⟩ := List.mem_map.1 hd
    exact Or.inr ⟨c, hc, hx⟩

/-- The calls stay inside the file and leave the payloads that are in use alone. -/
theorem calls_confined (hL : L.Holds s.field) (h : L.WellFormed s.dbSize) :
    (∀ n, Confined (alloc n) s (fun x => L.HeaderByte x ∨ L.SplitByte n x) L.used) ∧
      ∀ b ∈ L.used, Confined (free b.data) s L.HeaderByte (L.used.erase b) :=
  ⟨confined_alloc hL h, fun _ hb => confined_free hL h hb⟩

theorem calls_confined_of_four_blocks : ∃ (s : FileBackedBuffer) (L : Layout), L.used = [⟨96, 16⟩, ⟨16, 16⟩] ∧
    Confined (alloc 20) s (fun x => L.HeaderByte x ∨ L.SplitByte 20 x) L.used ∧
      Confined (free 120) s L.HeaderByte [⟨16, 16⟩] := by
  obtain ⟨c, -, -, hL, hwf⟩ := exists_fourBlocks
  have hconf := calls_confined hL hwf
  exact ⟨c.buffer, _, rfl, hconf.1 20, hconf.2 ⟨96, 16⟩ (by simp)⟩

end KeyValueStore
