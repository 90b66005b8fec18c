import KeyValueStore.Alloc

/-!
# `alloc` and `free` on a well formed file

The results on header words of the modules before are read as results on files: a call on a well formed file returns and
leaves a well formed file, and the payloads of the used blocks keep their bytes (`alloc_spec`, `free_spec`).  The exception
is `StaleSplit`, where the file is not well formed after the call (`alloc_of_staleSplit`).
-/

namespace KeyValueStore

open ByteMemory DoublyLinked

/-- `alloc n` splits the only free block, and the bytes that become the links of the rest are not all zero. -/
def StaleSplit (s : FileBackedBuffer) (n : Nat) : Prop :=
  s.field .nextFreeBlockOffset ≠ nullOffset ∧
    s.field (.nextBlockOffset (s.field .nextFreeBlockOffset)) = nullOffset ∧
    n + sizeofBlock + 100 ≤ s.field (.dataSize (s.field .nextFreeBlockOffset)) ∧
    ¬ (s.field (.prevBlockOffset (s.field .nextFreeBlockOffset + sizeofBlock + n)) = nullOffset ∧
      s.field (.nextBlockOffset (s.field .nextFreeBlockOffset + sizeofBlock + n)) = nullOffset)

instance (s : FileBackedBuffer) (n : Nat) : Decidable (StaleSplit s n) := by
  unfold StaleSplit; infer_instance

/-- The payloads of the blocks `bs` have the same bytes. -/
def KeepsPayloads (bs : List Block) (m m' : Mem) : Prop := ∀ b ∈ bs, ∀ x, b.data ≤ x → x < b.stop → m' x = m x

theorem FileBackedBuffer.field_lt (s : FileBackedBuffer) (f : Field) : s.field f < 2 ^ 64 := word_lt ..

/-- A layout depends on the words of its blocks only. -/
theorem Layout.Holds.congr {F F' : Words} {L : Layout} (h : L.Holds F) {D : Set Nat}
    (hD : ∀ b ∈ L.blocks, b.offset ∈ D) (hF : ∀ f : Field, f.On D → F' f = F f) : L.Holds F' := by
  have hfree : ∀ x ∈ L.free.map Block.offset, x ∈ D := by
    intro x hx
    obtain ⟨b, hb, rfl⟩ := List.mem_map.1 hx
    exact hD b (List.mem_append_left _ hb)
  have hused : ∀ x ∈ L.used.map Block.offset, x ∈ D := by
    intro x hx
    obtain ⟨b, hb, rfl⟩ := List.mem_map.1 hx
    exact hD b (List.mem_append_right _ hb)
  refine ⟨h.free.congr (hF _ trivial) ?_ ?_, h.used.congr (hF _ trivial) ?_ ?_, ?_⟩
  · exact fun x hx => hF (.prevBlockOffset x) (hfree x hx)
  · exact fun x hx => hF (.nextBlockOffset x) (hfree x hx)
  · exact fun x hx => hF (.prevBlockOffset x) (hused x hx)
  · exact fun x hx => hF (.nextBlockOffset x) (hused x hx)
  · exact fun b hb => (hF (.dataSize b.offset) (hD b hb)).trans (h.sizes b hb)

/-- The stores to the headers of `D` change no other byte. -/
theorem applyStores_outside {D : Set Nat} {ws : List (Field × Nat)} (h : StoresOn D ws) {x : Nat} (hx : 16 ≤ x)
    (hD : ∀ b ∈ D, x < b ∨ b + 24 ≤ x) (m : Mem) : applyStores m ws x = m x := by
  induction ws generalizing m with
  | nil => rfl
  | cons w ws ih =>
    have hw := (h w (List.mem_cons_self ..)).1
    have hout : x < w.1.address ∨ w.1.address + 8 ≤ x := by
      rcases w with ⟨f, v⟩
      cases f <;> simp only [Field.On, Field.address] at hw ⊢ <;> first
        | omega
        | (have hb := hD _ hw; omega)
    show applyStores (setWord m w.1.address w.2) ws x = m x
    rw [ih (fun w hw => h w (List.mem_cons_of_mem _ hw)), setWord_outside _ _ _ hout]

section

variable {s : FileBackedBuffer} {L L' : Layout} {n : Nat} {b c : Block}

theorem Layout.WellFormed.headers_file (h : L.WellFormed s.dbSize) :
    Headers {x | x ∈ offsets L.blocks} s.dbSize s.field :=
  h.headers s.dbSize_lt s.field_lt

/-- The layout of the file after a call, from the words after its stores. -/
theorem holds_after {D : Set Nat} {ws : List (Field × Nat)} (hD : Headers D s.dbSize s.field)
    (hws : StoresOn D ws) (hL' : L'.Holds (Words.after s.field ws)) (hmem : ∀ b ∈ L'.blocks, b.offset ∈ D) :
    L'.Holds (s.after ws).field :=
  hL'.congr hmem (Agrees.after hD (fun _ _ => rfl) hws)

/-- The payload of a used block holds no header. -/
theorem payload_outside (h : L.Sound s.dbSize) (hb : b ∈ L.used) {x : Nat} (hx : b.data ≤ x)
    (hx' : x < b.stop) : 16 ≤ x ∧ ∀ y ∈ offsets L.blocks, x < y ∨ y + 24 ≤ x := by
  have hbb := h.inside b (Layout.WellFormed.used_mem hb)
  unfold Block.data sizeofBlock at hx
  unfold sizeofBufferHeader at hbb
  refine ⟨by omega, fun y hy => ?_⟩
  obtain ⟨c, hc, rfl⟩ := List.mem_map.1 hy
  have := c.offset_lt_stop
  rcases h.eq_or_apart (Layout.WellFormed.used_mem hb) hc with rfl | hbc | hbc <;> omega

/-- `free` of a used block of a well formed file. -/
theorem free_spec (hL : L.Holds s.field) (h : L.WellFormed s.dbSize) (hb : b ∈ L.used) :
    ∃ s', free b.data s = some ((), s') ∧ s'.dbSize = s.dbSize ∧ (L.afterFree b).Holds s'.field ∧
      (L.afterFree b).WellFormed s.dbSize ∧ KeepsPayloads (L.used.erase b) s.base s'.base := by
  obtain ⟨u₁, u₂, hu⟩ := List.append_of_mem hb
  have hx := exec_free h.sound s.dbSize_lt s.field_lt hL hu
  have hD := h.headers_file
  refine ⟨_, hx.run s rfl (fun _ _ => rfl), rfl, ?_, h.afterFree hb, ?_⟩
  · exact holds_after hD hx.stores (holds_freeStores h s.dbSize_lt s.field_lt hL hu)
      (fun c hc => Layout.offset_afterFree hb hc)
  · intro c hc x hx₁ hx₂
    obtain ⟨h16, hout⟩ := payload_outside h.sound (List.mem_of_mem_erase hc) hx₁ hx₂
    exact applyStores_outside hx.stores h16 hout s.base

theorem payload_outside_rest {l₁ l₂ : List Block} (h : L.Sound s.dbSize) (hfree : L.free = l₁ ++ c :: l₂)
    (hz : n + 124 ≤ c.dataSize) (hb : b ∈ L.used) {x : Nat} (hx : b.data ≤ x) (hx' : x < b.stop) :
    16 ≤ x ∧ ∀ y ∈ (c.rest n).offset :: offsets L.blocks, x < y ∨ y + 24 ≤ x := by
  obtain ⟨h16, hout⟩ := payload_outside h hb hx hx'
  have hc : c ∈ L.free := by rw [hfree]; simp
  refine ⟨h16, fun y hy => ?_⟩
  rcases List.mem_cons.1 hy with rfl | hy
  · have hne : b ≠ c := by
      rintro rfl
      exact h.distinct.disjoint _ (List.mem_map_of_mem hc) (List.mem_map_of_mem hb)
    rcases (h.eq_or_apart (Layout.WellFormed.used_mem hb) (Layout.WellFormed.free_mem hc)).resolve_left hne with
      hbc | hbc <;> simp only [Block.rest, Block.stop, Block.data, sizeofBlock] at * <;> omega
  · exact hout y hy

theorem staleSplit_iff (hL : L.Holds s.field) (h : L.Sound s.dbSize) :
    StaleSplit s n ↔ ∃ c, L.free = [c] ∧ n + 124 ≤ c.dataSize ∧
      ¬ (s.field (.prevBlockOffset (c.rest n).offset) = nullOffset ∧
        s.field (.nextBlockOffset (c.rest n).offset) = nullOffset) := by
  have h0 := h.distinct.free_ne_null
  obtain ⟨fr, us⟩ := L
  have hf := hL.free
  have hs := hL.sizes
  unfold StaleSplit
  rcases fr with _ | ⟨c, _ | ⟨d, fr⟩⟩
  · have hhead : s.field .nextFreeBlockOffset = nullOffset := hf.head
    simp [hhead]
  · have hhead : s.field .nextFreeBlockOffset = c.offset := hf.head
    have hnext : s.field (.nextBlockOffset c.offset) = nullOffset := hf.seg.2.1
    have hsize : s.field (.dataSize c.offset) = c.dataSize := hs c (by simp [Layout.blocks])
    have hc : c.offset ≠ nullOffset := fun e => h0 (by simp [e])
    simp only [hhead, hnext, hsize, ne_eq, hc, not_false_eq_true, true_and, sizeofBlock, Block.rest,
      List.cons.injEq, and_true]
    constructor
    · rintro ⟨hn, hl⟩
      exact ⟨c, rfl, by omega, hl⟩
    · rintro ⟨c', rfl, hn, hl⟩
      exact ⟨by omega, hl⟩
  · have hhead : s.field .nextFreeBlockOffset = c.offset := hf.head
    have hnext : s.field (.nextBlockOffset c.offset) = d.offset := hf.seg.2.1
    have hd : d.offset ≠ nullOffset := fun e => h0 (by simp [e])
    simp [hhead, hnext, hd]

/-- What `alloc` leaves when it hands out the block `b`. -/
structure Allocated (L : Layout) (n : Nat) (s : FileBackedBuffer) (b : Block) (s' : FileBackedBuffer) (L' : Layout) :
    Prop where
  run : alloc n s = some (some b.data, s')
  dbSize : s'.dbSize = s.dbSize
  holds : L'.Holds s'.field
  wellFormed : L'.WellFormed s.dbSize
  used : L'.used = b :: L.used
  size : n ≤ b.dataSize
  keeps : KeepsPayloads L.used s.base s'.base

theorem allocated_whole {l₁ l₂ : List Block} (hL : L.Holds s.field) (h : L.WellFormed s.dbSize)
    (hfree : L.free = l₁ ++ c :: l₂) (hsmall : ∀ x ∈ l₁, x.dataSize < n) (hn : n ≤ c.dataSize)
    (hz : c.dataSize < n + 124) :
    Allocated L n s c (s.after (wholeStores l₁ c l₂ L.used)) ⟨l₁ ++ l₂, c :: L.used⟩ := by
  have hx := exec_alloc_whole h.sound s.dbSize_lt s.field_lt hL hfree hsmall hn hz
  refine ⟨hx.run s rfl (fun _ _ => rfl), rfl, ?_, h.afterWhole hfree, rfl, hn, ?_⟩
  · apply holds_after h.headers_file hx.stores (holds_wholeStores h.sound hL hfree)
    intro x hx
    have hp : (Layout.blocks ⟨l₁ ++ l₂, c :: L.used⟩).Perm L.blocks := by
      rw [Layout.blocks, Layout.blocks, hfree, List.append_assoc, List.append_assoc, List.cons_append]
      exact List.Perm.append_left l₁ List.perm_middle
    exact List.mem_map_of_mem (hp.mem_iff.1 hx)
  · intro b hb x hx₁ hx₂
    obtain ⟨h16, hout⟩ := payload_outside h.sound hb hx₁ hx₂
    exact applyStores_outside hx.stores h16 hout s.base

theorem mem_afterSplit {l₁ l₂ u : List Block} {x : Block}
    (hx : x ∈ (Layout.afterSplit l₁ c n l₂ u).blocks) :
    x = c.rest n ∨ x.offset ∈ offsets (Layout.blocks ⟨l₁ ++ c :: l₂, u⟩) := by
  have hx' : x = c.rest n ∨ x = ⟨c.offset, n⟩ ∨ x ∈ l₁ ++ l₂ ++ u := by
    simp only [Layout.afterSplit, Layout.blocks, List.mem_append, List.mem_cons] at hx ⊢
    tauto
  rcases hx' with rfl | rfl | hx
  · exact Or.inl rfl
  · have hc : c ∈ Layout.blocks ⟨l₁ ++ c :: l₂, u⟩ := by simp [Layout.blocks]
    exact Or.inr (List.mem_map.2 ⟨c, hc, rfl⟩)
  · have hx' : x ∈ Layout.blocks ⟨l₁ ++ c :: l₂, u⟩ := by
      simp only [Layout.blocks, List.mem_append, List.mem_cons] at hx ⊢
      tauto
    exact Or.inr (List.mem_map_of_mem hx')

theorem allocated_split {l₁ l₂ : List Block} (hL : L.Holds s.field) (h : L.WellFormed s.dbSize)
    (hns : ¬ StaleSplit s n) (hfree : L.free = l₁ ++ c :: l₂) (hsmall : ∀ x ∈ l₁, x.dataSize < n)
    (hz : n + 124 ≤ c.dataSize) :
    Allocated L n s ⟨c.offset, n⟩ (s.after (splitStores l₁ c n l₂ L.used)) (Layout.afterSplit l₁ c n l₂ L.used) := by
  have hx := exec_alloc_split h s.dbSize_lt s.field_lt hL hfree hsmall hz
  have hc : c ∈ L.free := by rw [hfree]; simp
  have hlinks : l₁ ++ l₂ = [] → s.field (.prevBlockOffset (c.rest n).offset) = nullOffset ∧
      s.field (.nextBlockOffset (c.rest n).offset) = nullOffset := by
    intro e
    obtain ⟨rfl, rfl⟩ := List.append_eq_nil_iff.1 e
    by_contra hl
    exact hns ((staleSplit_iff hL h.sound).2 ⟨c, hfree, hz, hl⟩)
  have hholds := holds_splitStores h s.dbSize_lt s.field_lt hL hfree hz hlinks
  refine ⟨hx.run s rfl (fun _ _ => rfl), rfl, ?_, h.afterSplit hfree hz, rfl, Nat.le_refl _, ?_⟩
  · apply holds_after (headers_rest h.sound s.dbSize_lt s.field_lt hc hz) hx.stores hholds
    intro x hx
    rcases mem_afterSplit hx with rfl | hx
    · exact List.mem_cons_self ..
    · rw [← hfree] at hx
      exact List.mem_cons_of_mem _ hx
  · intro b hb x hx₁ hx₂
    obtain ⟨h16, hout⟩ := payload_outside_rest h.sound hfree hz hb hx₁ hx₂
    exact applyStores_outside hx.stores h16 hout s.base

/-- `alloc` on a well formed file: nothing changes and no free block is large enough, or the new block is apart from the
used ones and put in front of them. -/
theorem alloc_spec (hL : L.Holds s.field) (h : L.WellFormed s.dbSize) (hns : ¬ StaleSplit s n) :
    (alloc n s = some (none, s) ∧ ∀ b ∈ L.free, b.dataSize < n) ∨ ∃ b s' L', Allocated L n s b s' L' := by
  rcases L.first_fit n with hsmall | ⟨l₁, c, l₂, hfree, hsmall, hn⟩
  · have hx := exec_alloc_none h.sound s.dbSize_lt s.field_lt hL hsmall
    have hrun := hx.run s rfl (fun _ _ => rfl)
    rw [FileBackedBuffer.after_nil] at hrun
    exact Or.inl ⟨hrun, hsmall⟩
  · right
    by_cases hz : n + 124 ≤ c.dataSize
    · exact ⟨_, _, _, allocated_split hL h hns hfree hsmall hz⟩
    · exact ⟨_, _, _, allocated_whole hL h hfree hsmall hn (by omega)⟩

/-! ### The stale split -/

/-- Two lists of blocks with the same offsets and the same sizes in the words are equal. -/
theorem eq_of_offsets {G : Words} {l l' : List Block} (h : offsets l = offsets l')
    (hl : ∀ b ∈ l, G (.dataSize b.offset) = b.dataSize) (hl' : ∀ b ∈ l', G (.dataSize b.offset) = b.dataSize) :
    l = l' := by
  induction l generalizing l' with
  | nil => exact (List.map_eq_nil_iff.1 h.symm).symm
  | cons b l ih =>
    cases l' with
    | nil => exact absurd h (List.cons_ne_nil _ _)
    | cons c l' =>
      obtain ⟨ho, ht⟩ := List.cons.inj h
      have hs : b.dataSize = c.dataSize := by
        rw [← hl b (List.mem_cons_self ..), ← hl' c (List.mem_cons_self ..), ho]
      rw [ih ht (fun x hx => hl x (List.mem_cons_of_mem _ hx)) (fun x hx => hl' x (List.mem_cons_of_mem _ hx)),
        show b = c from by cases b; cases c; simp_all]

/-- A well formed layout with the used list and the head of the free list of another one has no further free block, since
the blocks of both cover the same bytes. -/
private theorem free_eq_singleton {G : Words} {db : Nat} {r : Block} {u : List Block} (hL' : L'.Holds G)
    (h' : L'.WellFormed db) (h : Layout.WellFormed ⟨[r], u⟩ db) (hhead : G .nextFreeBlockOffset = r.offset)
    (hused : IsList G .nextUsedBlockOffset (offsets u)) (hsize : ∀ b ∈ r :: u, G (.dataSize b.offset) = b.dataSize) :
    L'.free = [r] := by
  have hu : L'.used = u := by
    have ho := hL'.used.unique hused h'.distinct.used_ne_null h.distinct.used_ne_null
    exact eq_of_offsets ho (fun b hb => hL'.sizes b (Layout.WellFormed.used_mem hb))
      (fun b hb => hsize b (List.mem_cons_of_mem _ hb))
  have hr : r.offset ≠ nullOffset := fun e => h.distinct.free_ne_null (by simp [e])
  obtain ⟨fr, us⟩ := L'
  obtain rfl : us = u := hu
  have hf := hL'.free
  rcases fr with _ | ⟨r', fr⟩
  · have hnull : G .nextFreeBlockOffset = nullOffset := hf.head
    exact absurd (hhead.symm.trans hnull) hr
  · have ho : r'.offset = r.offset := hf.head.symm.trans hhead
    have hs : r'.dataSize = r.dataSize := by
      rw [← hL'.sizes r' (by simp [Layout.blocks]), ← hsize r (List.mem_cons_self ..), ho]
    obtain rfl : r' = r := by cases r'; cases r; simp_all
    have hsum := h.tiled.sum
    have hsum' := h'.tiled.sum
    simp only [Layout.blocks, List.map_append, List.sum_append, List.map_cons, List.sum_cons, List.map_nil,
      List.sum_nil] at hsum hsum'
    cases fr with
    | nil => rfl
    | cons d fr =>
      simp only [List.map_cons, List.sum_cons, sizeofBlock] at hsum hsum'
      omega

/-- The file after the split of the only free block. -/
theorem splitOnly_after (hL : L.Holds s.field) (h : L.WellFormed s.dbSize) (hfree : L.free = [c])
    (hz : n + 124 ≤ c.dataSize) :
    SplitOnly s.field (s.after (splitStores [] c n [] L.used)).field c n L.used := by
  have hfree' : L.free = [] ++ c :: [] := hfree
  have hc : c ∈ L.free := by rw [hfree]; simp
  have hx := exec_alloc_split h s.dbSize_lt s.field_lt hL hfree' (by simp) hz
  have hF := Agrees.after (headers_rest h.sound s.dbSize_lt s.field_lt hc hz) (fun _ _ => rfl) hx.stores
  have hmem : ∀ b ∈ c.rest n :: ⟨c.offset, n⟩ :: L.used, b.offset ∈ {x | x ∈ (c.rest n).offset :: offsets L.blocks} := by
    intro b hb
    have hb' : b ∈ (Layout.afterSplit [] c n [] L.used).blocks := hb
    rcases mem_afterSplit hb' with rfl | hb
    · exact List.mem_cons_self ..
    · exact List.mem_cons_of_mem _ (by simpa [hfree, Layout.blocks] using hb)
  exact (splitOnly_of_wellFormed h s.dbSize_lt s.field_lt hL hfree hz).congr hmem hF

/-- After a stale split the file is not well formed. -/
theorem alloc_of_staleSplit (hL : L.Holds s.field) (h : L.WellFormed s.dbSize) (hst : StaleSplit s n) :
    ∃ p s', alloc n s = some (some p, s') ∧ ¬ WellFormed s' := by
  obtain ⟨c, hfree, hz, hl⟩ := (staleSplit_iff hL h.sound).1 hst
  have hfree' : L.free = [] ++ c :: [] := hfree
  have hx := exec_alloc_split h s.dbSize_lt s.field_lt hL hfree' (by simp) hz
  have hw := splitOnly_after hL h hfree hz
  refine ⟨_, _, hx.run s rfl (fun _ _ => rfl), ?_⟩
  rintro ⟨L', hL', h'⟩
  have hlist := hL'.free
  rw [free_eq_singleton hL' h' (h.afterSplit hfree' hz) hw.freeHead hw.used hw.sizes] at hlist
  exact hl ⟨hw.prev.symm.trans hlist.seg.1, hw.next.symm.trans hlist.seg.2.1⟩

end

end KeyValueStore
