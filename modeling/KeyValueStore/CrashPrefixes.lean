import KeyValueStore.LaterAllocs
import KeyValueStore.Coalescing
import Mathlib.Data.List.TakeWhile

/-!
# The prefixes of the stores of `alloc` and `free`

For a well formed buffer and a kill behind `k` of the stores of a call, the file left behind is consistent if and only if
`Call.SafeAt` holds of the call and `k` (`crashConsistent_iff`): no edit of the call is at a bad place, and the rest of the
only free block, whose links are old bytes from the fifth store of its split on, has the links of a list.
-/

namespace KeyValueStore

open ByteMemory DoublyLinked

/-- The edits of a call: of `alloc` on the first free block that is large enough, and of `free`. -/
def Call.edits (L : Layout) : Call → List Edit
  | .alloc n =>
    match L.free.dropWhile (fun b => b.dataSize < n) with
    | [] => []
    | c :: l₂ =>
      if n + 124 ≤ c.dataSize then
        [.unlink !l₂.isEmpty, .single, if L.free = [c] then .single else .link (!l₂.isEmpty), .single,
          .push !L.used.isEmpty]
      else [.unlink !l₂.isEmpty, .push !L.used.isEmpty]
  | .free p =>
    match L.used.dropWhile (fun b => b.data ≠ p) with
    | [] => []
    | b :: u₂ => .unlink (!u₂.isEmpty) :: insertEdits (L.before b) b (L.behind b)

/-- The bytes at the rest of `c` and at the blocks `l` are the headers of a list of them; the blocks `l` share no byte and
lie in the part of `c` in front of the rest. -/
structure RestListed (m : Mem) (c : Block) (n : Nat) (l : List Block) : Prop where
  links : Seg (fun b => word m (Field.prevBlockOffset b).address) (fun b => word m (Field.nextBlockOffset b).address)
    nullOffset (offsets (c.rest n :: l)) nullOffset
  sizes : ∀ b ∈ l, word m (Field.dataSize b.offset).address = b.dataSize
  apart : l.Pairwise Block.Apart
  inside : ∀ b ∈ l, c.offset ≤ b.offset ∧ b.stop ≤ (c.rest n).offset

/-- The bytes of the file with the stores to the header of `c` among the first `k` stores of its split. -/
def headerCleared (s : FileBackedBuffer) (c : Block) (n k : Nat) : Mem :=
  applyStores s.base ([(.prevBlockOffset c.offset, nullOffset), (.nextBlockOffset c.offset, nullOffset),
    (.dataSize c.offset, n), (.prevBlockOffset c.offset, nullOffset), (.nextBlockOffset c.offset, nullOffset)].take (k - 3))

/-- Behind `k` of the stores of the call no edit is at a bad place.  The fifth store of a split of the only free block
makes the rest the free list, whose links are then the old bytes: they have to be the links of a list, and of no other
block than the rest when the last store has put `c` on the used list. -/
def Call.SafeAt (s : FileBackedBuffer) (L : Layout) (call : Call) (k : Nat) : Prop :=
  KeyValueStore.SafeAt (call.edits L) k ∧
    ∀ n c, call = .alloc n → L.free = [c] → n + 124 ≤ c.dataSize → 5 ≤ k →
      ∃ l, RestListed (headerCleared s c n k) c n l ∧ (stores (call.edits L) ≤ k → l = [])

section

variable {s : FileBackedBuffer} {L : Layout} {D : Set Nat} {ws : List (Field × Nat)} {α : Type} {call : BufferM α} {a : α}

/-! ### Files -/

private theorem killedAfter_of_exec (hx : Exec D s.dbSize s.field call a ws) (k : Nat) :
    killedAfter call s k = some (s.after (ws.take k)).base := by
  have hrun : call { s with stores := [] } = some (a, FileBackedBuffer.after { s with stores := [] } ws) :=
    hx.run _ rfl (fun _ _ => rfl)
  rw [killedAfter, hrun]
  rfl

private theorem agrees_take (hD : Headers D s.dbSize s.field) (hx : Exec D s.dbSize s.field call a ws) (k : Nat) :
    Agrees D (Words.after s.field (ws.take k)) (s.after (ws.take k)) :=
  Agrees.after hD (fun _ _ => rfl) (fun w hw => hx.stores w (List.mem_of_mem_take hw))

private theorem killed_iff_of_exec (hx : Exec D s.dbSize s.field call a ws) (k : Nat) :
    (∃ m, killedAfter call s k = some m ∧ CrashConsistent m s.dbSize) ↔
      CrashConsistent (s.after (ws.take k)).base s.dbSize := by
  rw [killedAfter_of_exec hx k]
  simp

/-- The file is consistent as the words after the same stores are judged. -/
private theorem crashConsistent_of_judged (hD : Headers D s.dbSize s.field) (hx : Exec D s.dbSize s.field call a ws)
    {k : Nat} {good : Prop} (h : Judged D s.dbSize (Words.after s.field (ws.take k)) good) :
    CrashConsistent (s.after (ws.take k)).base s.dbSize ↔ good := by
  constructor
  · rintro ⟨L', hL', hs⟩
    by_contra hg
    exact h.inconsistent hg _ (agrees_take hD hx k) L' hs hL'
  · intro hg
    obtain ⟨L', hL'⟩ := h.consistent hg
    exact ⟨L', hL'.holds.congr hL'.mem (agrees_take hD hx k), hL'.sound⟩

theorem Layout.WellFormed.stands (h : L.WellFormed s.dbSize) (hL : L.Holds s.field) :
    L.Stands {x | x ∈ offsets L.blocks} s.dbSize s.field :=
  ⟨hL, h.sound, fun _ hb => List.mem_map_of_mem hb⟩

/-! ### `free` and the `alloc` of a whole block -/

private theorem free_iff {u₁ u₂ : List Block} {b : Block} (hL : L.Holds s.field) (h : L.WellFormed s.dbSize)
    (hu : L.used = u₁ ++ b :: u₂) (k : Nat) :
    (∃ m, killedAfter (free b.data) s k = some m ∧ CrashConsistent m s.dbSize) ↔
      SafeAt (.unlink (!u₂.isEmpty) :: insertEdits (L.before b) b (L.behind b)) k := by
  have hx := exec_free h.sound s.dbSize_lt s.field_lt hL hu
  have hbu : b ∈ L.used := by rw [hu]; simp
  have hst := h.stands hL
  have hsplit := L.before_append_behind b
  have hfinal : Consistent {x | x ∈ offsets L.blocks} s.dbSize (Words.after s.field (freeStores L u₁ b u₂)) :=
    ⟨_, holds_freeStores h s.dbSize_lt s.field_lt hL hu, (h.afterFree hbu).sound,
      fun c hc => Layout.offset_afterFree hbu hc⟩
  have hsize := hL.sizes b (Layout.WellFormed.used_mem hbu)
  have hbD := hst.mem b (Layout.WellFormed.used_mem hbu)
  rw [killed_iff_of_exec hx]
  refine crashConsistent_of_judged h.headers_file hx (Judges.of_take ?_ hfinal k)
  have hs := h.sound.perm (L.perm_link hu)
  obtain ⟨fr, us⟩ := L
  obtain rfl : us = u₁ ++ b :: u₂ := hu
  obtain ⟨hj, hun⟩ := judges_unlinkUsed hst
  exact hj.append (judges_insertStores (hsplit ▸ hun) hs hbD (by rw [unlink_dataSize (Or.inr rfl)]; exact hsize))

private theorem alloc_whole_iff {n : Nat} {l₁ l₂ : List Block} {c : Block} (hL : L.Holds s.field)
    (h : L.WellFormed s.dbSize) (hfree : L.free = l₁ ++ c :: l₂) (hsmall : ∀ x ∈ l₁, x.dataSize < n) (hn : n ≤ c.dataSize)
    (hz : c.dataSize < n + 124) (k : Nat) :
    (∃ m, killedAfter (alloc n) s k = some m ∧ CrashConsistent m s.dbSize) ↔
      SafeAt [.unlink !l₂.isEmpty, .push !L.used.isEmpty] k := by
  have hx := exec_alloc_whole h.sound s.dbSize_lt s.field_lt hL hfree hsmall hn hz
  have hst := h.stands hL
  have hs := (h.afterWhole hfree).sound
  have hperm : (Layout.blocks ⟨l₁ ++ l₂, c :: L.used⟩).Perm L.blocks := by
    rw [Layout.blocks, Layout.blocks, hfree, List.append_assoc, List.append_assoc]
    refine List.Perm.append_left l₁ ?_
    exact List.perm_middle
  have hfinal : Consistent {x | x ∈ offsets L.blocks} s.dbSize (Words.after s.field (wholeStores l₁ c l₂ L.used)) :=
    ⟨_, holds_wholeStores h.sound hL hfree, hs, fun b hb => hst.mem b (hperm.mem_iff.1 hb)⟩
  rw [killed_iff_of_exec hx]
  refine crashConsistent_of_judged h.headers_file hx (Judges.of_take ?_ hfinal k)
  obtain ⟨fr, us⟩ := L
  obtain rfl : fr = l₁ ++ c :: l₂ := hfree
  obtain ⟨hj, hun⟩ := judges_unlinkFree hst
  exact hj.append (judges_push hun hs)

/-! ### The `alloc` that splits a block -/

/-- The prefixes up to the insertion of the rest, and what they leave. -/
private theorem judges_restStores {n : Nat} {l₁ l₂ : List Block} {c : Block} (hL : L.Holds s.field)
    (h : L.WellFormed s.dbSize) (hfree : L.free = l₁ ++ c :: l₂) (hz : n + 124 ≤ c.dataSize) :
    Judges {x | x ∈ (c.rest n).offset :: offsets L.blocks} s.dbSize s.field
        (unlinkStores .nextFreeBlockOffset (offsets l₁) c.offset (offsets l₂) ++
          [(.dataSize (c.rest n).offset, (c.rest n).dataSize)]) [.unlink !l₂.isEmpty, .single] ∧
      Layout.Stands {x | x ∈ (c.rest n).offset :: offsets L.blocks} s.dbSize
        (Words.after s.field (unlinkStores .nextFreeBlockOffset (offsets l₁) c.offset (offsets l₂) ++
          [(.dataSize (c.rest n).offset, (c.rest n).dataSize)])) ⟨l₁ ++ l₂, L.used⟩ := by
  have hins := insertable_of_split h s.dbSize_lt s.field_lt hL hfree hz
  have hst : L.Stands {x | x ∈ (c.rest n).offset :: offsets L.blocks} s.dbSize s.field :=
    ⟨hL, h.sound, fun b hb => List.mem_cons_of_mem _ (List.mem_map_of_mem hb)⟩
  obtain ⟨fr, us⟩ := L
  obtain rfl : fr = l₁ ++ c :: l₂ := hfree
  obtain ⟨hj, hun⟩ := judges_unlinkFree hst
  refine ⟨hj.append (judges_single ⟨_, hun⟩ _), ?_⟩
  exact hst.sublist hins.holds (List.Sublist.append_left (List.sublist_cons_self c l₂) l₁) (List.Sublist.refl us)

private theorem alloc_split_iff {n : Nat} {l₁ l₂ : List Block} {c : Block} (hL : L.Holds s.field)
    (h : L.WellFormed s.dbSize) (hfree : L.free = l₁ ++ c :: l₂) (hsmall : ∀ x ∈ l₁, x.dataSize < n)
    (hz : n + 124 ≤ c.dataSize) (hne : l₁ ++ l₂ ≠ []) (k : Nat) :
    (∃ m, killedAfter (alloc n) s k = some m ∧ CrashConsistent m s.dbSize) ↔
      SafeAt [.unlink !l₂.isEmpty, .single, .link !l₂.isEmpty, .single, .push !L.used.isEmpty] k := by
  have hx := exec_alloc_split h s.dbSize_lt s.field_lt hL hfree hsmall hz
  have hc : c ∈ L.free := by rw [hfree]; simp
  have hD := headers_rest h.sound s.dbSize_lt s.field_lt hc hz
  have hins := insertable_of_split h s.dbSize_lt s.field_lt hL hfree hz
  have hwf := h.afterSplit hfree hz
  have hs : Layout.Sound ⟨l₁ ++ c.rest n :: l₂, ⟨c.offset, n⟩ :: L.used⟩ s.dbSize := hwf.sound
  have hs₁ : Layout.Sound ⟨l₁ ++ c.rest n :: l₂, L.used⟩ s.dbSize :=
    hs.sublist (List.Sublist.refl _) (List.sublist_cons_self ..)
  obtain ⟨hj, hst⟩ := judges_restStores hL h hfree hz
  obtain ⟨hj₂, hst₂⟩ := judges_link hst hs₁ (List.mem_cons_self ..) hins.size
  have hout : c.offset ∉ offsets (Layout.blocks ⟨l₁ ++ c.rest n :: l₂, L.used⟩) := by
    have hnd := hwf.distinct.nodup
    simp only [Layout.afterSplit, Layout.blocks, offsets, List.map_append, List.map_cons] at hnd ⊢
    exact (List.nodup_cons.1 (List.nodup_middle.1 hnd)).1
  have hleak : ∀ w ∈ [(Field.dataSize c.offset, n)],
      ¬ w.1.On {x | x ∈ offsets (Layout.blocks ⟨l₁ ++ c.rest n :: l₂, L.used⟩)} := by
    intro w hw
    rw [List.mem_singleton.1 hw]
    exact hout
  have hst₃ := hst₂.leaked hleak
  have hws : splitStores l₁ c n l₂ L.used = (unlinkStores .nextFreeBlockOffset (offsets l₁) c.offset (offsets l₂) ++
      [(.dataSize (c.rest n).offset, (c.rest n).dataSize)]) ++ (linkStores (offsets l₁) (c.rest n).offset (offsets l₂) ++
        ([(.dataSize c.offset, n)] ++ pushStores c.offset (offsets L.used))) := by
    simp [splitStores, cutStores, restStores, insertStores, hne, h.mergeStores_rest hfree hz]
  have hfinal : Consistent {x | x ∈ (c.rest n).offset :: offsets L.blocks} s.dbSize
      (Words.after s.field (splitStores l₁ c n l₂ L.used)) := by
    refine ⟨_, holds_splitStores h s.dbSize_lt s.field_lt hL hfree hz (fun e => absurd e hne), hs, fun b hb => ?_⟩
    have hb' : b = ⟨c.offset, n⟩ ∨ b ∈ Layout.blocks ⟨l₁ ++ c.rest n :: l₂, L.used⟩ := by
      simp only [Layout.afterSplit, Layout.blocks, List.mem_append, List.mem_cons] at hb ⊢
      tauto
    rcases hb' with rfl | hb'
    · exact List.mem_cons_of_mem _ (List.mem_map.2 ⟨c, Layout.WellFormed.free_mem hc, rfl⟩)
    · exact hst₂.mem b hb'
  rw [killed_iff_of_exec hx]
  refine crashConsistent_of_judged hD hx (Judges.of_take ?_ hfinal k)
  rw [hws]
  exact hj.append (hj₂.append ((judges_single ⟨_, hst₂⟩ _).append (judges_push (b := ⟨c.offset, n⟩) hst₃ hs)))

private theorem splitStores_only (c : Block) (n : Nat) (u : List Block) : splitStores [] c n [] u =
    [(.nextFreeBlockOffset, nullOffset), (.prevBlockOffset c.offset, nullOffset), (.nextBlockOffset c.offset, nullOffset),
      (.dataSize (c.rest n).offset, (c.rest n).dataSize), (.nextFreeBlockOffset, (c.rest n).offset)] ++
      ((.dataSize c.offset, n) :: pushStores c.offset (offsets u)) := rfl

private theorem exec_splitOnly {n : Nat} {c : Block} (hL : L.Holds s.field) (h : L.WellFormed s.dbSize)
    (hfree : L.free = [c]) (hz : n + 124 ≤ c.dataSize) :
    Exec {x | x ∈ (c.rest n).offset :: offsets L.blocks} s.dbSize s.field (alloc n) (some c.data)
      (splitStores [] c n [] L.used) :=
  have hfree' : L.free = [] ++ c :: [] := hfree
  exec_alloc_split h s.dbSize_lt s.field_lt hL hfree' (by simp) hz

/-- A split of the only free block, up to the store that makes the rest the free list. -/
private theorem alloc_splitOnly_early {n : Nat} {c : Block} (hL : L.Holds s.field) (h : L.WellFormed s.dbSize)
    (hfree : L.free = [c]) (hz : n + 124 ≤ c.dataSize) {k : Nat} (hk : k < 5) :
    CrashConsistent (s.after ((splitStores [] c n [] L.used).take k)).base s.dbSize := by
  have hc : c ∈ L.free := by rw [hfree]; simp
  have hD := headers_rest h.sound s.dbSize_lt s.field_lt hc hz
  have hx := exec_splitOnly hL h hfree hz
  have hfree' : L.free = [] ++ c :: [] := hfree
  obtain ⟨hj, hst⟩ := judges_restStores hL h hfree' hz
  have hk' := (hj.append (judges_single ⟨_, hst⟩ (.nextFreeBlockOffset, (c.rest n).offset))).judged k hk
  have htake : (splitStores [] c n [] L.used).take k = List.take k (unlinkStores .nextFreeBlockOffset (offsets []) c.offset
      (offsets []) ++ [(.dataSize (c.rest n).offset, (c.rest n).dataSize)] ++
        [(.nextFreeBlockOffset, (c.rest n).offset)]) := by
    rw [splitStores_only, List.take_append_of_le_length (Nat.le_of_lt hk)]
    rfl
  rw [← htake] at hk'
  exact (crashConsistent_of_judged hD hx hk').2 (by rcases k with _ | _ | _ | _ | _ | k <;> first | decide | omega)

/-! ### The split of the only free block -/

theorem RestListed.congr {m m' : Mem} {n : Nat} {c : Block} {l : List Block} (h : RestListed m c n l)
    (hm : ∀ a, c.offset ≤ a → a < (c.rest n).offset + 16 → m' a = m a) : RestListed m' c n l := by
  have hcr : c.offset ≤ (c.rest n).offset := by simp only [Block.rest, sizeofBlock]; omega
  have hlink : ∀ x ∈ offsets (c.rest n :: l), c.offset ≤ x ∧ x ≤ (c.rest n).offset := by
    intro x hx
    obtain ⟨b, hb, rfl⟩ := List.mem_map.1 hx
    rcases List.mem_cons.1 hb with rfl | hb
    · exact ⟨hcr, Nat.le_refl _⟩
    · have := h.inside b hb
      have := b.offset_lt_stop
      omega
  refine ⟨h.links.congr (fun x hx => ?_) (fun x hx => ?_), fun b hb => ?_, h.apart, h.inside⟩
  · have := hlink x hx
    exact word_congr fun i hi => hm _ (by simp only [Field.address]; omega) (by simp only [Field.address]; omega)
  · have := hlink x hx
    exact word_congr fun i hi => hm _ (by simp only [Field.address]; omega) (by simp only [Field.address]; omega)
  · have := h.inside b hb
    have := b.offset_lt_stop
    rw [← h.sizes b hb]
    exact word_congr fun i hi => hm _ (by simp only [Field.address]; omega) (by simp only [Field.address]; omega)

private theorem restListed_nil {m : Mem} {n : Nat} {c : Block} : RestListed m c n [] ↔
    word m (Field.prevBlockOffset (c.rest n).offset).address = nullOffset ∧
      word m (Field.nextBlockOffset (c.rest n).offset).address = nullOffset :=
  ⟨fun h => ⟨h.links.1, h.links.2.1⟩,
    fun h => ⟨⟨h.1, h.2, trivial⟩, by simp, List.Pairwise.nil, by simp⟩⟩

/-- The rest of `c` is the head of the free list, and the used list holds the blocks `us`. -/
private structure RestIsHead (m : Mem) (c : Block) (n : Nat) (us : List Block) : Prop where
  head : word m Field.nextFreeBlockOffset.address = (c.rest n).offset
  size : word m (Field.dataSize (c.rest n).offset).address = (c.rest n).dataSize
  used : IsList (fun f => word m f.address) .nextUsedBlockOffset (offsets us)
  sizes : ∀ b ∈ us, word m (Field.dataSize b.offset).address = b.dataSize

private theorem mem_usedNow {n : Nat} {c x : Block} {us : List Block}
    (hus : us = L.used ∨ us = ⟨c.offset, n⟩ :: L.used) (hx : x ∈ us) :
    x ∈ L.used ∨ (x = ⟨c.offset, n⟩ ∧ us ≠ L.used) := by
  rcases hus with rfl | rfl
  · exact Or.inl hx
  · rcases List.mem_cons.1 hx with rfl | hx
    · exact Or.inr ⟨rfl, List.cons_ne_self _ _⟩
    · exact Or.inl hx

private theorem restListed_of_holds {m : Mem} {n : Nat} {c : Block} {us : List Block} (h : L.WellFormed s.dbSize)
    (hfree : L.free = [c]) (hz : n + 124 ≤ c.dataSize) (hm : RestIsHead m c n us)
    (hus : us = L.used ∨ us = ⟨c.offset, n⟩ :: L.used) {L' : Layout} (hL' : L'.Holds (fun f => word m f.address))
    (hs : L'.Sound s.dbSize) : ∃ l, RestListed m c n l ∧ (us ≠ L.used → l = []) := by
  have hc : c ∈ L.free := by rw [hfree]; simp
  have hstop : (c.rest n).stop = c.stop := by simp only [Block.rest, Block.stop, sizeofBlock]; omega
  have hro : (c.rest n).offset = c.offset + 24 + n := rfl
  obtain ⟨fr, us'⟩ := L'
  obtain rfl : us' = us := by
    have hus₀ : nullOffset ∉ offsets us := by
      intro h0
      obtain ⟨x, hx, e⟩ := List.mem_map.1 h0
      rcases mem_usedNow hus hx with hx | ⟨rfl, -⟩
      · exact h.distinct.used_ne_null (List.mem_map.2 ⟨x, hx, e⟩)
      · exact h.distinct.free_ne_null (List.mem_map.2 ⟨c, hc, e⟩)
    have hus'₀ : nullOffset ∉ offsets us' := hs.distinct.used_ne_null
    exact eq_of_offsets (G := fun f => word m f.address) (hL'.used.unique hm.used hus'₀ hus₀)
      (fun b hb => hL'.sizes b (List.mem_append_right _ hb)) hm.sizes
  have hf := hL'.free
  rcases fr with _ | ⟨r, l⟩
  · have hnull : (c.rest n).offset = nullOffset := hm.head.symm.trans hf.head
    simp only [hro, nullOffset] at hnull
    omega
  obtain rfl : r = c.rest n := by
    have ho : r.offset = (c.rest n).offset := hf.head.symm.trans hm.head
    have hrz : r.dataSize = (c.rest n).dataSize := by
      rw [← hL'.sizes r (List.mem_cons_self ..), ← hm.size, ho]
    rw [show r = ⟨r.offset, r.dataSize⟩ from rfl, ho, hrz]
  -- a further free block lies apart from the rest and from the used blocks, so in the part of `c` in front of the rest
  have hap := hs.apart
  simp only [Layout.blocks, List.cons_append, List.pairwise_cons, List.pairwise_append, List.mem_append] at hap
  have hin : ∀ d ∈ l, c.offset ≤ d.offset ∧ d.stop ≤ (c.rest n).offset := by
    intro d hd
    have hdb := hs.inside d (by simp [Layout.blocks, hd])
    have hds := d.offset_lt_stop
    obtain ⟨b, hb, hbd, hdb'⟩ := (h.tiled.covers (x := d.offset)).2 ⟨hdb.1, by omega⟩
    obtain rfl : b = c := by
      simp only [Layout.blocks, hfree, List.cons_append, List.nil_append, List.mem_cons] at hb
      refine hb.resolve_right fun hb => ?_
      have hbus : b ∈ us' := by
        rcases hus with rfl | rfl
        · exact hb
        · exact List.mem_cons_of_mem _ hb
      rcases hap.2.2.2 d hd b hbus with e | e <;> omega
    rcases hap.1 d (Or.inl hd) with e | e <;> omega
  refine ⟨l, ⟨hf.seg, fun b hb => hL'.sizes b (by simp [Layout.blocks, hb]), hap.2.1, hin⟩, fun hne => ?_⟩
  rcases l with _ | ⟨d, l⟩
  · rfl
  · have hcus : (⟨c.offset, n⟩ : Block) ∈ us' := by
      rw [hus.resolve_left hne]
      exact List.mem_cons_self ..
    have := hin d (List.mem_cons_self ..)
    have := d.offset_lt_stop
    rcases hap.2.2.2 d (List.mem_cons_self ..) _ hcus with e | e <;> simp only [Block.stop, sizeofBlock] at * <;> omega

private theorem crashConsistent_of_restListed {m : Mem} {n : Nat} {c : Block} {us l : List Block}
    (h : L.WellFormed s.dbSize) (hfree : L.free = [c]) (hz : n + 124 ≤ c.dataSize) (hm : RestIsHead m c n us)
    (hus : us = L.used ∨ us = ⟨c.offset, n⟩ :: L.used) (hl : RestListed m c n l) (hnil : us ≠ L.used → l = []) :
    CrashConsistent m s.dbSize := by
  have hc : c ∈ L.free := by rw [hfree]; simp
  have hcb := h.tiled.bounds (Layout.WellFormed.free_mem hc)
  have hstop : (c.rest n).stop = c.stop := by simp only [Block.rest, Block.stop, sizeofBlock]; omega
  have hro : (c.rest n).offset = c.offset + 24 + n := rfl
  have hpair := List.pairwise_append.1 h.tiled.pairwise
  -- a part of `c` that ends in front of the rest, or is the rest, shares no byte with the blocks that were used
  have hcu : ∀ x ∈ L.used, ∀ d : Block, c.offset ≤ d.offset → d.stop ≤ c.stop → d.Apart x := by
    intro x hx d h₁ h₂
    rcases hpair.2.2 c hc x hx with e | e
    · exact Or.inl (by omega)
    · exact Or.inr (by omega)
  have hfront : ∀ d ∈ l, d.stop ≤ c.stop := fun d hd => by
    have := (hl.inside d hd).2
    simp only [Block.stop, sizeofBlock] at *
    omega
  have hup : us.Pairwise Block.Apart := by
    rcases hus with rfl | rfl
    · exact hpair.2.1
    · refine List.pairwise_cons.2 ⟨fun x hx => hcu x hx _ (Nat.le_refl _) ?_, hpair.2.1⟩
      simp only [Block.stop, sizeofBlock]
      omega
  refine ⟨⟨c.rest n :: l, us⟩, ⟨⟨hm.head, hl.links⟩, hm.used, fun b hb => ?_⟩, ⟨h.sound.header, ?_, fun b hb => ?_⟩⟩
  · simp only [Layout.blocks, List.cons_append, List.mem_cons, List.mem_append] at hb
    rcases hb with rfl | hb | hb
    · exact hm.size
    · exact hl.sizes b hb
    · exact hm.sizes b hb
  · simp only [Layout.blocks, List.cons_append, List.pairwise_cons, List.pairwise_append, List.mem_append]
    refine ⟨fun x hx => ?_, hl.apart, hup, fun d hd x hx => ?_⟩
    · rcases hx with hx | hx
      · exact Or.inr (hl.inside x hx).2
      · rcases mem_usedNow hus hx with hx | ⟨rfl, -⟩
        · exact hcu x hx _ (by omega) (Nat.le_of_eq hstop)
        · exact Or.inr (Nat.le_of_eq (by simp only [Block.stop, sizeofBlock, hro]))
    · rcases mem_usedNow hus hx with hx | ⟨-, hne⟩
      · exact hcu x hx d (hl.inside d hd).1 (hfront d hd)
      · rw [hnil hne] at hd
        cases hd
  · simp only [Layout.blocks, List.cons_append, List.mem_cons, List.mem_append] at hb
    rcases hb with rfl | hb | hb
    · omega
    · have := hl.inside b hb
      have := hfront b hb
      omega
    · rcases mem_usedNow hus hb with hb | ⟨rfl, -⟩
      · exact h.tiled.bounds (Layout.WellFormed.used_mem hb)
      · simp only [Block.stop, sizeofBlock] at *
        omega

/-- In a region that the other stores do not reach only the stores that `p` selects count. -/
private theorem applyStores_filter {lo hi : Nat} {p : Field × Nat → Bool} {ws : List (Field × Nat)}
    (hp : ∀ w ∈ ws, p w = false → w.1.address + 8 ≤ lo ∨ hi ≤ w.1.address) {m m' : Mem}
    (hm : ∀ a, lo ≤ a → a < hi → m a = m' a) :
    ∀ a, lo ≤ a → a < hi → applyStores m ws a = applyStores m' (ws.filter p) a := by
  induction ws generalizing m m' with
  | nil => exact hm
  | cons w ws ih =>
    have hp' : ∀ x ∈ ws, p x = false → x.1.address + 8 ≤ lo ∨ hi ≤ x.1.address :=
      fun x hx => hp x (List.mem_cons_of_mem _ hx)
    cases hw : p w with
    | true =>
      rw [List.filter_cons_of_pos hw]
      refine ih hp' fun a h₁ h₂ => ?_
      simp only [setWord, setBytes, hm a h₁ h₂]
    | false =>
      have hout := hp w (List.mem_cons_self ..) hw
      rw [List.filter_cons_of_neg (by simp [hw])]
      refine ih hp' fun a h₁ h₂ => ?_
      show setWord m w.1.address w.2 a = m' a
      rw [setWord_outside _ _ _ (by omega)]
      exact hm a h₁ h₂

private theorem mem_window {n k : Nat} {c : Block} {u : List Block} (hk : k < 7 ∨ (u = [] ∧ k < 9)) {w : Field × Nat}
    (hw : w ∈ (splitStores [] c n [] u).take k) :
    w.1 = .nextFreeBlockOffset ∨ w.1 = .prevBlockOffset c.offset ∨ w.1 = .nextBlockOffset c.offset ∨
      w.1 = .dataSize (c.rest n).offset ∨ w.1 = .dataSize c.offset := by
  rw [splitStores_only] at hw
  rcases hk with hk | ⟨rfl, hk⟩
  · have hw' := (List.take_subset_take_left _ (Nat.le_of_lt_succ hk)) hw
    simp only [List.cons_append, List.nil_append, List.take_succ_cons, List.take_zero, List.mem_cons,
      List.not_mem_nil, or_false] at hw'
    rcases hw' with rfl | rfl | rfl | rfl | rfl | rfl <;> simp
  · have hw' := (List.take_subset_take_left _ (Nat.le_of_lt_succ hk)) hw
    simp only [offsets, List.map_nil, pushStores, if_true, List.cons_append, List.nil_append, List.take_succ_cons,
      List.take_zero, List.mem_cons, List.not_mem_nil, or_false] at hw'
    rcases hw' with rfl | rfl | rfl | rfl | rfl | rfl | rfl | rfl <;> simp

/-- Before the used list is changed the bytes in front of the rest are those of `headerCleared`. -/
private theorem window_bytes {n k : Nat} {c : Block} {u : List Block} (hc : 16 ≤ c.offset)
    (hk : k < 7 ∨ (u = [] ∧ k < 9)) (h5 : 5 ≤ k) :
    ∀ a, c.offset ≤ a → a < (c.rest n).offset + 16 →
      applyStores s.base ((splitStores [] c n [] u).take k) a = headerCleared s c n k a := by
  have hne : (c.rest n).offset ≠ c.offset := by simp only [Block.rest, sizeofBlock]; omega
  let p : Field × Nat → Bool := fun w =>
    w.1 = .prevBlockOffset c.offset ∨ w.1 = .nextBlockOffset c.offset ∨ w.1 = .dataSize c.offset
  have hfilter : ((splitStores [] c n [] u).take k).filter p =
      [(.prevBlockOffset c.offset, nullOffset), (.nextBlockOffset c.offset, nullOffset), (.dataSize c.offset, n),
        (.prevBlockOffset c.offset, nullOffset), (.nextBlockOffset c.offset, nullOffset)].take (k - 3) := by
    rw [splitStores_only]
    rcases hk with hk | ⟨rfl, hk⟩
    · obtain rfl | rfl : k = 5 ∨ k = 6 := by omega
      all_goals simp [p, hne]
    · obtain rfl | rfl | rfl | rfl : k = 5 ∨ k = 6 ∨ k = 7 ∨ k = 8 := by omega
      all_goals simp [p, hne, pushStores]
  rw [headerCleared, ← hfilter]
  refine applyStores_filter (fun w hw hpw => ?_) (fun _ _ _ => rfl)
  have hpw' : ¬ (w.1 = .prevBlockOffset c.offset ∨ w.1 = .nextBlockOffset c.offset ∨ w.1 = .dataSize c.offset) := by
    simpa [p] using hpw
  rcases mem_window hk hw with e | e | e | e | e
  · rw [e]
    simp only [Field.address]
    omega
  · exact absurd (Or.inl e) hpw'
  · exact absurd (Or.inr (Or.inl e)) hpw'
  · rw [e]
    exact Or.inr (Nat.le_refl _)
  · exact absurd (Or.inr (Or.inr e)) hpw'

private theorem restHead_of_le {n k : Nat} {c : Block} (hL : L.Holds s.field) (h : L.WellFormed s.dbSize)
    (hfree : L.free = [c]) (hz : n + 124 ≤ c.dataSize) (h5 : 5 ≤ k) :
    (s.after ((splitStores [] c n [] L.used).take k)).field .nextFreeBlockOffset = (c.rest n).offset ∧
      (s.after ((splitStores [] c n [] L.used).take k)).field (.dataSize (c.rest n).offset) = (c.rest n).dataSize := by
  have hc : c ∈ L.free := by rw [hfree]; simp
  have hD := headers_rest h.sound s.dbSize_lt s.field_lt hc hz
  have hx := exec_splitOnly hL h hfree hz
  have hF := agrees_take hD hx k
  have hne : (c.rest n).offset ≠ c.offset := by simp only [Block.rest, sizeofBlock]; omega
  have hr : (Field.dataSize (c.rest n).offset).On {x | x ∈ (c.rest n).offset :: offsets L.blocks} := List.mem_cons_self ..
  -- the later stores go to other words
  have hlater : ∀ w ∈ ((.dataSize c.offset, n) :: pushStores c.offset (offsets L.used)).take (k - 5),
      w.1 ≠ .nextFreeBlockOffset ∧ w.1 ≠ .dataSize (c.rest n).offset := by
    intro w hw
    have hw' := List.mem_of_mem_take hw
    have hpush : ∀ x ∈ pushStores c.offset (offsets L.used),
        x.1 ≠ .nextFreeBlockOffset ∧ x.1 ≠ .dataSize (c.rest n).offset := by
      intro x hx
      unfold pushStores at hx
      split at hx
      · simp only [List.nil_append, List.mem_cons, List.not_mem_nil, or_false] at hx
        rcases hx with rfl | rfl | rfl <;> simp
      · simp only [List.cons_append, List.nil_append, List.mem_cons, List.not_mem_nil, or_false] at hx
        rcases hx with rfl | rfl | rfl | rfl <;> simp
    rcases List.mem_cons.1 hw' with rfl | hw'
    · simpa using Ne.symm hne
    · exact hpush w hw'
  rw [hF .nextFreeBlockOffset trivial, hF _ hr, splitStores_only, List.take_append, List.take_of_length_le h5,
    Words.after_append]
  refine ⟨?_, ?_⟩
  · exact (Words.after_of_forall_ne _ fun w hw => (hlater w hw).1).trans (by simp)
  · exact (Words.after_of_forall_ne _ fun w hw => (hlater w hw).2).trans (by simp)

private theorem restIsHead_window {n k : Nat} {c : Block} (hL : L.Holds s.field) (h : L.WellFormed s.dbSize)
    (hfree : L.free = [c]) (hz : n + 124 ≤ c.dataSize) (hk : k < 7 ∨ (L.used = [] ∧ k < 9)) (h5 : 5 ≤ k) :
    RestIsHead (s.after ((splitStores [] c n [] L.used).take k)).base c n L.used := by
  have hc : c ∈ L.free := by rw [hfree]; simp
  have hD := headers_rest h.sound s.dbSize_lt s.field_lt hc hz
  have hx := exec_splitOnly hL h hfree hz
  have hF := agrees_take hD hx k
  obtain ⟨hhead, hsize⟩ := restHead_of_le hL h hfree hz h5
  have hcu : ∀ b ∈ L.used, b.offset ≠ c.offset ∧ b.offset ≠ (c.rest n).offset := by
    intro b hb
    have := b.offset_lt_stop
    rcases (List.pairwise_append.1 h.tiled.pairwise).2.2 c hc b hb with e | e <;>
      simp only [Block.rest, Block.stop, sizeofBlock] at * <;> omega
  -- no store so far goes to the used list
  have hkeep : ∀ f : Field, f.On {x | x ∈ (c.rest n).offset :: offsets L.blocks} → f ≠ .nextFreeBlockOffset →
      f ≠ .prevBlockOffset c.offset → f ≠ .nextBlockOffset c.offset → f ≠ .dataSize (c.rest n).offset →
      f ≠ .dataSize c.offset → (s.after ((splitStores [] c n [] L.used).take k)).field f = s.field f := by
    intro f hf h₁ h₂ h₃ h₄ h₅
    rw [hF f hf]
    refine Words.after_of_forall_ne _ fun w hw e => ?_
    rcases mem_window hk hw with e' | e' | e' | e' | e' <;> rw [e] at e'
    exacts [h₁ e', h₂ e', h₃ e', h₄ e', h₅ e']
  have hmem : ∀ b ∈ L.used, b.offset ∈ (c.rest n).offset :: offsets L.blocks := fun b hb =>
    List.mem_cons_of_mem _ (List.mem_map_of_mem (Layout.WellFormed.used_mem hb))
  refine ⟨hhead, hsize, hL.used.congr ?_ (fun x hx => ?_) (fun x hx => ?_), fun b hb => ?_⟩
  · exact hkeep _ trivial (by simp) (by simp) (by simp) (by simp) (by simp)
  · obtain ⟨b, hb, rfl⟩ := List.mem_map.1 hx
    exact hkeep (.prevBlockOffset b.offset) (hmem b hb) (by simp) (by simpa using (hcu b hb).1) (by simp) (by simp)
      (by simp)
  · obtain ⟨b, hb, rfl⟩ := List.mem_map.1 hx
    exact hkeep (.nextBlockOffset b.offset) (hmem b hb) (by simp) (by simp) (by simpa using (hcu b hb).1) (by simp)
      (by simp)
  · rw [← hL.sizes b (Layout.WellFormed.used_mem hb)]
    exact hkeep (.dataSize b.offset) (hmem b hb) (by simp) (by simp) (by simp) (by simpa using (hcu b hb).2)
      (by simpa using (hcu b hb).1)

private theorem window_iff {n k : Nat} {c : Block} (hL : L.Holds s.field) (h : L.WellFormed s.dbSize)
    (hfree : L.free = [c]) (hz : n + 124 ≤ c.dataSize) (hk : k < 7 ∨ (L.used = [] ∧ k < 9)) (h5 : 5 ≤ k) :
    CrashConsistent (s.after ((splitStores [] c n [] L.used).take k)).base s.dbSize ↔
      ∃ l, RestListed (headerCleared s c n k) c n l := by
  have hc : c ∈ L.free := by rw [hfree]; simp
  have h16 : 16 ≤ c.offset := (h.tiled.bounds (Layout.WellFormed.free_mem hc)).1
  have hm := restIsHead_window hL h hfree hz hk h5
  have hbytes := window_bytes (s := s) (n := n) (u := L.used) h16 hk h5
  constructor
  · rintro ⟨L', hL', hs⟩
    obtain ⟨l, hl, -⟩ := restListed_of_holds h hfree hz hm (Or.inl rfl) hL' hs
    exact ⟨l, hl.congr fun a h₁ h₂ => (hbytes a h₁ h₂).symm⟩
  · rintro ⟨l, hl⟩
    exact crashConsistent_of_restListed h hfree hz hm (Or.inl rfl) (hl.congr hbytes) (fun e => absurd rfl e)

/-- The links of the rest are the old bytes, whatever is stored to the header of `c`. -/
private theorem restListed_headerCleared {n : Nat} {c : Block} (k : Nat) : RestListed (headerCleared s c n k) c n [] ↔
    s.field (.prevBlockOffset (c.rest n).offset) = nullOffset ∧
      s.field (.nextBlockOffset (c.rest n).offset) = nullOffset := by
  have hro : (c.rest n).offset = c.offset + 24 + n := rfl
  have hbytes : ∀ a, (c.rest n).offset ≤ a → a < (c.rest n).offset + 16 → headerCleared s c n k a = s.base a := by
    intro a h₁ h₂
    refine (applyStores_filter (p := fun _ => false) (fun w hw _ => ?_) (fun _ _ _ => rfl) a h₁ h₂).trans ?_
    · have hw' := List.mem_of_mem_take hw
      simp only [List.mem_cons, List.not_mem_nil, or_false] at hw'
      rcases hw' with rfl | rfl | rfl | rfl | rfl <;> simp only [Field.address] <;> omega
    · rw [List.filter_false]
      rfl
  have hprev : word (headerCleared s c n k) (Field.prevBlockOffset (c.rest n).offset).address =
      s.field (.prevBlockOffset (c.rest n).offset) :=
    word_congr fun i hi => hbytes _ (by simp only [Field.address]; omega) (by simp only [Field.address]; omega)
  have hnext : word (headerCleared s c n k) (Field.nextBlockOffset (c.rest n).offset).address =
      s.field (.nextBlockOffset (c.rest n).offset) :=
    word_congr fun i hi => hbytes _ (by simp only [Field.address]; omega) (by simp only [Field.address]; omega)
  rw [restListed_nil, hprev, hnext]

private theorem full_iff {n : Nat} {c : Block} (hL : L.Holds s.field) (h : L.WellFormed s.dbSize)
    (hfree : L.free = [c]) (hz : n + 124 ≤ c.dataSize) (k : Nat) :
    CrashConsistent (s.after (splitStores [] c n [] L.used)).base s.dbSize ↔
      RestListed (headerCleared s c n k) c n [] := by
  have hw := splitOnly_after hL h hfree hz
  have hm : RestIsHead (s.after (splitStores [] c n [] L.used)).base c n (⟨c.offset, n⟩ :: L.used) :=
    ⟨hw.freeHead, hw.sizes _ (List.mem_cons_self ..), hw.used, fun b hb => hw.sizes b (List.mem_cons_of_mem _ hb)⟩
  have hne : (⟨c.offset, n⟩ :: L.used : List Block) ≠ L.used := List.cons_ne_self _ _
  have hlinks : RestListed (s.after (splitStores [] c n [] L.used)).base c n [] ↔
      RestListed (headerCleared s c n k) c n [] := by
    rw [restListed_nil, restListed_headerCleared]
    exact and_congr (by rw [← hw.prev]; rfl) (by rw [← hw.next]; rfl)
  rw [← hlinks]
  constructor
  · rintro ⟨L', hL', hs⟩
    obtain ⟨l, hl, hnil⟩ := restListed_of_holds h hfree hz hm (Or.inr rfl) hL' hs
    rwa [hnil hne] at hl
  · intro hl
    exact crashConsistent_of_restListed h hfree hz hm (Or.inr rfl) hl fun _ => rfl

/-- Between the first and the last store to the used list its head has a predecessor. -/
private theorem not_crashConsistent_push {n k : Nat} {c b : Block} {us : List Block} (hL : L.Holds s.field)
    (h : L.WellFormed s.dbSize) (hfree : L.free = [c]) (hz : n + 124 ≤ c.dataSize) (hu : L.used = b :: us) (h7 : 7 ≤ k)
    (h9 : k ≤ 9) : ¬ CrashConsistent (s.after ((splitStores [] c n [] L.used).take k)).base s.dbSize := by
  have hc : c ∈ L.free := by rw [hfree]; simp
  have hb : b ∈ L.used := by rw [hu]; simp
  have hD := headers_rest h.sound s.dbSize_lt s.field_lt hc hz
  have hx := exec_splitOnly hL h hfree hz
  have hbc : b.offset ≠ c.offset := fun e =>
    h.distinct.disjoint _ (List.mem_map_of_mem hc) (e ▸ List.mem_map_of_mem hb)
  have hb₀ : b.offset ≠ nullOffset := fun e => h.distinct.used_ne_null (e ▸ List.mem_map_of_mem hb)
  have hc₀ : c.offset ≠ nullOffset := fun e => h.distinct.free_ne_null (e ▸ List.mem_map_of_mem hc)
  have hhead : s.field .nextUsedBlockOffset = b.offset := by
    have := hL.used.head
    rwa [hu] at this
  obtain ⟨j, rfl⟩ : ∃ j, k = 6 + j := ⟨k - 6, by omega⟩
  have htake : (splitStores [] c n [] L.used).take (6 + j) =
      (splitStores [] c n [] L.used).take 6 ++ (pushStores c.offset (b.offset :: offsets us)).take j := by
    rw [splitStores_only, hu]
    rw [List.take_add]
    rfl
  have hbad : Inconsistent {x | x ∈ (c.rest n).offset :: offsets L.blocks} s.dbSize
      (Words.after s.field ((splitStores [] c n [] L.used).take (6 + j))) := by
    rw [htake, Words.after_append]
    refine inconsistent_push ?_ ?_ hbc hc₀ hb₀ (by omega) (by omega)
    · rw [← hhead]
      refine Words.after_of_forall_ne _ fun w hw e => ?_
      rcases mem_window (Or.inl (show 6 < 7 by omega)) hw with e' | e' | e' | e' | e' <;> rw [e] at e' <;>
        exact absurd e' (by simp)
    · exact List.mem_cons_of_mem _ (List.mem_map_of_mem (Layout.WellFormed.used_mem hb))
  exact (crashConsistent_of_judged hD hx (hbad.judged id)).1

private theorem alloc_splitOnly_iff {n : Nat} {c : Block} (hL : L.Holds s.field) (h : L.WellFormed s.dbSize)
    (hfree : L.free = [c]) (hz : n + 124 ≤ c.dataSize) (k : Nat) :
    (∃ m, killedAfter (alloc n) s k = some m ∧ CrashConsistent m s.dbSize) ↔
      SafeAt [.unlink false, .single, .single, .single, .push !L.used.isEmpty] k ∧ (5 ≤ k →
        ∃ l, RestListed (headerCleared s c n k) c n l ∧
          (stores [.unlink false, .single, .single, .single, .push !L.used.isEmpty] ≤ k → l = [])) := by
  have hx := exec_splitOnly hL h hfree hz
  have hsafe : SafeAt [.unlink false, .single, .single, .single, .push !L.used.isEmpty] k ↔
      ¬ (Edit.push !L.used.isEmpty).BadAt (k - 6) := by
    simp [SafeAt, Edit.BadAt, Edit.length, Nat.sub_sub]
  have hstores : stores [.unlink false, .single, .single, .single, .push !L.used.isEmpty] =
      (splitStores [] c n [] L.used).length := by
    rcases hu : L.used with _ | ⟨b, us⟩ <;> rfl
  rw [killed_iff_of_exec hx, hsafe, hstores]
  have hlen : (splitStores [] c n [] L.used).length = if L.used = [] then 9 else 10 := by
    rcases hu : L.used with _ | ⟨b, us⟩ <;> rfl
  rcases Nat.lt_or_ge k 5 with hk | h5
  · refine iff_of_true (alloc_splitOnly_early hL h hfree hz hk) ⟨fun hbad => ?_, fun h5 => absurd h5 (by omega)⟩
    have := hbad.pos_lt.1
    omega
  rcases Nat.lt_or_ge k (splitStores [] c n [] L.used).length with hlt | hge
  · by_cases hwin : k < 7 ∨ (L.used = [] ∧ k < 9)
    · rw [window_iff hL h hfree hz hwin h5]
      constructor
      · rintro ⟨l, hl⟩
        refine ⟨fun hbad => ?_, fun _ => ⟨l, hl, fun hle => absurd hle (by omega)⟩⟩
        rcases hwin with hwin | ⟨hu, -⟩
        · have := hbad.pos_lt.1
          omega
        · rw [hu] at hbad
          exact hbad.elim
      · rintro ⟨-, hl⟩
        obtain ⟨l, hl, -⟩ := hl h5
        exact ⟨l, hl⟩
    · -- the head of the old used list has a predecessor
      obtain ⟨h7, hw⟩ := not_or.1 hwin
      have hu : L.used ≠ [] := fun hu => hw ⟨hu, by rw [hlen, if_pos hu] at hlt; exact hlt⟩
      obtain ⟨b, us, hu⟩ := List.exists_cons_of_ne_nil hu
      rw [hlen, if_neg (by simp [hu])] at hlt
      refine iff_of_false (not_crashConsistent_push hL h hfree hz hu (by omega) (by omega)) fun hs => hs.1 ?_
      rw [hu]
      exact ⟨by omega, by omega⟩
  · rw [List.take_of_length_le hge, full_iff hL h hfree hz k]
    constructor
    · intro hl
      refine ⟨fun hbad => ?_, fun _ => ⟨[], hl, fun _ => rfl⟩⟩
      have := hbad.pos_lt.2
      rcases hu : L.used with _ | ⟨b, us⟩
      · rw [hu] at hbad
        exact hbad.elim
      · rw [hlen, if_neg (by simp [hu])] at hge
        rw [hu] at this
        simp only [Edit.length, List.isEmpty_cons, Bool.not_false, Bool.toNat_true] at this
        omega
    · rintro ⟨-, hl⟩
      obtain ⟨l, hl, hnil⟩ := hl h5
      rwa [hnil hge] at hl

/-! ### Every call -/

private theorem dropWhile_small {n : Nat} {l₁ l₂ : List Block} {c : Block} (hsmall : ∀ x ∈ l₁, x.dataSize < n)
    (hn : n ≤ c.dataSize) : (l₁ ++ c :: l₂).dropWhile (fun b => b.dataSize < n) = c :: l₂ := by
  rw [List.dropWhile_append_of_pos (by simpa using hsmall), List.dropWhile_cons_of_neg (by simpa using hn)]

private theorem alloc_iff {n : Nat} (hL : L.Holds s.field) (h : L.WellFormed s.dbSize) (k : Nat) :
    (∃ m, killedAfter (alloc n) s k = some m ∧ CrashConsistent m s.dbSize) ↔ (Call.alloc n).SafeAt s L k := by
  rcases L.first_fit n with hsmall | ⟨l₁, c, l₂, hfree, hsmall, hn⟩
  · have hedits : (Call.alloc n).edits L = [] := by
      have hnil : L.free.dropWhile (fun b => b.dataSize < n) = [] :=
        List.dropWhile_eq_nil_iff.2 (by simpa using hsmall)
      simp only [Call.edits, hnil]
    have hx := exec_alloc_none h.sound s.dbSize_lt s.field_lt hL hsmall
    rw [killed_iff_of_exec hx, List.take_nil]
    refine iff_of_true ⟨L, hL, h.sound⟩ ⟨by rw [hedits]; trivial, ?_⟩
    rintro n' c hcall hfree hz -
    obtain rfl := Call.alloc.inj hcall
    have := hsmall c (by simp [hfree])
    omega
  · have hdrop : L.free.dropWhile (fun b => b.dataSize < n) = c :: l₂ := by
      rw [hfree]
      exact dropWhile_small hsmall hn
    by_cases hz : n + 124 ≤ c.dataSize
    · by_cases hne : l₁ ++ l₂ = []
      · obtain ⟨rfl, rfl⟩ := List.append_eq_nil_iff.1 hne
        have hedits : (Call.alloc n).edits L = [.unlink false, .single, .single, .single, .push !L.used.isEmpty] := by
          simp only [Call.edits, hdrop, if_pos hz, if_pos (show L.free = [c] from hfree), List.isEmpty_nil, Bool.not_true]
        rw [alloc_splitOnly_iff hL h hfree hz k, Call.SafeAt, hedits]
        refine and_congr_right fun _ => ⟨?_, fun hall => hall n c rfl hfree hz⟩
        rintro hl n' c' hcall hfree' - h5
        obtain rfl := Call.alloc.inj hcall
        obtain rfl : c = c' := by
          rw [hfree] at hfree'
          simpa using hfree'
        exact hl h5
      · have hfree' : L.free ≠ [c] := by
          intro e
          have := congrArg List.length (hfree.symm.trans e)
          simp only [List.length_append, List.length_cons, List.length_nil] at this
          exact hne (List.eq_nil_of_length_eq_zero (by rw [List.length_append]; omega))
        have hedits : (Call.alloc n).edits L =
            [.unlink !l₂.isEmpty, .single, .link !l₂.isEmpty, .single, .push !L.used.isEmpty] := by
          simp only [Call.edits, hdrop, if_pos hz, if_neg hfree']
        rw [alloc_split_iff hL h hfree hsmall hz hne k, Call.SafeAt, hedits]
        refine (and_iff_left ?_).symm
        rintro n' c' - hfree'' - -
        have hcc : c ∈ L.free := by rw [hfree]; simp
        rw [hfree''] at hcc
        exact absurd hfree'' (List.mem_singleton.1 hcc ▸ hfree')
    · have hedits : (Call.alloc n).edits L = [.unlink !l₂.isEmpty, .push !L.used.isEmpty] := by
        simp only [Call.edits, hdrop, if_neg hz]
      rw [alloc_whole_iff hL h hfree hsmall hn (by omega) k, Call.SafeAt, hedits]
      refine (and_iff_left ?_).symm
      rintro n' c' hcall hfree' hz' -
      obtain rfl := Call.alloc.inj hcall
      have hcc : c ∈ L.free := by rw [hfree]; simp
      rw [hfree', List.mem_singleton] at hcc
      exact absurd (hcc ▸ hz') hz

end

/-- For a well formed buffer, a call on it and a kill behind `k` of the stores of the call: the file left behind is crash
consistent, and no later `alloc` hands out bytes of a used block, if and only if the call is safe there. -/
theorem crashConsistent_iff {s : FileBackedBuffer} {L : Layout} (hL : L.Holds s.field) (h : L.WellFormed s.dbSize)
    (call : Call) (hcall : ∀ p, call = .free p → p ∈ L.used.map Block.data) (k : Nat) :
    (∃ m, call.killedAfter s k = some m ∧ CrashConsistent m s.dbSize ∧ LaterAllocsApart (s.reopened m)) ↔
      call.SafeAt s L k := by
  have hlater : (∃ m, call.killedAfter s k = some m ∧ CrashConsistent m s.dbSize ∧ LaterAllocsApart (s.reopened m)) ↔
      ∃ m, call.killedAfter s k = some m ∧ CrashConsistent m s.dbSize :=
    exists_congr fun m => and_congr_right fun _ => and_iff_left_of_imp CrashConsistent.laterAllocsApart
  rw [hlater]
  cases call with
  | alloc n => exact alloc_iff hL h k
  | free p =>
    obtain ⟨b, hb, rfl⟩ := List.mem_map.1 (hcall p rfl)
    obtain ⟨u₁, u₂, hu⟩ := List.append_of_mem hb
    have hnot : ∀ x ∈ u₁, x.data ≠ b.data := by
      intro x hx e
      have hnd := h.distinct.used_nodup
      rw [hu, offsets, List.map_append, List.map_cons] at hnd
      have hxb : x.offset = b.offset := Nat.add_right_cancel e
      exact (List.nodup_cons.1 (List.nodup_middle.1 hnd)).1
        (List.mem_append_left _ (hxb ▸ List.mem_map_of_mem hx))
    have hedits : (Call.free b.data).edits L = .unlink (!u₂.isEmpty) :: insertEdits (L.before b) b (L.behind b) := by
      have hdrop : L.used.dropWhile (fun x => x.data ≠ b.data) = b :: u₂ := by
        rw [hu, List.dropWhile_append_of_pos (by simpa using hnot), List.dropWhile_cons_of_neg (by simp)]
      simp only [Call.edits, hdrop]
    have hiff := free_iff hL h hu k
    rw [← hedits] at hiff
    refine hiff.trans (and_iff_left ?_).symm
    rintro n c hcall
    cases hcall

/-- On a buffer of one used and one free block the next `alloc` is unsafe behind its stores 7 to 9, and the `free` of the
used block behind its sixth store. -/
theorem crashConsistent_second_alloc : ∃ s : FileBackedBuffer, WellFormed s ∧
    (∀ k, (∃ m, (Call.alloc 16).killedAfter s k = some m ∧ CrashConsistent m s.dbSize ∧
      LaterAllocsApart (s.reopened m)) ↔ k < 7 ∨ 9 < k) ∧
    ∀ k, (∃ m, (Call.free 40).killedAfter s k = some m ∧ CrashConsistent m s.dbSize ∧
      LaterAllocsApart (s.reopened m)) ↔ k ≠ 6 := by
  have hrun : (reached 220 (by decide) [.alloc 16]).any (fun s => s.buffer.dbSize = 220 ∧
      s.buffer.field .nextFreeBlockOffset = 56 ∧ s.buffer.field .nextUsedBlockOffset = 16 ∧
      (∀ b ∈ [16, 56, 96], s.buffer.field (.prevBlockOffset b) = 0 ∧ s.buffer.field (.nextBlockOffset b) = 0) ∧
      s.buffer.field (.dataSize 56) = 140 ∧ s.buffer.field (.dataSize 16) = 16) := by decide +kernel
  obtain ⟨⟨s, live⟩, -, hs⟩ := (Option.any_eq_true _ _).1 hrun
  obtain ⟨hdb, hfree, hused, hlinks, h56, h16⟩ := of_decide_eq_true hs
  let L : Layout := ⟨[⟨56, 140⟩], [⟨16, 16⟩]⟩
  have hL : L.Holds s.field := by
    refine ⟨⟨hfree, (hlinks 56 (by simp)).1, (hlinks 56 (by simp)).2, trivial⟩,
      ⟨hused, (hlinks 16 (by simp)).1, (hlinks 16 (by simp)).2, trivial⟩, fun b hb => ?_⟩
    rcases List.mem_cons.1 hb with rfl | hb
    · exact h56
    · rw [List.mem_singleton.1 hb]
      exact h16
  have h : L.WellFormed s.dbSize := by
    rw [hdb]
    exact ⟨⟨[⟨16, 16⟩, ⟨56, 140⟩], List.Perm.swap _ _ _, rfl, rfl, rfl⟩, by decide, by decide⟩
  have hrest : ∀ k, RestListed (headerCleared s ⟨56, 140⟩ 16 k) ⟨56, 140⟩ 16 [] := fun k =>
    (restListed_headerCleared k).2 (hlinks 96 (by simp))
  refine ⟨s, ⟨L, hL, h⟩, fun k => ?_, fun k => ?_⟩
  · rw [crashConsistent_iff hL h (.alloc 16) (fun p hp => by cases hp) k]
    have hedits : (Call.alloc 16).edits L = [.unlink false, .single, .single, .single, .push true] := by decide
    rw [Call.SafeAt, hedits]
    have hsafe : SafeAt [.unlink false, .single, .single, .single, .push true] k ↔ k < 7 ∨ 9 < k := by
      simp only [SafeAt, Edit.BadAt, Edit.length, Bool.toNat_false, not_false_eq_true, true_and, and_true]
      omega
    rw [hsafe]
    refine and_iff_left ?_
    rintro n c hn hc - -
    obtain rfl := Call.alloc.inj hn
    obtain rfl := List.singleton_inj.1 hc
    exact ⟨[], hrest k, fun _ => rfl⟩
  · rw [crashConsistent_iff hL h (.free 40) (fun p hp => by cases hp; decide) k]
    have hedits : (Call.free 40).edits L = [.unlink false, .link true, .unlink false, .single] := by decide
    rw [Call.SafeAt, hedits]
    have hsafe : SafeAt [.unlink false, .link true, .unlink false, .single] k ↔ k ≠ 6 := by
      simp only [SafeAt, Edit.BadAt, Edit.length, Bool.toNat_false, not_false_eq_true, true_and, and_true]
      omega
    rw [hsafe]
    refine and_iff_left ?_
    rintro n c hn
    cases hn

/-- The second `alloc` on a new buffer is killed after the first store to the used list. -/
theorem not_crashConsistent_second_alloc : ∃ s : FileBackedBuffer, WellFormed s ∧
    ∃ m, (Call.alloc 16).killedAfter s 7 = some m ∧ ¬ CrashConsistent m s.dbSize := by
  obtain ⟨b, hb, -, hwf⟩ := initBuffer_wellFormed 220 (by decide) (by decide)
  have hrun : (initBuffer (newFile 220 (by decide))).all (fun r => (Client.step ⟨r.2, []⟩ (.alloc 16)).any fun s =>
      ¬ StaleSplit r.2 16 ∧ ((Call.alloc 16).killedAfter s.buffer 7).any fun m =>
        word m (Field.address .nextUsedBlockOffset) = 16 ∧ word m (Field.address (.prevBlockOffset 16)) = 56) := by
    decide +kernel
  rw [hb, Option.all_some] at hrun
  obtain ⟨s, hs, hrun⟩ := (Option.any_eq_true _ _).1 hrun
  obtain ⟨hns, hrun⟩ := of_decide_eq_true hrun
  obtain ⟨m, hm, hbad⟩ := (Option.any_eq_true _ _).1 hrun
  obtain ⟨hhead, hprev⟩ := of_decide_eq_true hbad
  have hs' : s.WellFormed := hwf.step (fun n hn => by obtain rfl := Op.alloc.inj hn; exact hns) hs
  refine ⟨s.buffer, hs'.buffer, m, hm, ?_⟩
  rintro ⟨L, hL, -⟩
  have := hL.used.prev_head (by rw [hhead]; decide)
  rw [hhead, hprev] at this
  exact absurd this (by decide)

end KeyValueStore
