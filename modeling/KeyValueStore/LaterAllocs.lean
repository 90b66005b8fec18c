import KeyValueStore.BufferCrash
import KeyValueStore.FileBuffer

/-!
# Allocating from a reopened file

The next process trusts the file that a kill left behind.  In a crash consistent file the two lists stay consistent through
every run of a client that holds the used blocks, as long as no split is stale (`Client.Sound.run`): a block may be on no
list, and the free list may have any order.  So no `alloc` of such a run hands out a byte of a block on the used list
(`CrashConsistent.laterAllocsApart`).
-/

namespace KeyValueStore

open ByteMemory

/-- The two lists are consistent, and the client holds the used blocks. -/
def Client.Sound (c : Client) : Prop :=
  ∃ L : Layout, L.Holds c.buffer.field ∧ L.Sound c.buffer.dbSize ∧ c.live = L.used.map Block.data

/-- No `alloc` of the run is a stale split. -/
def Client.NoStaleSplit : Client → List Op → Prop
  | _, [] => True
  | c, op :: ops => (∀ n, op = .alloc n → ¬ StaleSplit c.buffer n) ∧ ∀ d, c.step op = some d → d.NoStaleSplit ops

/-- The file with the bytes that the kill left behind. -/
def FileBackedBuffer.reopened (s : FileBackedBuffer) (m : Mem) : FileBackedBuffer := { s with base := m, stores := [] }

/-- A client opens the file and holds the used blocks.  Whatever it does without a stale split, an `alloc` of it hands out no
byte of a block that is on the used list. -/
def LaterAllocsApart (s : FileBackedBuffer) : Prop :=
  ∃ used, usedBlocks s = some (used, s) ∧
    ∀ ops c, Client.NoStaleSplit ⟨s, used.map Prod.fst⟩ ops → ops.foldlM Client.step ⟨s, used.map Prod.fst⟩ = some c →
      ∀ n p t, alloc n c.buffer = some (some p, t) →
        ∃ used', usedBlocks c.buffer = some (used', c.buffer) ∧ ∀ b ∈ used', p + n ≤ b.1 - sizeofBlock ∨ b.1 + b.2 ≤ p

section

variable {s : FileBackedBuffer} {L : Layout} {n : Nat}

private theorem offset_of_mem_cut {l₁ l₂ k₁ k₂ : List Block} {b c : Block} (hfree : L.free = l₁ ++ c :: l₂)
    (hk : k₁ ++ k₂ = l₁ ++ l₂) (hb : b ∈ Layout.blocks ⟨mergedFree k₁ (c.rest n) k₂, ⟨c.offset, n⟩ :: L.used⟩) :
    b.offset ∈ (c.rest n).offset :: offsets L.blocks := by
  have hmem : ∀ x ∈ l₁ ++ c :: l₂ ++ L.used, x.offset ∈ (c.rest n).offset :: offsets L.blocks := fun x hx =>
    List.mem_cons_of_mem _ (List.mem_map_of_mem (by rwa [Layout.blocks, hfree]))
  rcases List.mem_append.1 hb with hb | hb
  · obtain ⟨x, hx, e⟩ := List.mem_map.1 (mem_mergedFree_offset hb)
    rw [← e]
    have hx' : x = c.rest n ∨ x ∈ k₁ ++ k₂ := by
      simp only [List.mem_append, List.mem_cons] at hx ⊢
      tauto
    rcases hx' with rfl | hx'
    · exact List.mem_cons_self ..
    · refine hmem x ?_
      rw [hk] at hx'
      simp only [List.mem_append, List.mem_cons] at hx' ⊢
      tauto
  · rcases List.mem_cons.1 hb with rfl | hb
    · exact hmem c (by simp)
    · exact hmem b (by simp [hb])

/-- The split of a free block, wherever the rest belongs in the free list. -/
private theorem alloc_cut {l₁ l₂ : List Block} {c : Block} (hL : L.Holds s.field) (h : L.Sound s.dbSize)
    (hfree : L.free = l₁ ++ c :: l₂) (hsmall : ∀ x ∈ l₁, x.dataSize < n) (hz : n + 124 ≤ c.dataSize) :
    ∃ t, alloc n s = some (some c.data, t) ∧ t.dbSize = s.dbSize ∧
      (¬ StaleSplit s n → ∃ l, Layout.Holds t.field ⟨l, ⟨c.offset, n⟩ :: L.used⟩ ∧
        Layout.Sound ⟨l, ⟨c.offset, n⟩ :: L.used⟩ s.dbSize) := by
  have hc : c ∈ L.free := by rw [hfree]; simp
  have hout : (c.rest n).offset ∉ offsets (l₁ ++ l₂) := by
    intro hm
    obtain ⟨b, hb, e⟩ := List.mem_map.1 hm
    have hb' : b ∈ L.blocks := by
      simp only [Layout.blocks, hfree, List.mem_append, List.mem_cons] at hb ⊢
      tauto
    have := (c.rest n).offset_lt_stop
    rcases h.rest_apart hc hz hb' with h' | h' <;> omega
  obtain ⟨k₁, k₂, hk, hpos⟩ : ∃ k₁ k₂, k₁ ++ k₂ = l₁ ++ l₂ ∧ FreePosition (c.rest n) k₁ k₂ :=
    ⟨_, _, Layout.before_append_behind ⟨l₁ ++ l₂, []⟩ (c.rest n), Layout.freePosition ⟨l₁ ++ l₂, []⟩ hout⟩
  have hx := exec_alloc_cut h s.dbSize_lt s.field_lt hL hfree hsmall hz hk hpos
  refine ⟨_, hx.run s rfl (fun _ _ => rfl), rfl, fun hns => ⟨_, ?_, (h.cut hfree hz hk).merged⟩⟩
  have hlinks : l₁ ++ l₂ = [] → s.field (.prevBlockOffset (c.rest n).offset) = nullOffset ∧
      s.field (.nextBlockOffset (c.rest n).offset) = nullOffset := by
    intro e
    obtain ⟨rfl, rfl⟩ := List.append_eq_nil_iff.1 e
    by_contra hl
    exact hns ((staleSplit_iff hL h).2 ⟨c, hfree, hz, hl⟩)
  exact holds_after (headers_rest h s.dbSize_lt s.field_lt hc hz) hx.stores
    (holds_cutStores h s.dbSize_lt s.field_lt hL hfree hz hk hpos hlinks) fun b hb => offset_of_mem_cut hfree hk hb

/-- `alloc` on consistent lists: nothing changes, or a free block is handed out or cut, and the lists are consistent again if
the split was not stale. -/
private theorem alloc_of_sound (hL : L.Holds s.field) (h : L.Sound s.dbSize) (n : Nat) : alloc n s = some (none, s) ∨
    ∃ c ∈ L.free, n ≤ c.dataSize ∧ ∃ t, alloc n s = some (some c.data, t) ∧ t.dbSize = s.dbSize ∧
      (¬ StaleSplit s n → ∃ l size, Layout.Holds t.field ⟨l, ⟨c.offset, size⟩ :: L.used⟩ ∧
        Layout.Sound ⟨l, ⟨c.offset, size⟩ :: L.used⟩ s.dbSize) := by
  rcases L.first_fit n with hsmall | ⟨l₁, c, l₂, hfree, hsmall, hn⟩
  · have hrun := (exec_alloc_none h s.dbSize_lt s.field_lt hL hsmall).run s rfl (fun _ _ => rfl)
    rw [FileBackedBuffer.after_nil] at hrun
    exact Or.inl hrun
  · have hc : c ∈ L.free := by rw [hfree]; simp
    refine Or.inr ⟨c, hc, hn, ?_⟩
    by_cases hz : n + 124 ≤ c.dataSize
    · obtain ⟨t, hrun, hdb, hlists⟩ := alloc_cut hL h hfree hsmall hz
      refine ⟨t, hrun, hdb, fun hns => ?_⟩
      obtain ⟨l, hlist⟩ := hlists hns
      exact ⟨l, n, hlist⟩
    · have hx := exec_alloc_whole h s.dbSize_lt s.field_lt hL hfree hsmall hn (by omega)
      refine ⟨_, hx.run s rfl (fun _ _ => rfl), rfl, fun _ => ⟨l₁ ++ l₂, c.dataSize, ?_, h.takeWhole hfree⟩⟩
      refine holds_after (h.headers s.dbSize_lt s.field_lt) hx.stores (holds_wholeStores h hL hfree) fun b hb => ?_
      have hb' : b ∈ L.blocks := by
        simp only [Layout.blocks, hfree, List.mem_append, List.mem_cons] at hb ⊢
        tauto
      exact List.mem_map_of_mem hb'

private theorem free_of_sound {b : Block} (hL : L.Holds s.field) (h : L.Sound s.dbSize) (hb : b ∈ L.used) :
    ∃ t l, free b.data s = some ((), t) ∧ t.dbSize = s.dbSize ∧
      Layout.Holds t.field ⟨l, L.used.erase b⟩ ∧ Layout.Sound ⟨l, L.used.erase b⟩ s.dbSize := by
  obtain ⟨u₁, u₂, hu⟩ := List.append_of_mem hb
  have hx := exec_free h s.dbSize_lt s.field_lt hL hu
  have hholds := h.holds_freeStores s.dbSize_lt s.field_lt hL hu
  have hperm := L.perm_link hu
  have hs := (h.perm hperm).merged
  rw [h.erase_used hu]
  refine ⟨_, _, hx.run s rfl (fun _ _ => rfl), rfl, ?_, hs⟩
  refine holds_after (h.headers s.dbSize_lt s.field_lt) hx.stores hholds fun x hx' => ?_
  show x.offset ∈ offsets L.blocks
  rw [(hperm.map Block.offset).mem_iff]
  rcases List.mem_append.1 hx' with hx' | hx'
  · obtain ⟨y, hy, e⟩ := List.mem_map.1 (mem_mergedFree_offset hx')
    exact e ▸ List.mem_map_of_mem (List.mem_append_left _ hy)
  · exact List.mem_map_of_mem (List.mem_append_right _ hx')

end

/-- The step lemma: a step that is not a stale split keeps the lists consistent. -/
theorem Client.Sound.step {c d : Client} (h : c.Sound) {op : Op} (hns : ∀ n, op = .alloc n → ¬ StaleSplit c.buffer n)
    (hs : c.step op = some d) : d.Sound := by
  obtain ⟨L, hL, hsound, hlive⟩ := h
  cases op with
  | alloc n =>
    rcases alloc_of_sound hL hsound n with hrun | ⟨b, -, -, t, hrun, hdb, hlists⟩
    · simp only [Client.step, hrun, Option.map_some, Option.some.injEq] at hs
      subst hs
      exact ⟨L, hL, hsound, hlive⟩
    · obtain ⟨l, size, hL', hsound'⟩ := hlists (hns n rfl)
      simp only [Client.step, hrun, Option.map_some, Option.some.injEq] at hs
      subst hs
      refine ⟨_, hL', hdb ▸ hsound', ?_⟩
      rw [hlive]
      rfl
  | free p =>
    simp only [Client.step] at hs
    split at hs
    · rename_i hp
      rw [hlive] at hp
      obtain ⟨b, hb, rfl⟩ := List.mem_map.1 hp
      obtain ⟨t, l, hrun, hdb, hL', hsound'⟩ := free_of_sound hL hsound hb
      simp only [hrun, Option.map_some, Option.some.injEq] at hs
      subst hs
      refine ⟨_, hL', hdb ▸ hsound', ?_⟩
      rw [hlive]
      exact map_data_erase hsound.distinct.used_nodup hb
    · cases hs
  | write p i bs =>
    simp only [Client.step] at hs
    split at hs
    · rename_i hp
      obtain ⟨hp, hi⟩ := hp
      rw [hlive] at hp
      obtain ⟨b, hb, rfl⟩ := List.mem_map.1 hp
      have hsize : c.buffer.field (.dataSize (b.data - sizeofBlock)) = b.dataSize :=
        hL.sizes b (Layout.WellFormed.used_mem hb)
      rw [hsize] at hi
      obtain rfl := Option.some.inj hs
      exact ⟨L, holds_write hL hsound hb hi, hsound, hlive⟩
    · cases hs

/-- The run lemma. -/
theorem Client.Sound.run {c d : Client} (h : c.Sound) {ops : List Op} (hns : c.NoStaleSplit ops)
    (hrun : ops.foldlM Client.step c = some d) : d.Sound := by
  induction ops generalizing c with
  | nil => exact Option.some.inj hrun ▸ h
  | cons op ops ih =>
    rw [List.foldlM_cons] at hrun
    obtain ⟨e, he, hrun⟩ := Option.bind_eq_some_iff.1 hrun
    exact ih (h.step hns.1 he) (hns.2 e he) hrun

/-- What `alloc` hands out is the payload of a free block, which shares no byte with a used one. -/
private theorem Client.Sound.alloc_apart {c : Client} (h : c.Sound) {n p : Nat} {t : FileBackedBuffer}
    (hrun : alloc n c.buffer = some (some p, t)) : ∃ used, usedBlocks c.buffer = some (used, c.buffer) ∧
      ∀ b ∈ used, p + n ≤ b.1 - sizeofBlock ∨ b.1 + b.2 ≤ p := by
  obtain ⟨L, hL, hsound, -⟩ := h
  refine ⟨_, usedBlocks_eq hL hsound, fun q hq => ?_⟩
  obtain ⟨b, hb, rfl⟩ := List.mem_map.1 hq
  rcases alloc_of_sound hL hsound n with hrun' | ⟨f, hf, hn, t', hrun', -⟩
  · rw [hrun'] at hrun
    cases hrun
  · obtain rfl : f.data = p := by
      rw [hrun'] at hrun
      exact Option.some.inj (congrArg Prod.fst (Option.some.inj hrun))
    have := f.offset_lt_stop
    rcases (List.pairwise_append.1 hsound.apart).2.2 f hf b hb with e | e <;>
      simp only [Block.stop, Block.data, sizeofBlock] at * <;> omega

theorem CrashConsistent.laterAllocsApart {s : FileBackedBuffer} {m : Mem} (h : CrashConsistent m s.dbSize) :
    LaterAllocsApart (s.reopened m) := by
  obtain ⟨L, hL, hs⟩ := h
  have hL' : L.Holds (s.reopened m).field := hL
  refine ⟨_, usedBlocks_eq hL' hs, fun ops c hns hrun n p t halloc => ?_⟩
  have hopened : Client.Sound ⟨s.reopened m, (L.used.map fun b => (b.data, b.dataSize)).map Prod.fst⟩ :=
    ⟨L, hL', hs, List.map_map⟩
  exact (hopened.run hns hrun).alloc_apart halloc

end KeyValueStore
