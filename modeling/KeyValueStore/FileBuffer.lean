import KeyValueStore.Client
import KeyValueStore.Contract

/-!
# The file-backed buffer and the contract

`plainBuffer` is the buffer of the code, in a file of a given size.  It does not keep the contract: a stale split hands out a
block, and the file is not well formed afterwards.  `guardedBuffer` differs from it in one point, which the code does not
have: its `alloc` refuses a stale split.  It keeps the contract in every well formed file (`guardedBuffer_lawful`), and where
no split is stale the two buffers do the same (`allocUnlessStale_eq`), so what is proved over the contract holds of the runs
of the code in which no split is stale.
-/

namespace KeyValueStore

open ByteMemory DoublyLinked

variable {dbSize : Nat} {s s' : FileBackedBuffer} {L : Layout}

private theorem exec_usedFrom {D : Set Nat} {db : Nat} {F : Words} (hD : Headers D db F) {p fuel : Nat} {l : List Block}
    (h : Seg (fun x => F (.prevBlockOffset x)) (fun x => F (.nextBlockOffset x)) p (offsets l) nullOffset)
    (hmem : ∀ b ∈ l, b.offset ∈ D ∧ F (.dataSize b.offset) = b.dataSize) (hfuel : l.length < fuel) :
    Exec D db F (usedFrom fuel ((offsets l).headD nullOffset)) (l.map fun b => (b.data, b.dataSize)) [] := by
  induction l generalizing p fuel with
  | nil =>
    obtain ⟨fuel, rfl⟩ : ∃ k, fuel = k + 1 := ⟨fuel - 1, by simp at hfuel; omega⟩
    show Exec D db F (usedFrom (fuel + 1) nullOffset) [] []
    rw [usedFrom, if_pos rfl]
    exact exec_pure []
  | cons b l ih =>
    obtain ⟨fuel, rfl⟩ : ∃ k, fuel = k + 1 := ⟨fuel - 1, by simp at hfuel; omega⟩
    obtain ⟨hb, hsize⟩ := hmem b (List.mem_cons_self ..)
    obtain ⟨-, hn, ht⟩ := h
    change F (.nextBlockOffset b.offset) = _ at hn
    have hbs : (Field.dataSize b.offset).On D := hb
    have hbn : (Field.nextBlockOffset b.offset).On D := hb
    show Exec D db F (usedFrom (fuel + 1) b.offset) _ []
    rw [usedFrom, if_neg (hD.ne_null hb)]
    refine exec_load_bind hD hbs (exec_load_bind hD hbn ?_)
    rw [hn, hsize]
    apply exec_read_bind hD (ih ht (fun c hc => hmem c (List.mem_cons_of_mem _ hc)) (by simpa using hfuel))
    exact exec_pure _

/-- What the walk over the used blocks finds. -/
theorem usedBlocks_eq (hL : L.Holds s.field) (h : L.Sound s.dbSize) :
    usedBlocks s = some (L.used.map fun b => (b.data, b.dataSize), s) := by
  have hD := h.headers s.dbSize_lt s.field_lt
  have hlen := h.length_lt
  simp only [Layout.blocks, List.length_append] at hlen
  have hused : Field.nextUsedBlockOffset.On {x | x ∈ offsets L.blocks} := trivial
  have hx : Exec {x | x ∈ offsets L.blocks} s.dbSize s.field usedBlocks (L.used.map fun b => (b.data, b.dataSize)) [] := by
    unfold usedBlocks
    refine exec_get_bind hD fun t ht => exec_load_bind hD hused ?_
    rw [ht, hL.used.head]
    refine exec_usedFrom hD hL.used.seg (fun b hb => ⟨?_, ?_⟩) (by omega)
    · exact List.mem_map_of_mem (Layout.WellFormed.used_mem hb)
    · exact hL.sizes b (Layout.WellFormed.used_mem hb)
  have hrun := hx.run s rfl fun _ _ => rfl
  rwa [FileBackedBuffer.after_nil] at hrun

/-- The payload of a block. -/
def Block.payload (b : Block) : Payload := ⟨b.data, b.dataSize⟩

/-- `alloc` of the code, stale splits included; it returns in every well formed file. -/
@[irreducible] def allocPlain (n : Nat) (s : FileBackedBuffer) : Option Nat × FileBackedBuffer := (alloc n s).getD (none, s)

/-- The buffer of the code, in a file of `dbSize` bytes. -/
def plainBuffer (dbSize : Nat) : Buffer FileBackedBuffer where
  dbSize := dbSize
  base s := s.base
  usedBlocks s := ((usedBlocks s).elim [] Prod.fst).map fun b => ⟨b.1, b.2⟩
  alloc := allocPlain
  free p s := (free p s).elim s Prod.snd
  write a bs s := { s with base := setBytes s.base a bs }

/-- The buffer with another allocator. -/
def Buffer.withAlloc {σ : Type} (B : Buffer σ) (f : Nat → σ → Option Nat × σ) : Buffer σ := { B with alloc := f }

section

variable {σ : Type} (B : Buffer σ) (f : Nat → σ → Option Nat × σ)

@[simp] theorem withAlloc_alloc : (B.withAlloc f).alloc = f := rfl
@[simp] theorem withAlloc_dbSize : (B.withAlloc f).dbSize = B.dbSize := rfl
@[simp] theorem withAlloc_base : (B.withAlloc f).base = B.base := rfl
@[simp] theorem withAlloc_usedBlocks : (B.withAlloc f).usedBlocks = B.usedBlocks := rfl
@[simp] theorem withAlloc_free : (B.withAlloc f).free = B.free := rfl
@[simp] theorem withAlloc_write : (B.withAlloc f).write = B.write := rfl

end

/-- `alloc` that refuses a stale split, which the code does not. -/
@[irreducible] def allocUnlessStale (n : Nat) (s : FileBackedBuffer) : Option Nat × FileBackedBuffer :=
  if StaleSplit s n then (none, s) else allocPlain n s

/-- The buffer of the code with an `alloc` that refuses a stale split. -/
def guardedBuffer (dbSize : Nat) : Buffer FileBackedBuffer := (plainBuffer dbSize).withAlloc allocUnlessStale

theorem plainBuffer_alloc : (plainBuffer dbSize).alloc = allocPlain := rfl

theorem guardedBuffer_alloc : (guardedBuffer dbSize).alloc = allocUnlessStale := rfl

/-- Where the split is not stale, the two buffers allocate alike. -/
theorem allocUnlessStale_eq {n : Nat} (hns : ¬ StaleSplit s n) : allocUnlessStale n s = allocPlain n s := by
  rw [allocUnlessStale, if_neg hns]

/-- The files in which the contract holds. -/
def FileBackedBuffer.Sound (dbSize : Nat) (s : FileBackedBuffer) : Prop := s.dbSize = dbSize ∧ WellFormed s

theorem guardedBuffer_used (hL : L.Holds s.field) (h : L.WellFormed s.dbSize) :
    (guardedBuffer dbSize).usedBlocks s = L.used.map Block.payload := by
  show ((usedBlocks s).elim [] Prod.fst).map _ = _
  rw [usedBlocks_eq hL h.sound, Option.elim_some, List.map_map]
  rfl

private theorem sameBytes_of_keeps {bs : List Block} {m m' : Mem} (h : KeepsPayloads bs m m') :
    SameBytes (bs.map Block.payload) m m' := by
  intro p hp x hx hx'
  obtain ⟨b, hb, rfl⟩ := List.mem_map.1 hp
  exact h b hb x hx hx'

theorem payload_erase {l : List Block} (b : Block) :
    (l.map Block.payload).erase b.payload = (l.erase b).map Block.payload := by
  refine (List.map_erase (fun c d hcd => ?_) l).symm
  obtain ⟨o, n⟩ := c
  obtain ⟨o', n'⟩ := d
  simp only [Block.payload, Block.data, sizeofBlock, Payload.mk.injEq] at hcd
  rw [show o = o' by omega, hcd.2]

private theorem allocUnlessStale_spec (hL : L.Holds s.field) (h : L.WellFormed s.dbSize) (n : Nat) :
    allocUnlessStale n s = (none, s) ∨
      ∃ b s' L', Allocated L n s b s' L' ∧ allocUnlessStale n s = (some b.data, s') := by
  by_cases hst : StaleSplit s n
  · rw [allocUnlessStale, if_pos hst]
    exact Or.inl rfl
  · rw [allocUnlessStale, if_neg hst, allocPlain]
    rcases alloc_spec hL h hst with ⟨hrun, -⟩ | ⟨b, s', L', hx⟩
    · rw [hrun]
      exact Or.inl rfl
    · refine Or.inr ⟨b, s', L', hx, ?_⟩
      rw [hx.run]
      rfl

private theorem allocated_apart {n : Nat} {b : Block} {L' : Layout} (hx : Allocated L n s b s' L') :
    ∀ c ∈ L.used.map Block.payload, c.Apart b.payload := by
  intro p hp
  obtain ⟨c, hc, rfl⟩ := List.mem_map.1 hp
  have hb : b ∈ L'.used := by rw [hx.used]; exact List.mem_cons_self ..
  have hc' : c ∈ L'.used := by rw [hx.used]; exact List.mem_cons_of_mem _ hc
  have hnodup := hx.wellFormed.distinct.used_nodup
  have hne : c ≠ b := by
    rintro rfl
    rw [hx.used] at hnodup
    exact (List.nodup_cons.1 hnodup).1 (List.mem_map_of_mem hc)
  have hap := (hx.wellFormed.tiled.eq_or_apart (Layout.WellFormed.used_mem hc')
    (Layout.WellFormed.used_mem hb)).resolve_left hne
  simp only [Block.Apart, Block.stop, Payload.Apart, Block.payload, Block.data, sizeofBlock] at hap ⊢
  omega

/-- The file-backed buffer keeps the contract in every well formed file. -/
theorem guardedBuffer_lawful (dbSize : Nat) : (guardedBuffer dbSize).Lawful (FileBackedBuffer.Sound dbSize) := by
  refine ⟨?_, ?_, ?_, ?_⟩
  · rintro s s' n ⟨hdb, L, hL, h⟩ ha
    rw [guardedBuffer_alloc] at ha
    rcases allocUnlessStale_spec hL h n with hn | ⟨b, t, L', -, hn⟩
    · obtain rfl : s = s' := (Prod.mk.inj (hn.symm.trans ha)).2
      exact ⟨⟨hdb, L, hL, h⟩, rfl, fun _ _ _ _ _ => rfl⟩
    · exact absurd (Prod.mk.inj (hn.symm.trans ha)).1 (Option.some_ne_none _)
  · rintro s s' n p ⟨hdb, L, hL, h⟩ ha
    rw [guardedBuffer_alloc] at ha
    rcases allocUnlessStale_spec hL h n with hn | ⟨b, t, L', hx, hn⟩
    · exact absurd (Prod.mk.inj (ha.symm.trans hn)).1 (Option.some_ne_none _)
    · obtain ⟨hp, rfl⟩ := Prod.mk.inj (hn.symm.trans ha)
      obtain rfl := Option.some.inj hp
      have hwf : L'.WellFormed t.dbSize := by rw [hx.dbSize]; exact hx.wellFormed
      have hb : b ∈ L'.used := by rw [hx.used]; exact List.mem_cons_self ..
      have hbound := (hwf.tiled.bounds (Layout.WellFormed.used_mem hb)).2
      rw [hx.dbSize, hdb] at hbound
      rw [guardedBuffer_used hx.holds hwf, guardedBuffer_used hL h, hx.used]
      exact ⟨⟨hx.dbSize.trans hdb, L', hx.holds, hwf⟩, b.dataSize, hx.size, hbound, rfl, allocated_apart hx,
        sameBytes_of_keeps hx.keeps⟩
  · rintro s p ⟨hdb, L, hL, h⟩ hp
    rw [guardedBuffer_used hL h] at hp ⊢
    obtain ⟨b, hb, rfl⟩ := List.mem_map.1 hp
    obtain ⟨s', hrun, hdb', hL', h', hkeep⟩ := free_spec hL h hb
    have hs' : (guardedBuffer dbSize).free b.payload.data s = s' := by
      show (free b.data s).elim s Prod.snd = s'
      rw [hrun]; rfl
    rw [← hdb'] at h'
    rw [hs', guardedBuffer_used hL' h', payload_erase]
    exact ⟨⟨hdb'.trans hdb, _, hL', h'⟩, rfl, sameBytes_of_keeps hkeep⟩
  · rintro s p a bs ⟨hdb, L, hL, h⟩ hp ha hbs
    rw [guardedBuffer_used hL h] at hp ⊢
    obtain ⟨b, hb, rfl⟩ := List.mem_map.1 hp
    obtain ⟨i, rfl⟩ : ∃ i, a = b.data + i := ⟨a - b.data, by simp only [Block.payload] at ha; omega⟩
    have hi : i + bs.length ≤ b.dataSize := by simp only [Block.payload] at hbs; omega
    have hL' := holds_write hL h.sound hb hi
    have hwf' : L.WellFormed (FileBackedBuffer.dbSize { s with base := setBytes s.base (b.data + i) bs }) := h
    exact ⟨⟨hdb, L, hL', h⟩, guardedBuffer_used hL' hwf', rfl⟩

/-- The empty file that the constructor of the buffer makes. -/
def emptyFile (dbSize : Nat) (h : dbSize < 2 ^ 31) : FileBackedBuffer :=
  (initBuffer (newFile dbSize h)).elim (newFile dbSize h) Prod.snd

theorem emptyFile_sound (dbSize : Nat) (h40 : 40 ≤ dbSize) (h : dbSize < 2 ^ 31) :
    (emptyFile dbSize h).Sound dbSize ∧ (guardedBuffer dbSize).usedBlocks (emptyFile dbSize h) = [] := by
  obtain ⟨b, hb, hdb, L, hL, hwf, hlive⟩ := initBuffer_wellFormed dbSize h40 h
  have he : emptyFile dbSize h = b := by rw [emptyFile, hb]; rfl
  have hused : L.used = [] := List.map_eq_nil_iff.1 hlive.symm
  rw [he, guardedBuffer_used hL hwf, hused]
  exact ⟨⟨hdb, L, hL, hwf⟩, rfl⟩

end KeyValueStore
