import KeyValueStore.BufferSpec
import Mathlib.Data.List.Induction

/-!
# Runs of a client of the buffer

A client of a newly created buffer allocates, frees what it was given, and writes into the payloads it holds.  A run of such
steps keeps the buffer well formed as long as no allocation is a stale split, and a stale split ends that
(`wellFormed_iff_no_staleSplit`).
-/

namespace KeyValueStore

open ByteMemory

/-- The steps of a client; `write p i bs` writes `bs` into the payload at `p`, from its byte `i` on. -/
inductive Op where
  | alloc (n : Nat)
  | free (p : Nat)
  | write (p i : Nat) (bs : List UInt8)
  deriving DecidableEq, Repr

/-- The buffer, and the pointers that `alloc` returned and that are not yet freed. -/
structure Client where
  buffer : FileBackedBuffer
  live : List Nat

/-- A client frees only live pointers and writes only within their payloads. -/
def Client.step (s : Client) : Op → Option Client
  | .alloc n => (alloc n s.buffer).map fun r => ⟨r.2, r.1.toList ++ s.live⟩
  | .free p => if p ∈ s.live then (free p s.buffer).map fun r => ⟨r.2, s.live.erase p⟩ else none
  | .write p i bs =>
    if p ∈ s.live ∧ i + bs.length ≤ s.buffer.field (.dataSize (p - sizeofBlock)) then
      some ⟨{ s.buffer with base := setBytes s.buffer.base (p + i) bs }, s.live⟩
    else none

/-- A new file: all bytes are zero before the constructor initialises it. -/
def newFile (dbSize : Nat) (h : dbSize < 2 ^ 31) : FileBackedBuffer := ⟨dbSize, h, fun _ => 0, []⟩

/-- The client after the steps `ops`, from a newly created buffer on. -/
def reached (dbSize : Nat) (h : dbSize < 2 ^ 31) (ops : List Op) : Option Client :=
  (initBuffer (newFile dbSize h)).bind fun r => ops.foldlM Client.step ⟨r.2, []⟩

/-- The buffer is well formed, and its used blocks are those the client holds. -/
def Client.WellFormed (s : Client) : Prop :=
  ∃ L : Layout, L.Holds s.buffer.field ∧ L.WellFormed s.buffer.dbSize ∧ s.live = L.used.map Block.data

theorem Client.WellFormed.buffer {s : Client} (h : s.WellFormed) : KeyValueStore.WellFormed s.buffer :=
  let ⟨L, hL, hwf, _⟩ := h
  ⟨L, hL, hwf⟩

theorem reached_concat (dbSize : Nat) (h : dbSize < 2 ^ 31) (ops : List Op) (op : Op) :
    reached dbSize h (ops ++ [op]) = (reached dbSize h ops).bind fun s => s.step op := by
  unfold reached
  cases initBuffer (newFile dbSize h) with
  | none => rfl
  | some r =>
    rw [Option.bind_some, Option.bind_some, List.foldlM_append]
    simp only [List.foldlM_cons, List.foldlM_nil, bind_pure]
    rfl

section

variable {s s' : Client}

/-- The pointers after a `free`. -/
theorem map_data_erase {l : List Block} {b : Block} (hl : (offsets l).Nodup) (hb : b ∈ l) :
    (l.map Block.data).erase b.data = (l.erase b).map Block.data := by
  induction l with
  | nil => cases hb
  | cons c l ih =>
    obtain ⟨hc, hl'⟩ := List.nodup_cons.1 hl
    by_cases he : c = b
    · rw [he, List.map_cons, List.erase_cons_head, List.erase_cons_head]
    · have hb' : b ∈ l := (List.mem_cons.1 hb).resolve_left (Ne.symm he)
      have hne : c.data ≠ b.data := fun e => hc ((Nat.add_right_cancel e : c.offset = b.offset) ▸ List.mem_map_of_mem hb')
      rw [List.map_cons, List.erase_cons_tail (by simpa using hne), List.erase_cons_tail (by simpa using he),
        List.map_cons, ih hl' hb']

/-- A write into the payload of a used block changes no header. -/
theorem holds_write {L : Layout} {b : FileBackedBuffer} (hL : L.Holds b.field) (h : L.Sound b.dbSize)
    {c : Block} (hc : c ∈ L.used) {i : Nat} {bs : List UInt8} (hi : i + bs.length ≤ c.dataSize) :
    L.Holds (FileBackedBuffer.field { b with base := setBytes b.base (c.data + i) bs }) := by
  have hmem : ∀ x ∈ L.blocks, x.offset ∈ {x | x ∈ offsets L.blocks} := fun x hx => List.mem_map_of_mem hx
  refine hL.congr hmem fun f hf => word_congr fun j hj => setBytes_outside _ _ _ ?_
  by_contra hin
  have hstop : c.stop = c.data + c.dataSize := rfl
  obtain ⟨h16, hout⟩ := payload_outside h hc (show c.data ≤ f.address + j by omega) (by omega)
  cases f <;> simp only [Field.On, Field.address] at hf h16 hout <;> first
    | omega
    | (have hx := hout _ hf; omega)

/-- The step lemma: a step that is not a stale split keeps the buffer well formed. -/
theorem Client.WellFormed.step (h : s.WellFormed) {op : Op} (hns : ∀ n, op = .alloc n → ¬ StaleSplit s.buffer n)
    (hs : s.step op = some s') : s'.WellFormed := by
  obtain ⟨L, hL, hwf, hlive⟩ := h
  cases op with
  | alloc n =>
    rcases alloc_spec hL hwf (hns n rfl) with ⟨hrun, -⟩ | ⟨b, t, L', ha⟩
    · simp only [Client.step, hrun, Option.map_some, Option.some.injEq] at hs
      subst hs
      exact ⟨L, hL, hwf, hlive⟩
    · simp only [Client.step, ha.run, Option.map_some, Option.some.injEq] at hs
      subst hs
      refine ⟨L', ha.holds, ?_, ?_⟩
      · rw [ha.dbSize]; exact ha.wellFormed
      · rw [ha.used, List.map_cons, ← hlive]; rfl
  | free p =>
    simp only [Client.step] at hs
    split at hs
    · rename_i hp
      rw [hlive] at hp
      obtain ⟨b, hb, rfl⟩ := List.mem_map.1 hp
      obtain ⟨t, hrun, hdb, hL', hwf', -⟩ := free_spec hL hwf hb
      simp only [hrun, Option.map_some, Option.some.injEq] at hs
      subst hs
      refine ⟨L.afterFree b, hL', ?_, ?_⟩
      · rw [hdb]; exact hwf'
      · rw [hlive]; exact map_data_erase hwf.distinct.used_nodup hb
    · cases hs
  | write p i bs =>
    simp only [Client.step] at hs
    split at hs
    · rename_i hp
      obtain ⟨hp, hi⟩ := hp
      rw [hlive] at hp
      obtain ⟨b, hb, rfl⟩ := List.mem_map.1 hp
      -- the payload ends where the header says
      have hsize : s.buffer.field (.dataSize (b.data - sizeofBlock)) = b.dataSize :=
        hL.sizes b (Layout.WellFormed.used_mem hb)
      rw [hsize] at hi
      obtain rfl := Option.some.inj hs
      exact ⟨L, holds_write hL hwf.sound hb hi, hwf, hlive⟩
    · cases hs

/-- The stores of the constructor. -/
def initStores (dbSize : Nat) : List (Field × Nat) :=
  [(.nextFreeBlockOffset, 16), (.nextUsedBlockOffset, nullOffset), (.dataSize 16, dbSize - 40),
    (.prevBlockOffset 16, nullOffset), (.nextBlockOffset 16, nullOffset)]

theorem headers_newFile {dbSize : Nat} (h40 : 40 ≤ dbSize) (h : dbSize < 2 ^ 31) :
    Headers {x | x ∈ [16]} dbSize (newFile dbSize h).field := by
  refine ⟨h, by omega, ?_, ?_, fun f _ => FileBackedBuffer.field_lt _ f⟩
  · intro b hb
    rw [List.mem_singleton.1 hb]; omega
  · intro b hb c hc
    exact Or.inl ((List.mem_singleton.1 hb).trans (List.mem_singleton.1 hc).symm)

theorem exec_initBuffer {F : Words} {dbSize : Nat} (hD : Headers {x | x ∈ [16]} dbSize F)
    (h40 : 40 ≤ dbSize) : Exec {x | x ∈ [16]} dbSize F initBuffer () (initStores dbSize) := by
  have h16 : sizeofBufferHeader < 2 ^ 64 := by decide
  have h0 : nullOffset < 2 ^ 64 := by decide
  have hdb := hD.small
  have hsize : sub64 (sub64 dbSize sizeofBufferHeader) sizeofBlock = dbSize - 40 := by
    unfold sizeofBufferHeader sizeofBlock
    rw [sub64_of_le (show 16 ≤ dbSize by omega) (by omega), sub64_of_le (by omega) (by omega)]
    omega
  have hsz : dbSize - 40 < 2 ^ 64 := by omega
  have hfree : Field.nextFreeBlockOffset.On {x | x ∈ [16]} := trivial
  have hused : Field.nextUsedBlockOffset.On {x | x ∈ [16]} := trivial
  have hs : (Field.dataSize 16).On {x | x ∈ [16]} := List.mem_singleton.2 rfl
  have hp : (Field.prevBlockOffset 16).On {x | x ∈ [16]} := List.mem_singleton.2 rfl
  have hn : (Field.nextBlockOffset 16).On {x | x ∈ [16]} := List.mem_singleton.2 rfl
  unfold initBuffer
  have hD₁ := hD.update (f := .nextFreeBlockOffset) h16
  have hD₂ := hD₁.update (f := .nextUsedBlockOffset) h0
  refine exec_store_bind hD hfree h16 (exec_store_bind hD₁ hused h0 (exec_load_bind hD₂ hfree ?_))
  rw [Function.update_of_ne (by simp), Function.update_self]
  apply exec_get_bind hD₂
  intro s hs'
  rw [hs']
  dsimp only
  rw [hsize]
  refine exec_store_bind hD₂ hs hsz (exec_store_bind (hD₂.update hsz) hp h0 ?_)
  exact exec_store ((hD₂.update hsz).update h0) hn h0

private theorem holds_initStores (F : Words) (dbSize : Nat) :
    Layout.Holds (F.after (initStores dbSize)) ⟨[⟨16, dbSize - 40⟩], []⟩ := by
  refine ⟨⟨?_, ?_, ?_, trivial⟩, ⟨?_, trivial⟩, ?_⟩ <;> simp [initStores, Layout.blocks]

/-- A newly created buffer is one free block. -/
theorem initBuffer_layout (dbSize : Nat) (h40 : 40 ≤ dbSize) (h : dbSize < 2 ^ 31) :
    ∃ b, initBuffer (newFile dbSize h) = some ((), b) ∧ b.dbSize = dbSize ∧
      Layout.Holds b.field ⟨[⟨16, dbSize - 40⟩], []⟩ ∧ Layout.WellFormed ⟨[⟨16, dbSize - 40⟩], []⟩ b.dbSize := by
  have hD := headers_newFile h40 h
  have hx := exec_initBuffer hD h40
  have hF : Agrees {x | x ∈ [16]} (newFile dbSize h).field (newFile dbSize h) := fun _ _ => rfl
  have hholds : Layout.Holds ((newFile dbSize h).after (initStores dbSize)).field ⟨[⟨16, dbSize - 40⟩], []⟩ :=
    (holds_initStores _ dbSize).congr (by simp [Layout.blocks]) (hF.after hD hx.stores)
  have htiled : Tiled (Layout.blocks ⟨[⟨16, dbSize - 40⟩], []⟩) dbSize :=
    ⟨_, List.Perm.refl _, rfl, show 16 + 24 + (dbSize - 40) = dbSize by omega⟩
  have hwf : Layout.WellFormed ⟨[⟨16, dbSize - 40⟩], []⟩ dbSize := by
    refine ⟨htiled, List.pairwise_singleton .., ?_⟩
    intro b hb c hc
    rw [List.mem_singleton.1 hb, List.mem_singleton.1 hc]
    simp only [Block.stop, sizeofBlock]; omega
  exact ⟨_, hx.run _ rfl hF, rfl, hholds, hwf⟩

theorem initBuffer_wellFormed (dbSize : Nat) (h40 : 40 ≤ dbSize) (h : dbSize < 2 ^ 31) :
    ∃ b, initBuffer (newFile dbSize h) = some ((), b) ∧ b.dbSize = dbSize ∧ Client.WellFormed ⟨b, []⟩ := by
  obtain ⟨b, hb, hdb, hL, hwf⟩ := initBuffer_layout dbSize h40 h
  exact ⟨b, hb, hdb, _, hL, hwf, rfl⟩

/-- The calls of a client of a well formed buffer return. -/
theorem Client.WellFormed.returns (h : s.WellFormed) :
    (∀ n, ∃ s', s.step (.alloc n) = some s') ∧ ∀ p ∈ s.live, ∃ s', s.step (.free p) = some s' := by
  obtain ⟨L, hL, hwf, hlive⟩ := h
  constructor
  · intro n
    by_cases hst : StaleSplit s.buffer n
    · obtain ⟨p, b, hrun, -⟩ := alloc_of_staleSplit hL hwf hst
      exact ⟨_, by rw [Client.step, hrun, Option.map_some]⟩
    · rcases alloc_spec hL hwf hst with ⟨hrun, -⟩ | ⟨b, t, L', ha⟩
      · exact ⟨_, by rw [Client.step, hrun, Option.map_some]⟩
      · exact ⟨_, by rw [Client.step, ha.run, Option.map_some]⟩
  · intro p hp
    have hp' := hp
    rw [hlive] at hp'
    obtain ⟨b, hb, rfl⟩ := List.mem_map.1 hp'
    obtain ⟨t, hrun, -⟩ := free_spec hL hwf hb
    exact ⟨_, by rw [Client.step, if_pos hp, hrun, Option.map_some]⟩

end

/-- A run in which the buffer alone is well formed in every state reached has no stale split. -/
theorem no_staleSplit_of_wellFormed (dbSize : Nat) (h : dbSize < 2 ^ 31) (ops : List Op)
    (hwf : ∀ pre post, ops = pre ++ post → ∀ s, reached dbSize h pre = some s → KeyValueStore.WellFormed s.buffer) :
    ∀ pre n post, ops = pre ++ .alloc n :: post → ∀ s, reached dbSize h pre = some s → ¬ StaleSplit s.buffer n := by
  rintro pre n post rfl s hs hst
  obtain ⟨L, hL, h₁⟩ := hwf pre (.alloc n :: post) rfl s hs
  obtain ⟨p, b, hrun, hbad⟩ := alloc_of_staleSplit hL h₁ hst
  have hs' : reached dbSize h (pre ++ [.alloc n]) = some ⟨b, p :: s.live⟩ := by
    rw [reached_concat, hs, Option.bind_some, Client.step, hrun]; rfl
  exact hbad (hwf (pre ++ [.alloc n]) post (by simp) ⟨b, p :: s.live⟩ hs')

/-- In every run of a client the buffer is well formed in every state reached, and the client's blocks are the used ones,
if and only if no step of the run is a stale split. -/
theorem wellFormed_iff_no_staleSplit (dbSize : Nat) (h40 : 40 ≤ dbSize) (h : dbSize < 2 ^ 31) (ops : List Op) :
    (∀ pre post, ops = pre ++ post → ∀ s, reached dbSize h pre = some s → s.WellFormed) ↔
      ∀ pre n post, ops = pre ++ .alloc n :: post → ∀ s, reached dbSize h pre = some s → ¬ StaleSplit s.buffer n := by
  constructor
  · exact fun hwf => no_staleSplit_of_wellFormed dbSize h ops fun pre post hops s hs => (hwf pre post hops s hs).buffer
  · intro hns pre
    induction pre using List.reverseRecOn with
    | nil =>
      intro post _ s hs
      obtain ⟨b, hb, -, hwf⟩ := initBuffer_wellFormed dbSize h40 h
      rw [reached, hb] at hs
      obtain rfl := Option.some.inj hs
      exact hwf
    | append_singleton pre op ih =>
      rintro post rfl s hs
      rw [reached_concat] at hs
      obtain ⟨t, ht, hstep⟩ := Option.bind_eq_some_iff.1 hs
      refine (ih (op :: post) (by simp) t ht).step ?_ hstep
      rintro n rfl
      exact hns pre n post (by simp) t ht

theorem wellFormed_of_one_alloc : ∃ s, reached 220 (by decide) [.alloc 40] = some s ∧ s.WellFormed := by
  have hnew : (reached 220 (by decide) []).all (fun s => ¬ StaleSplit s.buffer 40) := by decide +kernel
  have hsome : (reached 220 (by decide) [.alloc 40]).isSome := by decide +kernel
  obtain ⟨s, hs⟩ := Option.isSome_iff_exists.1 hsome
  refine ⟨s, hs, ?_⟩
  have hwf := (wellFormed_iff_no_staleSplit 220 (by decide) (by decide) [.alloc 40]).2
  refine hwf (fun pre n post h t ht => ?_) [.alloc 40] [] rfl s hs
  cases pre with
  | nil =>
    obtain ⟨hop, -⟩ := List.cons.inj h
    obtain rfl := Op.alloc.inj hop
    rw [ht] at hnew
    simpa using hnew
  | cons op pre => simp at h

/-- A block is filled with ones and freed, and the next allocation splits the free space in the middle of those bytes. -/
theorem not_wellFormed_after_staleSplit : ∃ s, reached 220 (by decide)
    [.alloc 40, .write 40 16 (List.replicate 16 1), .free 40, .alloc 16] = some s ∧ ¬ s.WellFormed := by
  have hrun : (reached 220 (by decide) [.alloc 40, .write 40 16 (List.replicate 16 1), .free 40, .alloc 16]).any
      (fun s => s.buffer.field .nextFreeBlockOffset = 56 ∧ s.buffer.field (.prevBlockOffset 56) ≠ nullOffset) := by
    decide +kernel
  obtain ⟨s, hs, hbad⟩ := (Option.any_eq_true _ _).1 hrun
  obtain ⟨hhead, hprev⟩ := of_decide_eq_true hbad
  refine ⟨s, hs, fun ⟨L, hL, _⟩ => hprev ?_⟩
  have := hL.free.prev_head (by rw [hhead]; decide)
  rwa [hhead] at this

/-- A client that allocates three blocks and frees the second one leaves two free and two used blocks. -/
theorem exists_fourBlocks : ∃ c, reached 400 (by decide) [.alloc 16, .alloc 16, .alloc 16, .free 80] = some c ∧
    c.buffer.dbSize = 400 ∧ Layout.Holds c.buffer.field ⟨[⟨56, 16⟩, ⟨136, 240⟩], [⟨96, 16⟩, ⟨16, 16⟩]⟩ ∧
      Layout.WellFormed ⟨[⟨56, 16⟩, ⟨136, 240⟩], [⟨96, 16⟩, ⟨16, 16⟩]⟩ c.buffer.dbSize := by
  have hrun : (reached 400 (by decide) [.alloc 16, .alloc 16, .alloc 16, .free 80]).any (fun c => c.buffer.dbSize = 400 ∧
      c.buffer.field .nextFreeBlockOffset = 56 ∧ c.buffer.field .nextUsedBlockOffset = 96 ∧
      ∀ b ∈ [(56, 0, 136, 16), (136, 56, 0, 240), (96, 0, 16, 16), (16, 96, 0, 16)],
        c.buffer.field (.prevBlockOffset b.1) = b.2.1 ∧ c.buffer.field (.nextBlockOffset b.1) = b.2.2.1 ∧
          c.buffer.field (.dataSize b.1) = b.2.2.2) := by decide +kernel
  obtain ⟨c, hc, hwords⟩ := (Option.any_eq_true _ _).1 hrun
  obtain ⟨hdb, hfree, hused, hblocks⟩ := of_decide_eq_true hwords
  simp only [List.forall_mem_cons, List.not_mem_nil, false_imp_iff, implies_true, and_true] at hblocks
  obtain ⟨⟨hp₁, hn₁, hs₁⟩, ⟨hp₂, hn₂, hs₂⟩, ⟨hp₃, hn₃, hs₃⟩, hp₄, hn₄, hs₄⟩ := hblocks
  refine ⟨c, hc, hdb, ⟨⟨hfree, hp₁, hn₁, hp₂, hn₂, trivial⟩, ⟨hused, hp₃, hn₃, hp₄, hn₄, trivial⟩, ?_⟩, ?_⟩
  · simp only [Layout.blocks, List.cons_append, List.nil_append, List.forall_mem_cons]
    exact ⟨hs₁, hs₂, hs₃, hs₄, fun _ hb => absurd hb List.not_mem_nil⟩
  · rw [hdb]
    exact ⟨⟨[⟨16, 16⟩, ⟨56, 16⟩, ⟨96, 16⟩, ⟨136, 240⟩], by decide, rfl, rfl, rfl, rfl, rfl⟩, by decide, by decide⟩

end KeyValueStore
