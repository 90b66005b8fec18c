import KeyValueStore.Effects
import KeyValueStore.EqualSizes
import KeyValueStore.Rest
import KeyValueStore.Trace

/-!
# A store in which no key is put twice

A record is freed when its key is put again.  While no key is, the blocks of the file are handed out and never taken back, so
the free space stays as blank as it was in a new file (`FileBackedBuffer.Blank`), and no split of the code's `alloc` is stale.
Such a run is one over the lawful buffer, whatever the sizes of the records (`puts_once_linearizable`).
-/

namespace KeyValueStore

open ByteMemory ConcurrentHashTable References

/-! ### The free space -/

section

variable {s : FileBackedBuffer} {L : Layout} {n dbSize : Nat} {b c : Block}

/-- The bytes of the free payloads are zero. -/
def Layout.Blank (L : Layout) (m : Mem) : Prop := ∀ c ∈ L.free, ∀ x, c.data ≤ x → x < c.stop → m x = 0

/-- The file is well formed, and nothing was ever stored in its free space. -/
def FileBackedBuffer.Blank (s : FileBackedBuffer) : Prop :=
  ∃ L : Layout, L.Holds s.field ∧ L.WellFormed s.dbSize ∧ L.Blank s.base

theorem FileBackedBuffer.Blank.wellFormed (h : s.Blank) : WellFormed s := by
  obtain ⟨L, hL, hwf, -⟩ := h
  exact ⟨L, hL, hwf⟩

private theorem payload_of_stores {db : Nat} {D : Set Nat} {ws : List (Field × Nat)} (h : L.WellFormed db)
    (hb : b ∈ L.blocks)
    (hws : StoresOn D ws) (hD : ∀ y ∈ D, y ∈ offsets L.blocks) {x : Nat} (hx : b.data ≤ x) (hx' : x < b.stop) (m : Mem) :
    applyStores m ws x = m x := by
  have hbb := h.tiled.bounds hb
  simp only [Block.data, sizeofBlock, sizeofBufferHeader] at hx hbb
  refine applyStores_outside hws (by omega) (fun y hy => ?_) m
  obtain ⟨c, hc, rfl⟩ := List.mem_map.1 (hD y hy)
  have := c.offset_lt_stop
  rcases h.tiled.eq_or_apart hb hc with rfl | hbc | hbc <;> omega

namespace FileBackedBuffer.Blank

/-- The links of the rest are bytes of the free space. -/
theorem not_staleSplit (h : s.Blank) : ¬ StaleSplit s n := by
  obtain ⟨L, hL, hwf, hblank⟩ := h
  intro hst
  obtain ⟨c, hfree, hz, hl⟩ := (staleSplit_iff hL hwf.sound).1 hst
  have hzero : ∀ x, c.data ≤ x → x < c.stop → s.base x = 0 := hblank c (by rw [hfree]; exact List.mem_singleton_self c)
  refine hl ⟨word_eq_zero.2 fun i hi => hzero _ ?_ ?_, word_eq_zero.2 fun i hi => hzero _ ?_ ?_⟩ <;>
    simp only [Field.address, Block.rest, Block.data, Block.stop, sizeofBlock] <;> omega

theorem alloc (h : s.Blank) : (allocPlain n s).2.Blank := by
  have hns := h.not_staleSplit (n := n)
  obtain ⟨L, hL, hwf, hblank⟩ := id h
  unfold allocPlain
  rcases L.first_fit n with hsmall | ⟨l₁, c, l₂, hfree, hsmall, hn⟩
  · have hrun := (exec_alloc_none hwf.sound s.dbSize_lt s.field_lt hL hsmall).run s rfl fun _ _ => rfl
    rw [FileBackedBuffer.after_nil] at hrun
    rw [hrun]
    exact h
  · have hmem : ∀ d ∈ l₁ ++ l₂, d ∈ L.free := fun d hd => by
      rw [hfree]
      simp only [List.mem_append, List.mem_cons] at hd ⊢
      tauto
    by_cases hz : n + 124 ≤ c.dataSize
    · have hx := exec_alloc_split hwf s.dbSize_lt s.field_lt hL hfree hsmall hz
      have ha := allocated_split hL hwf hns hfree hsmall hz
      rw [ha.run]
      refine ⟨_, ha.holds, ha.wellFormed, fun d hd x hx₁ hx₂ => ?_⟩
      have hoffsets : ∀ y ∈ {x | x ∈ (c.rest n).offset :: offsets L.blocks},
          y ∈ offsets (Layout.afterSplit l₁ c n l₂ L.used).blocks := by
        intro y hy
        have hy : y ∈ (c.rest n).offset :: offsets L.blocks := hy
        simp only [offsets, Layout.blocks, hfree, Layout.afterSplit, List.map_append, List.map_cons,
          List.mem_append, List.mem_cons] at hy ⊢
        tauto
      have hkeep := payload_of_stores ha.wellFormed (List.mem_append_left _ hd) hx.stores hoffsets hx₁ hx₂ s.base
      refine hkeep.trans ?_
      rcases List.mem_append.1 hd with hd | hd
      · exact hblank d (hmem d (List.mem_append_left _ hd)) x hx₁ hx₂
      · rcases List.mem_cons.1 hd with rfl | hd
        · -- the rest of a split block was free before
          have hc : c ∈ L.free := by rw [hfree]; exact List.mem_append_right _ (List.mem_cons_self ..)
          apply hblank c hc <;> simp only [Block.rest, Block.data, Block.stop, sizeofBlock] at * <;> omega
        · exact hblank d (hmem d (List.mem_append_right _ hd)) x hx₁ hx₂
    · have hx := exec_alloc_whole hwf.sound s.dbSize_lt s.field_lt hL hfree hsmall hn (by omega)
      have ha := allocated_whole hL hwf hfree hsmall hn (by omega)
      rw [ha.run]
      refine ⟨_, ha.holds, ha.wellFormed, fun d hd x hx₁ hx₂ => ?_⟩
      have hd := hmem d hd
      have hkeep := payload_of_stores hwf (List.mem_append_left _ hd) hx.stores (fun y hy => hy) hx₁ hx₂ s.base
      exact hkeep.trans (hblank d hd x hx₁ hx₂)

theorem write (h : s.Blank) {b : Payload} (hb : b ∈ (guardedBuffer dbSize).usedBlocks s) {a : Nat} {bs : List UInt8}
    (ha : b.data ≤ a) (hsize : a + bs.length ≤ b.data + b.size) : ((guardedBuffer dbSize).write a bs s).Blank := by
  obtain ⟨L, hL, hwf, hblank⟩ := h
  rw [guardedBuffer_used hL hwf] at hb
  obtain ⟨c, hc, rfl⟩ := List.mem_map.1 hb
  simp only [Block.payload] at ha hsize
  obtain ⟨i, rfl⟩ : ∃ i, a = c.data + i := ⟨a - c.data, by omega⟩
  refine ⟨L, holds_write hL hwf.sound hc (by omega), hwf, fun d hd x hx₁ hx₂ => ?_⟩
  have hap := hwf.free_apart hc d hd
  have hout : setBytes s.base (c.data + i) bs x = s.base x := by
    apply setBytes_outside
    simp only [Block.Apart, Block.data, Block.stop, sizeofBlock] at *
    omega
  exact hout.trans (hblank d hd x hx₁ hx₂)

end FileBackedBuffer.Blank

/-- A new file is blank. -/
theorem emptyFile_blank (dbSize : Nat) (h40 : 40 ≤ dbSize) (h : dbSize < 2 ^ 31) : (emptyFile dbSize h).Blank := by
  obtain ⟨b, hb, hdb, hL, hwf⟩ := initBuffer_layout dbSize h40 h
  have hx := exec_initBuffer (headers_newFile h40 h) h40
  have hrun := hx.run _ rfl fun _ _ => rfl
  obtain rfl : b = (newFile dbSize h).after (initStores dbSize) := (Prod.mk.inj (Option.some.inj (hb.symm.trans hrun))).2
  have he : emptyFile dbSize h = (newFile dbSize h).after (initStores dbSize) := by rw [emptyFile, hb]; rfl
  rw [he]
  exact ⟨_, hL, hwf, fun d hd x hx₁ hx₂ =>
    payload_of_stores hwf (List.mem_append_left _ hd) hx.stores (fun y hy => hy) hx₁ hx₂ (newFile dbSize h).base⟩

end

/-! ### The calls -/

variable {N : Nat} {σ : Type} {B : Buffer σ} {Inv : σ → Prop} {hasher : Bytes → Nat} {s s' : State N σ} {i j c : Nat}
  {r : Request} {pc pc' : Pc} {rs : List Record} {chains : Fin N → List Nat}

/-- No two calls put the same key, and none puts a key of the records `rs`. -/
structure PutsOnce (rs : List Record) (s : State N σ) : Prop where
  once : ∀ (i j : Nat) (key value value' : Bytes) (pc pc' : Pc), s.threads[i]? = some ⟨.put key value, pc⟩ →
    s.threads[j]? = some ⟨.put key value', pc'⟩ → i = j
  new : ∀ (i : Nat) (key value : Bytes) (pc : Pc), s.threads[i]? = some ⟨.put key value, pc⟩ → key ∉ rs.map Record.key

/-- The entries of the log that belong to no call are the records of the file, and what a call holds is in a bucket. -/
structure Kept (rs : List Record) (s : State N σ) : Prop where
  file : ∀ e ∈ s.shared.log, e.thread = none → e.key ∈ rs.map Record.key
  held : ∀ (i : Nat) (th : Thread) (c : Nat), s.threads[i]? = some th → th.pc.control = some c →
    ∃ b, s.shared.loadPointer b = some c

/-- A record that is in a bucket is not freed. -/
theorem Kept.release (h : Kept rs s) (hs : Counted s) {th : Thread} (hth : s.threads[i]? = some th)
    (hc : th.control = some c) : (s.shared.release B c).buffer = s.shared.buffer := by
  obtain ⟨b, hb⟩ := h.held i th c hth hc
  obtain ⟨x, hx, -⟩ := hs.thread_live hth hc
  have hcount := hs.counts c x hx
  have hbucket := holders_bucket_pos hb
  have hthread : 0 < holders Thread.control s.threads c := holders_pos.2 ⟨th, List.mem_of_getElem? hth, hc⟩
  have hbuffer : (s.shared.release B c).buffer =
      if x.useCount = 1 then B.free x.record.data s.shared.buffer else s.shared.buffer := by rw [Shared.release, hx]
  rw [hbuffer, if_neg (by omega)]

variable [NeZero N]

theorem PutsOnce.of_step (h : PutsOnce rs s') (hs : Step B hasher s s') : PutsOnce rs s := by
  constructor
  · intro i j key value value' pc pc' hi hj
    obtain ⟨_, hi', -⟩ := hs.thread hi
    obtain ⟨_, hj', -⟩ := hs.thread hj
    exact h.once i j key value value' _ _ hi' hj'
  · intro i key value pc hi
    obtain ⟨_, hi', -⟩ := hs.thread hi
    exact h.new i key value _ hi'

/-- A `put` that did not take effect yet finds its key in no bucket. -/
private theorem PutsOnce.keyAt_ne (h : PutsOnce rs s) (hk : Kept rs s) (hset : Settled hasher B Inv s) (hrec : Recorded s)
    {key value : Bytes} (hth : s.threads[i]? = some ⟨.put key value, pc⟩) (heff : ¬ pc.Effective)
    (hstore : ∀ b, pc ≠ .storeBucket b) (b : Nat) : s.shared.keyAt b ≠ some key := by
  intro hb
  rcases hset.keyed.bucket b key hb with ⟨e, he, rfl⟩ | ⟨j, r, hj, hr⟩
  · cases hthread : e.thread with
    | none => exact h.new i _ value pc hth (hk.file e he hthread)
    | some j =>
      obtain ⟨pc', hj, heff'⟩ := hrec e he j hthread
      obtain rfl := h.once i j _ _ _ _ _ hth hj
      obtain ⟨-, rfl⟩ := Thread.mk.inj (Option.some.inj (hth.symm.trans hj))
      exact heff heff'
  · obtain ⟨chains, hc⟩ := hset.coherent
    cases r with
    | get key' => exact absurd trivial (hc.knows j _ hj).typed.1
    | put key' value' =>
      obtain rfl : key' = key := hr
      obtain rfl := h.once i j _ _ _ _ _ hth hj
      obtain ⟨-, rfl⟩ := Thread.mk.inj (Option.some.inj (hth.symm.trans hj))
      exact hstore b rfl

private theorem PutsOnce.loadPointer_eq_none (h : PutsOnce rs s) (hk : Kept rs s) (hset : Settled hasher B Inv s)
    (hrec : Recorded s) {p b : Nat} {isNew : Bool} (hth : s.threads[i]? = some ⟨r, .setPointer p b isNew⟩) :
    s.shared.loadPointer b = none := by
  obtain ⟨chains, hc⟩ := hset.coherent
  cases r with
  | get key => exact absurd rfl (hc.knows i _ hth).typed.1
  | put key value =>
    have htarget : Target hasher s.shared chains key b isNew := ((hc.knows i _ hth).put key value rfl).2
    cases isNew with
    | true => exact htarget.2.2.1
    | false =>
      have hloc : Located hasher s.shared chains key b := htarget
      exact absurd (bucketIn_eq_some hloc).2 (h.keyAt_ne hk hset hrec hth id (fun _ e => by cases e) b)

theorem Kept.step (hk : Kept rs s) (h : PutsOnce rs s) (hset : Settled hasher B Inv s) (hrec : Recorded s)
    (hs : Step B hasher s s') : Kept rs s' := by
  rcases hs.cases with ⟨r, -, rfl⟩ | ⟨i, r, pc, sh', pc', hth, hf, rfl⟩
  · refine ⟨hk.file, fun j th c hj hc => ?_⟩
    rcases getElem?_concat_cases hj with ⟨-, rfl⟩ | hj
    · cases hc
    · exact hk.held j th c hj hc
  · constructor
    · intro e he hnone
      rcases fires_log hf with hlog | ⟨hlog, -⟩
      · exact hk.file e (hlog ▸ he) hnone
      · rw [show (State.mk sh' (s.threads.set i ⟨r, pc'⟩)).shared.log = _ from hlog] at he
        rcases List.mem_append.1 he with he | he
        · exact hk.file e he hnone
        · obtain rfl := List.mem_singleton.1 he
          cases hnone
    · intro j th c hj hc
      show ∃ b, sh'.loadPointer b = some c
      rcases fires_control hf with ⟨p, b, isNew, log, rfl, rfl, hpc⟩ | ⟨-, -, hload, hctrl⟩
      · have hnone := h.loadPointer_eq_none hk hset hrec hth
        have hb := hset.safe.inRange.thread_lt i _ b hth rfl
        obtain ⟨b', hb'⟩ : ∃ b', s.shared.loadPointer b' = some c := by
          rcases getElem?_set_cases hj with ⟨rfl, rfl⟩ | ⟨-, hj⟩
          · rw [hpc, hnone] at hc
            cases hc
          · exact hk.held j th c hj hc
        refine ⟨b', ?_⟩
        show (s.shared.exchange B r p b).loadPointer b' = some c
        rw [exchange_loadPointer B hb, if_neg, hb']
        rintro rfl
        rw [hnone] at hb'
        cases hb'
      · have hold : ∃ b, s.shared.loadPointer b = some c := by
          rcases getElem?_set_cases hj with ⟨rfl, rfl⟩ | ⟨-, hj⟩
          · rcases hctrl c hc with hc | ⟨b, -, hb⟩
            · exact hk.held i _ c hth hc
            · exact ⟨b, hb⟩
          · exact hk.held j th c hj hc
        obtain ⟨b, hb⟩ := hold
        exact ⟨b, (hload b).trans hb⟩

private theorem Kept.used_suffix (hB : B.Lawful Inv) (hk : Kept rs s) (hset : Settled hasher B Inv s)
    (hs : Step B hasher s s') :
    B.usedBlocks s.shared.buffer <:+ B.usedBlocks s'.shared.buffer := by
  obtain ⟨pend, hstored⟩ := hset.safe.stored
  have hi := hstored.inv
  refine hset.safe.file_cases hs (P := fun t => B.usedBlocks s.shared.buffer <:+ B.usedBlocks t) List.suffix_rfl
    (fun i r _ => ?_) (fun i th c hth hc => ?_) fun i r pc _ _ b hb a bs ha hsize hbs => ?_
  · rcases ha : B.alloc (r.key.length + 1 + r.value.length + 1) s.shared.buffer with ⟨_ | p, t⟩
    · exact (hB.alloc_none hi ha).2.1 ▸ List.suffix_rfl
    · obtain ⟨-, size, -, -, hused, -⟩ := hB.alloc_some hi ha
      exact hused ▸ List.suffix_cons ..
  · have hkeep : (s.shared.release B c).buffer = s.shared.buffer := hk.release hset.safe.counted hth hc
    exact hkeep ▸ List.suffix_rfl
  · have hwrite := hB.write_used hi hb ha (show a + bs.length ≤ b.data + b.size by omega)
    exact hwrite.2.1 ▸ List.suffix_rfl

/-! ### Runs over the allocator of the code -/

section

variable {dbSize L : Nat} {s s' : State N FileBackedBuffer} {states : Nat → State N FileBackedBuffer}
  {file : FileBackedBuffer}

/-- What holds in every state that is reached while no key is put twice. -/
structure Undisturbed (hasher : Bytes → Nat) (dbSize : Nat) (rs : List Record) (s : State N FileBackedBuffer) : Prop where
  settled : Settled hasher (guardedBuffer dbSize) (FileBackedBuffer.Sound dbSize) s
  recorded : Recorded s
  kept : Kept rs s
  blank : s.shared.buffer.Blank

private theorem JustOpened.undisturbed (hopen : JustOpened hasher rs file s) (hi : file.Sound dbSize)
    (hf : FileHolds (guardedBuffer dbSize) file (rs.map Record.block) rs) (hb : file.Blank) : Undisturbed hasher dbSize rs s := by
  refine ⟨hopen.settled hi hf, fun e he i hthread => ?_, ⟨fun e he _ => ?_, fun i th c hth => ?_⟩, hopen.buffer ▸ hb⟩
  · rw [hopen.log] at he
    obtain ⟨rec, -, rfl⟩ := List.mem_map.1 he
    cases hthread
  · rw [hopen.log] at he
    obtain ⟨rec, hrec, rfl⟩ := List.mem_map.1 he
    exact List.mem_map_of_mem hrec
  · rw [hopen.threads] at hth
    cases hth

theorem Undisturbed.step (h : Undisturbed hasher dbSize rs s) (hp : PutsOnce rs s)
    (hs : Step (guardedBuffer dbSize) hasher s s') : Undisturbed hasher dbSize rs s' := by
  obtain ⟨chains, hc⟩ := h.settled.coherent
  refine ⟨h.settled.step (guardedBuffer_lawful dbSize) hs, h.recorded.step hc hs,
    h.kept.step hp h.settled h.recorded hs, ?_⟩
  refine h.settled.safe.file_cases hs (P := FileBackedBuffer.Blank) h.blank (fun i r _ => ?_) (fun i th c hth hc => ?_)
    fun i r pc _ _ b hb a bs ha hsize hbs => h.blank.write hb ha (by omega)
  · rw [guardedBuffer_alloc, allocUnlessStale_eq h.blank.not_staleSplit]
    exact h.blank.alloc
  · rw [h.kept.release h.settled.safe.counted hth hc]
    exact h.blank

private theorem Run.undisturbed (h : Run (plainBuffer dbSize) hasher s states L) (hs : Undisturbed hasher dbSize rs s)
    (hp : PutsOnce rs (states L)) :
    NoStaleSplitIn states L ∧ ∀ k ≤ L, Undisturbed hasher dbSize rs (states k) :=
  h.noStaleSplit hs hp (fun hstep hp => hp.of_step hstep) (fun h _ ⟨_, _, _, _, hst⟩ => h.blank.not_staleSplit hst)
    fun h hp hstep => h.step hp hstep

private theorem Run.used_suffix (h : Run (guardedBuffer dbSize) hasher s states L)
    (hall : ∀ k ≤ L, Undisturbed hasher dbSize rs (states k)) {m n : Nat} (hmn : m ≤ n) (hn : n ≤ L) :
    (guardedBuffer dbSize).usedBlocks (states m).shared.buffer <:+ (guardedBuffer dbSize).usedBlocks (states n).shared.buffer := by
  induction n, hmn using Nat.le_induction with
  | base => exact List.suffix_rfl
  | succ n _ ih =>
    have hlast := hall n (by omega)
    exact (ih (by omega)).trans (hlast.kept.used_suffix (guardedBuffer_lawful dbSize) hlast.settled (h.step n hn))

end

/-- While no key is put twice, nor one that the file has, a store needs no assumption on the allocator, whatever the sizes of
its records: from a blank file, such as a new one, every run over the code's `alloc` makes no stale split, keeps the file
well formed and blank, takes no block back, and its calls are linearizable. -/
theorem puts_once_linearizable {dbSize : Nat} {file : FileBackedBuffer} (hdb : file.dbSize = dbSize) (hb : file.Blank)
    {rs : List Record} (hf : FileHolds (plainBuffer dbSize) file (rs.map Record.block) rs) (hasher : Bytes → Nat) :
    ∃ s₀, State.opened (N := N) (plainBuffer dbSize) hasher file = some s₀ ∧
      ∀ states L, Run (plainBuffer dbSize) hasher s₀ states L → PutsOnce rs (states L) →
        NoStaleSplitIn states L ∧
        (∀ k ≤ L, WellFormed (states k).shared.buffer ∧ (states k).shared.buffer.Blank) ∧
        (∀ m n, m ≤ n → n ≤ L → (plainBuffer dbSize).usedBlocks (states m).shared.buffer <:+
          (plainBuffer dbSize).usedBlocks (states n).shared.buffer) ∧
        Linearization.Linearizable MapStep (lastValue rs) (runHistory states L) := by
  obtain ⟨s₀, hs₀, hopen⟩ := opened_of_holds (N := N) hf hasher
  have hsound : file.Sound dbSize := ⟨hdb, hb.wellFormed⟩
  refine ⟨s₀, hs₀, fun states L h hp => ?_⟩
  obtain ⟨hns, hall⟩ := h.undisturbed (hopen.undisturbed hsound hf.guarded hb) hp
  refine ⟨hns, fun k hk => ⟨(hall k hk).blank.wellFormed, (hall k hk).blank⟩, fun m n hmn hn => ?_, ?_⟩
  · rw [plainBuffer_usedBlocks]
    exact (h.guarded hns).used_suffix hall hmn hn
  · exact (h.guarded hns).linearizable (guardedBuffer_lawful dbSize) (hopen.safe hsound hf.guarded) hopen

theorem puts_once_linearizable_of_new_file :
    ∃ s₀, State.opened (N := 1) (plainBuffer 220) List.length (emptyFile 220 (by decide)) = some s₀ ∧
      ∀ states L, Run (plainBuffer 220) List.length s₀ states L → PutsOnce [] (states L) →
        NoStaleSplitIn states L ∧
        (∀ k ≤ L, WellFormed (states k).shared.buffer ∧ (states k).shared.buffer.Blank) ∧
        (∀ m n, m ≤ n → n ≤ L → (plainBuffer 220).usedBlocks (states m).shared.buffer <:+
          (plainBuffer 220).usedBlocks (states n).shared.buffer) ∧
        Linearization.Linearizable MapStep (lastValue []) (runHistory states L) := by
  obtain ⟨hi, hs⟩ := emptyFile_sound 220 (by decide) (by decide)
  have hf : FileHolds (plainBuffer 220) (emptyFile 220 (by decide)) (([] : List Record).map Record.block) [] :=
    fileHolds_empty hs
  exact puts_once_linearizable hi.1 (emptyFile_blank 220 (by decide) (by decide)) hf List.length

end KeyValueStore
