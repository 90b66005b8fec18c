import KeyValueStore.Grid
import KeyValueStore.Opened

/-!
# A kill while the file is initialised

The constructor initialises a new file with five stores, and only a new file: one that exists is taken as it is.  The last two
of the stores write `NULL_OFFSET` where the file is zero, so a kill behind the third one leaves an initialised file.  A kill
before it leaves a free list without a block that has room for a record, and no later process mends it: every `put` returns
`false`, every `get` the empty string, and the file never changes (`init_kill`).
-/

namespace KeyValueStore

open ByteMemory ConcurrentHashTable SinglyLinked

/-- The file after a kill behind `k` of the stores of the initialisation, as the next process maps it. -/
def initKilled (dbSize : Nat) (h : dbSize < 2 ^ 31) (k : Nat) : Option FileBackedBuffer :=
  (killedAfter initBuffer (newFile dbSize h) k).map fun m => ⟨dbSize, h, m, []⟩

section

variable {dbSize k : Nat} {s : FileBackedBuffer}

private theorem killedAfter_initBuffer (h40 : 40 ≤ dbSize) (h : dbSize < 2 ^ 31) (k : Nat) :
    killedAfter initBuffer (newFile dbSize h) k = some (applyStores (newFile dbSize h).base ((initStores dbSize).take k)) := by
  have hrun := (exec_initBuffer (headers_newFile h40 h) h40).run (newFile dbSize h) rfl fun _ _ => rfl
  show (initBuffer (newFile dbSize h)).map _ = _
  rw [hrun]
  rfl

theorem initKilled_eq (h40 : 40 ≤ dbSize) (h : dbSize < 2 ^ 31) (k : Nat) : initKilled dbSize h k =
    some ⟨dbSize, h, applyStores (newFile dbSize h).base ((initStores dbSize).take k), []⟩ := by
  rw [initKilled, killedAfter_initBuffer h40 h]
  rfl

private theorem word_initStores (h40 : 40 ≤ dbSize) (h : dbSize < 2 ^ 31) (k : Nat) {f : Field} (hf : f.On {x | x ∈ [16]}) :
    word (applyStores (newFile dbSize h).base ((initStores dbSize).take k)) f.address =
      Words.after (fun _ => nullOffset) ((initStores dbSize).take k) f := by
  have hD := headers_newFile h40 h
  have hstores : StoresOn {x | x ∈ [16]} ((initStores dbSize).take k) :=
    fun w hw => (exec_initBuffer hD h40).stores w (List.mem_of_mem_take hw)
  exact (Agrees.after hD (fun _ _ => rfl) hstores f hf).trans (Words.after_congr (newFile_field dbSize h f) _)

private theorem initKilled_field (h40 : 40 ≤ dbSize) (h : dbSize < 2 ^ 31) (hs : initKilled dbSize h k = some s) {f : Field}
    (hf : f.On {x | x ∈ [16]}) : s.field f = Words.after (fun _ => nullOffset) ((initStores dbSize).take k) f := by
  rw [initKilled_eq h40 h] at hs
  obtain rfl := Option.some.inj hs
  exact word_initStores h40 h k hf

private theorem applyStores_null {m : Mem} {ws : List (Field × Nat)} {f : Field}
    (h : word (applyStores m ws) f.address = nullOffset) :
    applyStores m (ws ++ [(f, nullOffset)]) = applyStores m ws := by
  rw [applyStores, List.foldl_append]
  exact setWord_of_zero h

/-- From the third store on the file is initialised. -/
private theorem applyStores_initStores (h40 : 40 ≤ dbSize) (h : dbSize < 2 ^ 31) (hk : 3 ≤ k) :
    applyStores (newFile dbSize h).base ((initStores dbSize).take k) =
      applyStores (newFile dbSize h).base (initStores dbSize) := by
  have hprev : word (applyStores (newFile dbSize h).base ((initStores dbSize).take 3)) (Field.prevBlockOffset 16).address =
      nullOffset := by
    rw [word_initStores h40 h 3 (show (Field.prevBlockOffset 16).On {x | x ∈ [16]} from List.mem_singleton_self 16)]
    simp [initStores]
  have hnext : word (applyStores (newFile dbSize h).base ((initStores dbSize).take 4)) (Field.nextBlockOffset 16).address =
      nullOffset := by
    rw [word_initStores h40 h 4 (show (Field.nextBlockOffset 16).On {x | x ∈ [16]} from List.mem_singleton_self 16)]
    simp [initStores]
  have htake₄ : (initStores dbSize).take 4 = (initStores dbSize).take 3 ++ [(.prevBlockOffset 16, nullOffset)] := rfl
  have htake₅ : initStores dbSize = (initStores dbSize).take 4 ++ [(.nextBlockOffset 16, nullOffset)] := rfl
  have hfour := applyStores_null hprev
  have hfive := applyStores_null hnext
  rw [← htake₄] at hfour
  rw [← htake₅] at hfive
  rcases Nat.lt_or_ge k 5 with hlt | hge
  · obtain rfl | rfl : k = 3 ∨ k = 4 := by omega
    · rw [hfive, hfour]
    · rw [hfive]
  · rw [List.take_of_length_le hge]

private theorem killedAfter_initBuffer_of_three (h40 : 40 ≤ dbSize) (h : dbSize < 2 ^ 31) (hk : 3 ≤ k) :
    killedAfter initBuffer (newFile dbSize h) k = some (emptyFile dbSize h).base := by
  have hrun := (exec_initBuffer (headers_newFile h40 h) h40).run (newFile dbSize h) rfl fun _ _ => rfl
  rw [killedAfter_initBuffer h40 h, applyStores_initStores h40 h hk, emptyFile, hrun]
  rfl

/-- The free list is empty, or its only block has no payload; the used list is empty. -/
structure Barren (s : FileBackedBuffer) : Prop where
  size : 40 ≤ s.dbSize
  used : s.field .nextUsedBlockOffset = nullOffset
  free : s.field .nextFreeBlockOffset = nullOffset ∨ s.field .nextFreeBlockOffset = 16 ∧
    s.field (.dataSize 16) = 0 ∧ s.field (.nextBlockOffset 16) = nullOffset

private theorem initKilled_barren (h40 : 40 ≤ dbSize) (h : dbSize < 2 ^ 31) (hk : k < 3)
    (hs : initKilled dbSize h k = some s) :
    Barren s := by
  have hdb : s.dbSize = dbSize := by
    rw [initKilled_eq h40 h] at hs
    exact (Option.some.inj hs) ▸ rfl
  have hsize : (Field.dataSize 16).On {x | x ∈ [16]} := List.mem_singleton_self 16
  have hnext : (Field.nextBlockOffset 16).On {x | x ∈ [16]} := List.mem_singleton_self 16
  have hused : Field.nextUsedBlockOffset.On {x | x ∈ [16]} := trivial
  have hfree : Field.nextFreeBlockOffset.On {x | x ∈ [16]} := trivial
  refine ⟨hdb ▸ h40, ?_, ?_⟩
  · rw [initKilled_field h40 h hs hused]
    obtain rfl | rfl | rfl : k = 0 ∨ k = 1 ∨ k = 2 := by omega
    all_goals simp [initStores]
  · rw [initKilled_field h40 h hs hfree, initKilled_field h40 h hs hsize, initKilled_field h40 h hs hnext]
    obtain rfl | rfl | rfl : k = 0 ∨ k = 1 ∨ k = 2 := by omega
    all_goals simp [initStores, nullOffset]

theorem Barren.headers (h : Barren s) : Headers {x | x ∈ [16]} s.dbSize s.field := by
  have h40 := h.size
  refine ⟨s.dbSize_lt, by omega, ?_, ?_, fun f _ => FileBackedBuffer.field_lt _ f⟩
  · intro b hb
    rw [List.mem_singleton.1 hb]
    omega
  · intro b hb c hc
    exact Or.inl ((List.mem_singleton.1 hb).trans (List.mem_singleton.1 hc).symm)

/-- No block is found. -/
theorem Barren.alloc (h : Barren s) {n : Nat} (hn : 0 < n) : KeyValueStore.alloc n s = some (none, s) := by
  have hD := h.headers
  have hsize : (Field.dataSize 16).On {x | x ∈ [16]} := List.mem_singleton_self 16
  have hnext : (Field.nextBlockOffset 16).On {x | x ∈ [16]} := List.mem_singleton_self 16
  have hend : ∀ fuel, Exec {x | x ∈ [16]} s.dbSize s.field (allocLoop n (fuel + 1) nullOffset) none [] := by
    intro fuel
    rw [allocLoop, if_pos rfl]
    exact exec_pure none
  have hfree : Field.nextFreeBlockOffset.On {x | x ∈ [16]} := trivial
  have hx : Exec {x | x ∈ [16]} s.dbSize s.field (KeyValueStore.alloc n) none [] := by
    unfold KeyValueStore.alloc
    refine exec_get_bind hD fun t ht => exec_load_bind hD hfree ?_
    obtain ⟨fuel, hfuel⟩ : ∃ fuel, t.dbSize = fuel + 1 + 1 := ⟨t.dbSize - 2, by have := h.size; omega⟩
    rw [hfuel]
    rcases h.free with hf | ⟨hf, hs, hl⟩
    · rw [hf]
      exact hend _
    · rw [hf, allocLoop, if_neg (by decide)]
      refine exec_load_bind hD hsize ?_
      rw [hs, if_neg (by omega)]
      refine exec_load_bind hD hnext ?_
      rw [hl]
      exact hend _
  have hrun := hx.run s rfl fun _ _ => rfl
  rwa [FileBackedBuffer.after_nil] at hrun

theorem Barren.usedBlocks (h : Barren s) : (plainBuffer dbSize).usedBlocks s = [] := by
  have hD := h.headers
  have hused : Field.nextUsedBlockOffset.On {x | x ∈ [16]} := trivial
  have hx : Exec {x | x ∈ [16]} s.dbSize s.field KeyValueStore.usedBlocks [] [] := by
    unfold KeyValueStore.usedBlocks
    refine exec_get_bind hD fun t ht => exec_load_bind hD hused ?_
    obtain ⟨fuel, hfuel⟩ : ∃ fuel, t.dbSize = fuel + 1 := ⟨t.dbSize - 1, by have := h.size; omega⟩
    rw [hfuel, h.used, usedFrom, if_pos rfl]
    exact exec_pure []
  have hrun := hx.run s rfl fun _ _ => rfl
  show ((KeyValueStore.usedBlocks s).elim [] Prod.fst).map _ = _
  rw [hrun]
  rfl

end

/-! ### A store without room -/

variable {N : Nat} [NeZero N] {σ : Type} {B : Buffer σ} {hasher : Bytes → Nat} {file : σ} {s s' : State N σ}
  {sh sh' : Shared N σ} {i : Nat} {r : Request} {pc pc' : Pc}

/-- What a call returns. -/
def Request.refusal : Request → Result
  | .get _ => .value []
  | .put _ _ => .ok false

/-- Where a call stands: a `get` finds an empty chain, and a `put` gets no block. -/
def Pc.Refused (r : Request) : Pc → Prop
  | .called => True
  | .locked => ∃ key value, r = .put key value
  | .found none none => ∃ key, r = .get key
  | .unlock ok => ok = false ∧ ∃ key value, r = .put key value
  | .returned res => res = r.refusal
  | _ => False

/-- No bucket is made and the file is unchanged. -/
structure Refusing (file : σ) (s : State N σ) : Prop where
  buffer : s.shared.buffer = file
  hashTable : ∀ x, s.shared.hashTable x = none
  threads : ∀ (i : Nat) (th : Thread), s.threads[i]? = some th → th.pc.Refused th.request

private theorem fires_refused (hfull : ∀ n, 0 < n → B.alloc n sh.buffer = (none, sh.buffer))
    (hempty : ∀ x, sh.hashTable x = none) (hpc : pc.Refused r) (h : Fires B hasher sh i r pc sh' pc') :
    sh'.buffer = sh.buffer ∧ sh'.hashTable = sh.hashTable ∧ pc'.Refused r := by
  cases h with
  | @getHead key hr =>
    refine ⟨rfl, rfl, ?_⟩
    rw [Shared.loadHead, hempty]
    exact ⟨key, hr⟩
  | @lock key value hr => exact ⟨rfl, rfl, key, value, hr⟩
  | allocFail ha =>
    rw [hfull _ (by omega)] at ha
    exact ⟨(Prod.mk.inj ha).2.symm, rfl, rfl, hpc⟩
  | alloc ha =>
    rw [hfull _ (by omega)] at ha
    cases (Prod.mk.inj ha).1
  | miss =>
    obtain ⟨key, rfl⟩ := hpc
    exact ⟨rfl, rfl, rfl⟩
  | unlock =>
    obtain ⟨rfl, key, value, rfl⟩ := hpc
    exact ⟨rfl, rfl, rfl⟩
  | _ => cases hpc

theorem Refusing.step (hfull : ∀ n, 0 < n → B.alloc n file = (none, file)) (h : Refusing file s)
    (hs : Step B hasher s s') : Refusing file s' := by
  rcases hs.cases with ⟨r, -, rfl⟩ | ⟨i, r, pc, sh', pc', hth, hf, rfl⟩
  · refine ⟨h.buffer, h.hashTable, fun j th hj => ?_⟩
    rcases getElem?_concat_cases hj with ⟨-, rfl⟩ | hj
    · trivial
    · exact h.threads j th hj
  · obtain ⟨hbuffer, htable, hpc⟩ := fires_refused (h.buffer ▸ hfull) h.hashTable (h.threads i _ hth) hf
    refine ⟨hbuffer.trans h.buffer, fun x => (congrFun htable x).trans (h.hashTable x), fun j th hj => ?_⟩
    rcases getElem?_set_cases hj with ⟨-, rfl⟩ | ⟨-, hj⟩
    · exact hpc
    · exact h.threads j th hj

theorem Refusing.reaches (hfull : ∀ n, 0 < n → B.alloc n file = (none, file)) (h : Refusing file s)
    (hs : Reaches B hasher s s') : Refusing file s' := by
  induction hs with
  | refl => exact h
  | tail _ hstep ih => exact ih.step hfull hstep

/-- A file without records in which no block is found is refused by the store for ever. -/
private theorem opened_refusing (hempty : B.usedBlocks file = []) (hfull : ∀ n, 0 < n → B.alloc n file = (none, file))
    (hasher : Bytes → Nat) : ∃ s₀, State.opened (N := N) B hasher file = some s₀ ∧
      ∀ s, Reaches B hasher s₀ s → Refusing file s := by
  have hf : FileHolds B file (([] : List Record).map Record.block) [] := fileHolds_empty hempty
  obtain ⟨s₀, hs₀, hopen⟩ := opened_of_holds (N := N) hf hasher
  refine ⟨s₀, hs₀, fun s hs => Refusing.reaches hfull ⟨hopen.buffer, fun x => ?_, fun j th hj => ?_⟩ hs⟩
  · exact hopen.chains x
  · rw [hopen.threads] at hj
    cases hj

/-- A kill behind the third store of the initialisation, or a later one, leaves an initialised file.  After an earlier one
every `put` of every later process returns `false`, every `get` the empty string, and the file stays as it is. -/
theorem init_kill {dbSize : Nat} (h40 : 40 ≤ dbSize) (h : dbSize < 2 ^ 31) (k : Nat) :
    ∃ b, initKilled dbSize h k = some b ∧
      (3 ≤ k → b.base = (emptyFile dbSize h).base) ∧
      (k < 3 → ∀ (N : Nat) [NeZero N] (hasher : Bytes → Nat),
        ∃ s₀, State.opened (N := N) (plainBuffer dbSize) hasher b = some s₀ ∧
          ∀ s, Reaches (plainBuffer dbSize) hasher s₀ s → s.shared.buffer = b ∧
            ∀ (i : Nat) (r : Request) (res : Result), s.threads[i]? = some ⟨r, .returned res⟩ → res = r.refusal) := by
  have hb := initKilled_eq h40 h k
  refine ⟨_, hb, fun hk => ?_, fun hk N _ hasher => ?_⟩
  · have hfull := killedAfter_initBuffer_of_three h40 h hk
    rw [killedAfter_initBuffer h40 h] at hfull
    exact Option.some.inj hfull
  · have hbarren := initKilled_barren h40 h hk hb
    obtain ⟨s₀, hs₀, hrefusing⟩ := opened_refusing (N := N) (B := plainBuffer dbSize) hbarren.usedBlocks
      (fun n hn => by rw [plainBuffer_alloc, allocPlain, hbarren.alloc hn]; rfl) hasher
    refine ⟨s₀, hs₀, fun s hs => ⟨(hrefusing s hs).buffer, fun i r res hi => ?_⟩⟩
    exact (hrefusing s hs).threads i _ hi

theorem init_kill_after_one_store :
    ∃ b, initKilled 220 (by decide) 1 = some b ∧
      (3 ≤ 1 → b.base = (emptyFile 220 (by decide)).base) ∧
      (1 < 3 → ∀ (N : Nat) [NeZero N] (hasher : Bytes → Nat),
        ∃ s₀, State.opened (N := N) (plainBuffer 220) hasher b = some s₀ ∧
          ∀ s, Reaches (plainBuffer 220) hasher s₀ s → s.shared.buffer = b ∧
            ∀ (i : Nat) (r : Request) (res : Result), s.threads[i]? = some ⟨r, .returned res⟩ → res = r.refusal) :=
  init_kill (by decide) (by decide) 1

end KeyValueStore
