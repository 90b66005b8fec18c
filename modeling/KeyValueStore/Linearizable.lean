import KeyValueStore.GuardedRuns
import KeyValueStore.Reload
import KeyValueStore.Search

/-!
# A `get` among `put`s

The map is the one of the log: it changes when a `put` stores a record pointer in a linked bucket, or links a bucket.  A
`get` returns the value that the map had at some time between its first and its last step, in every run (`Run`), and so
never a value older than that of a `put` that had returned before it started.
-/

namespace KeyValueStore

open SinglyLinked ConcurrentHashTable

variable {N : Nat} [NeZero N] {σ : Type} {B : Buffer σ} {Inv : σ → Prop} {hasher : Bytes → Nat} {s s' : State N σ}
  {states : Nat → State N σ} {L : Nat} {file : σ} {rs : List Record} {i : Nat} {r : Request} {pc pc' : Pc}

/-! ### The store that was just opened -/

theorem mapOf_loaded (rs : List Record) (key : Bytes) :
    mapOf (rs.map fun r => ⟨none, r.key, r.value⟩) key = lastValue rs key := by
  rw [mapOf, List.filter_map, List.getLast?_map, lastValue]
  change ((rs.filter fun r => r.key = key).getLast?.map _).elim [] LogEntry.value = _
  cases (rs.filter fun r => r.key = key).getLast? <;> rfl

theorem JustOpened.recordAt (h : JustOpened hasher rs file s) (b : Nat) : s.shared.recordAt b = rs[b]? := by
  rw [Shared.recordAt, h.loadPointer]
  split
  · rename_i hb
    have hrev : rs.reverse[rs.length - 1 - b]? = rs[b]? := by
      rw [List.getElem?_reverse (by omega)]
      congr 1
      omega
    rw [Option.bind_some, h.controls, List.getElem?_map, hrev, Option.map_map]
    exact Option.map_id'
  · rename_i hb
    rw [Option.bind_none, List.getElem?_eq_none (by omega)]

theorem JustOpened.published (h : JustOpened hasher rs file s) :
    Published hasher s.shared fun x => chain (rs.map fun r => hashTableIndex hasher r.key) x := by
  refine ⟨h.chains, fun x b hb => ?_, fun key => ?_⟩
  · rw [mem_chain, List.getElem?_map] at hb
    obtain ⟨rec, hrec, hx⟩ := Option.map_eq_some_iff.1 hb
    exact ⟨rec, (h.recordAt b).trans hrec, hx⟩
  · have hfind : s.shared.bucketIn (chain (rs.map fun r => hashTableIndex (N := N) hasher r.key) (hashTableIndex hasher key))
        key = lookup ((rs.map fun r => (r, hashTableIndex (N := N) hasher r.key)).map entry) (hashTableIndex hasher key) key := by
      rw [lookup_eq_find?, List.map_map, List.map_map]
      refine List.find?_congr fun b _ => ?_
      rw [Shared.keyAt, h.recordAt, List.getElem?_map]
      cases rs[b]? with
      | none => rfl
      | some rec => exact decide_eq_decide.2 (by simp [entry])
    rw [h.log, mapOf_loaded, ← current_reloaded (N := N) hasher, current_eq_lookup, hfind]
    cases lookup _ _ _ with
    | none => rfl
    | some b =>
      rw [Option.bind_some, Option.bind_some, h.recordAt, List.getElem?_map]
      cases rs[b]? <;> rfl

theorem JustOpened.coherent (h : JustOpened hasher rs file s) (was : Nat → Bytes → Prop) :
    Coherent hasher was s fun x => chain (rs.map fun r => hashTableIndex hasher r.key) x := by
  refine ⟨h.published, fun i th hi => by simp [h.threads] at hi, fun b c hb => Or.inl ?_⟩
  have hlt := (h.loadPointer_lt hb).1
  exact ⟨hashTableIndex hasher rs[b].key, mem_chain.2 (by simp [List.getElem?_eq_getElem hlt])⟩

/-! ### Runs -/

/-- Entries are added at the end of the log. -/
theorem Step.log (h : Step B hasher s s') : s.shared.log <+: s'.shared.log := by
  rcases h.cases with ⟨r, -, rfl⟩ | ⟨i, r, pc, sh', pc', -, hf, rfl⟩
  · exact List.prefix_rfl
  · by_cases hp : pc.Publishes
    · rcases fires_publishes hf hp with ⟨p, -, -, rfl⟩ | ⟨p, b, isNew, -, -, rfl⟩ | ⟨b, -, -, rfl⟩
      · exact List.prefix_rfl
      · cases isNew with
        | true => exact List.prefix_rfl
        | false => exact List.prefix_append _ _
      · exact List.prefix_append _ _
    · exact (fires_quiet hf hp).log.symm ▸ List.prefix_rfl

theorem fires_started {sh sh' : Shared N σ} (h : Fires B hasher sh i r pc sh' pc') : pc' ≠ .called := by
  cases h with
  | getHead => unfold Shared.loadHead; split <;> simp
  | loadHead => unfold Shared.loadHead; split <;> simp
  | dropCompared => split <;> simp
  | dropOld => unfold Shared.afterSet; split <;> simp
  | setFresh => unfold Shared.afterSet; split <;> simp
  | _ => simp

/-- A call stays the same call, and once it has started it has. -/
theorem Step.thread (h : Step B hasher s s') {th : Thread} (hth : s.threads[i]? = some th) :
    ∃ pc', s'.threads[i]? = some ⟨th.request, pc'⟩ ∧ (th.pc ≠ .called → pc' ≠ .called) := by
  rcases h.cases with ⟨r, -, rfl⟩ | ⟨j, r, pc, sh', pc', hj, hf, rfl⟩
  · refine ⟨th.pc, ?_, id⟩
    exact getElem?_of_extends (List.prefix_append ..) hth
  · by_cases hij : j = i
    · subst hij
      obtain rfl := Option.some.inj (hj.symm.trans hth)
      refine ⟨pc', ?_, fun _ => fires_started hf⟩
      exact List.getElem?_set_self (List.getElem?_eq_some_iff.1 hth).1
    · refine ⟨th.pc, ?_, id⟩
      rw [List.getElem?_set_ne hij, hth]

theorem Run.log (h : Run B hasher s states L) {m n : Nat} (hmn : m ≤ n) (hn : n ≤ L) :
    (states m).shared.log <+: (states n).shared.log := by
  induction n, hmn using Nat.le_induction with
  | base => exact List.prefix_rfl
  | succ n _ ih => exact (ih (by omega)).trans (h.step n hn).log

theorem Run.thread (h : Run B hasher s states L) {m n : Nat} (hmn : m ≤ n) (hn : n ≤ L) {th : Thread}
    (hth : (states m).threads[i]? = some th) :
    ∃ pc', (states n).threads[i]? = some ⟨th.request, pc'⟩ ∧ (th.pc ≠ .called → pc' ≠ .called) := by
  induction n, hmn using Nat.le_induction with
  | base => exact ⟨th.pc, hth, id⟩
  | succ n _ ih =>
    obtain ⟨pc₁, h₁, hs₁⟩ := ih (by omega)
    obtain ⟨pc₂, h₂, hs₂⟩ := (h.step n hn).thread h₁
    exact ⟨pc₂, h₂, fun hc => hs₂ (hs₁ hc)⟩

/-- The map has held the value for the key of the call while it ran. -/
def Held (states : Nat → State N σ) (n i : Nat) (value : Bytes) : Prop :=
  ∃ m ≤ n, ∃ th, (states m).threads[i]? = some th ∧ th.pc.Running ∧ mapOf (states m).shared.log th.request.key = value

/-- The invariants hold in every state of a run. -/
theorem Run.coherent (hB : B.Lawful Inv) (h : Run B hasher s states L) (hs : Safe B Inv s)
    (hopen : JustOpened hasher rs file s) :
    ∃ chains, Safe B Inv (states L) ∧ Coherent hasher (Held states L) (states L) chains := by
  induction L with
  | zero =>
    rw [h.start]
    exact ⟨_, hs, hopen.coherent _⟩
  | succ n ih =>
    obtain ⟨chains, hsafe, hc⟩ := ih (h.take (Nat.le_succ n))
    have hstep := h.step n (Nat.lt_succ_self n)
    -- what was held is held, and a call that runs now sees the map of this state
    have hlater : ∀ i v, Held states n i v → Held states (n + 1) i v := by
      rintro i v ⟨m, hm, hv⟩
      exact ⟨m, by omega, hv⟩
    obtain ⟨chains', hc'⟩ : ∃ chains', Coherent hasher (Held states (n + 1)) (states (n + 1)) chains' :=
      hc.step hsafe hstep hlater fun i th hi hrun => ⟨n + 1, Nat.le_refl _, th, hi, hrun, rfl⟩
    exact ⟨chains', hsafe.step hB hstep, hc'⟩

/-! ### The value that is returned -/

private theorem mapOf_of_entry {log : List LogEntry} {p : Nat} {e : LogEntry} (hp : log[p]? = some e) :
    ∃ q e', p ≤ q ∧ log[q]? = some e' ∧ e'.key = e.key ∧ e'.value = mapOf log e.key := by
  induction log using List.reverseRecOn with
  | nil => cases hp
  | append_singleton log e₁ ih =>
    rw [mapOf_concat]
    by_cases hk : e₁.key = e.key
    · refine ⟨log.length, e₁, ?_, by simp, hk, by rw [if_pos hk]⟩
      have := (List.getElem?_eq_some_iff.1 hp).1
      rw [List.length_append, List.length_singleton] at this
      omega
    · rcases getElem?_concat_cases hp with ⟨-, rfl⟩ | hp
      · exact absurd rfl hk
      · obtain ⟨q, e', hpq, hq, hke, hv⟩ := ih hp
        refine ⟨q, e', hpq, ?_, hke, by rw [if_neg hk, hv]⟩
        exact getElem?_of_extends (List.prefix_append ..) hq

/-- What the `get`s of a run return. -/
structure Linearizable (states : Nat → State N σ) (L : Nat) : Prop where
  /-- a value -/
  value : ∀ (i : Nat) (key : Bytes) (result : Result), (states L).threads[i]? = some ⟨.get key, .returned result⟩ →
    ∃ value, result = .value value
  /-- which the map had between the first step and the last -/
  current : ∀ (i : Nat) (key value : Bytes), (states L).threads[i]? = some ⟨.get key, .returned (.value value)⟩ →
    ∃ m ≤ L, ∃ pc : Pc, (states m).threads[i]? = some ⟨.get key, pc⟩ ∧ pc.Running ∧
      mapOf (states m).shared.log key = value
  /-- and which is that of a `put` that had returned before the first step, or of a later one -/
  recent : ∀ (i : Nat) (key value : Bytes), (states L).threads[i]? = some ⟨.get key, .returned (.value value)⟩ →
    ∀ m ≤ L, (∀ th : Thread, (states m).threads[i]? = some th → th.pc = .called) →
      ∀ (j : Nat) (v : Bytes), (states m).threads[j]? = some ⟨.put key v, .returned (.ok true)⟩ →
        ∃ (p q : Nat) (e : LogEntry), p ≤ q ∧ (states L).shared.log[p]? = some ⟨some j, key, v⟩ ∧
          (states L).shared.log[q]? = some e ∧ e.key = key ∧ e.value = value

theorem Run.current (hB : B.Lawful Inv) (h : Run B hasher s states L) (hs : Safe B Inv s)
    (hopen : JustOpened hasher rs file s) {key value : Bytes}
    (hi : (states L).threads[i]? = some ⟨.get key, .returned (.value value)⟩) :
    ∃ m ≤ L, ∃ pc : Pc, (states m).threads[i]? = some ⟨.get key, pc⟩ ∧ pc.Running ∧
      mapOf (states m).shared.log key = value := by
  obtain ⟨chains, -, hc⟩ := h.coherent hB hs hopen
  have hheld : Held states L i value := (hc.knows i _ hi).get key rfl
  obtain ⟨m, hm, th, hth, hrun, hv⟩ := hheld
  obtain ⟨pc, hpc, -⟩ := h.thread hm (Nat.le_refl L) hth
  have hreq : th.request = .get key := by
    have := hi.symm.trans hpc
    simp only [Option.some.injEq, Thread.mk.injEq] at this
    exact this.1.symm
  obtain ⟨r, pc⟩ := th
  obtain rfl : r = .get key := hreq
  exact ⟨m, hm, pc, hth, hrun, hv⟩

private theorem Run.recent (hB : B.Lawful Inv) (h : Run B hasher s states L) (hs : Safe B Inv s)
    (hopen : JustOpened hasher rs file s) {key value : Bytes}
    (hi : (states L).threads[i]? = some ⟨.get key, .returned (.value value)⟩) {m : Nat} (hm : m ≤ L)
    (hcalled : ∀ th : Thread, (states m).threads[i]? = some th → th.pc = .called) {j : Nat} {v : Bytes}
    (hj : (states m).threads[j]? = some ⟨.put key v, .returned (.ok true)⟩) :
    ∃ (p q : Nat) (e : LogEntry), p ≤ q ∧ (states L).shared.log[p]? = some ⟨some j, key, v⟩ ∧
      (states L).shared.log[q]? = some e ∧ e.key = key ∧ e.value = value := by
  obtain ⟨n, hn, pc, hth, hrun, hv⟩ := h.current hB hs hopen hi
  -- the call has started when the map has the value, so that is later
  have hmn : m ≤ n := by
    by_contra hnm
    obtain ⟨pc', hpc', hstarted⟩ := h.thread (Nat.le_of_lt (Nat.lt_of_not_le hnm)) hm hth
    refine hstarted ?_ (hcalled _ hpc')
    rintro rfl
    exact hrun
  have hlogged : (⟨some j, key, v⟩ : LogEntry) ∈ (states m).shared.log := by
    obtain ⟨chains, -, hc⟩ := (h.take hm).coherent hB hs hopen
    exact ((hc.knows j _ hj).put key v rfl).2 rfl
  obtain ⟨p, hp⟩ := List.mem_iff_getElem?.1 ((h.log hmn hn).subset hlogged)
  obtain ⟨q, e, hpq, hq, hk, hev⟩ := mapOf_of_entry hp
  have hlater := h.log hn (Nat.le_refl L)
  exact ⟨p, q, e, hpq, getElem?_of_extends hlater hp, getElem?_of_extends hlater hq, hk, hev.trans hv⟩

theorem Run.gets (hB : B.Lawful Inv) (h : Run B hasher s states L) (hs : Safe B Inv s) (hopen : JustOpened hasher rs file s) :
    Linearizable states L := by
  refine ⟨fun i key result hres => ?_, fun i key value hres => h.current hB hs hopen hres,
    fun i key value hres m hm hcalled j v hj => h.recent hB hs hopen hres hm hcalled hj⟩
  obtain ⟨chains, -, hc⟩ := h.coherent hB hs hopen
  cases result with
  | value value => exact ⟨value, rfl⟩
  | ok ok => exact absurd rfl ((hc.knows i _ hres).typed.2 ok)

/-- In every run from a file of records in which no split is stale, a `get` that returns has the value that the map had for
its key at some time between its first and its last step. -/
theorem get_linearizable {dbSize : Nat} {file : FileBackedBuffer} (hi : file.Sound dbSize) {rs : List Record}
    (hf : FileHolds (plainBuffer dbSize) file (rs.map Record.block) rs) (hasher : Bytes → Nat) :
    ∃ s₀, State.opened (N := N) (plainBuffer dbSize) hasher file = some s₀ ∧
      ∀ states L, Run (plainBuffer dbSize) hasher s₀ states L → NoStaleSplitIn states L → Linearizable states L := by
  obtain ⟨s₀, hs₀, hopen⟩ := opened_of_holds (N := N) hf hasher
  refine ⟨s₀, hs₀, fun states L h hns => ?_⟩
  exact (h.guarded hns).gets (guardedBuffer_lawful dbSize) (hopen.safe hi hf.guarded) hopen

theorem get_linearizable_of_one_bucket :
    ∃ s₀, State.opened (N := 1) (plainBuffer 220) List.length (emptyFile 220 (by decide)) = some s₀ ∧
      ∀ states L, Run (plainBuffer 220) List.length s₀ states L → NoStaleSplitIn states L → Linearizable states L := by
  obtain ⟨hi, hs⟩ := emptyFile_sound 220 (by decide) (by decide)
  have hf : FileHolds (plainBuffer 220) (emptyFile 220 (by decide)) (([] : List Record).map Record.block) [] :=
    fileHolds_empty hs
  exact get_linearizable hi hf List.length

private theorem mapOf_mem {log : List LogEntry} {key value : Bytes} (h : mapOf log key = value) (hne : value ≠ []) :
    ∃ e ∈ log, e.key = key ∧ e.value = value := by
  rw [mapOf] at h
  cases hlast : (log.filter fun e => e.key = key).getLast? with
  | none =>
    rw [hlast] at h
    exact absurd h.symm hne
  | some e =>
    obtain ⟨hmem, hkey⟩ := List.mem_filter.1 (List.mem_of_getLast? hlast)
    rw [hlast, Option.elim_some] at h
    exact ⟨e, hmem, of_decide_eq_true hkey, h⟩

/-- The third `put` leaves a stale block behind, with bytes of the second value for its links, and the fifth stores through
them into the record of the fourth: a `get` returns a value that no `put` has stored. -/
theorem get_not_linearizable :
    ∃ s₀ states L, State.opened (N := 1) (plainBuffer 300) List.length (emptyFile 300 (by decide)) = some s₀ ∧
      Run (plainBuffer 300) List.length s₀ states L ∧
      (states L).threads = [⟨.put [97] (List.replicate 17 120), .returned (.ok true)⟩,
        ⟨.put [97] (List.replicate 16 121 ++ [80]), .returned (.ok true)⟩,
        ⟨.put [97] (List.replicate 17 122), .returned (.ok true)⟩,
        ⟨.put [98] (List.replicate 15 113), .returned (.ok true)⟩, ⟨.put [99] [49], .returned (.ok true)⟩,
        ⟨.get [98], .returned (.value [113, 113])⟩] ∧
      ¬ Linearizable states L := by
  let calls : List (Request ⊕ Nat) :=
    .inl (.put [97] (List.replicate 17 120)) :: List.replicate 9 (.inr 0) ++
    .inl (.put [97] (List.replicate 16 121 ++ [80])) :: List.replicate 12 (.inr 1) ++
    .inl (.put [97] (List.replicate 17 122)) :: List.replicate 12 (.inr 2) ++
    .inl (.put [98] (List.replicate 15 113)) :: List.replicate 13 (.inr 3) ++
    .inl (.put [99] [49]) :: List.replicate 17 (.inr 4) ++ .inl (.get [98]) :: List.replicate 11 (.inr 5)
  have hcalls : ∀ r ∈ calls.filterMap Sum.getLeft?, r.NulFree := by decide
  have hany : ((State.opened (N := 1) (plainBuffer 300) List.length (emptyFile 300 (by decide))).any fun s₀ =>
      (s₀.run (plainBuffer 300) List.length calls).any fun s =>
        s.threads = [⟨.put [97] (List.replicate 17 120), .returned (.ok true)⟩,
          ⟨.put [97] (List.replicate 16 121 ++ [80]), .returned (.ok true)⟩,
          ⟨.put [97] (List.replicate 17 122), .returned (.ok true)⟩,
          ⟨.put [98] (List.replicate 15 113), .returned (.ok true)⟩, ⟨.put [99] [49], .returned (.ok true)⟩,
          ⟨.get [98], .returned (.value [113, 113])⟩] ∧
        ∀ e ∈ s.shared.log, e.value ≠ [113, 113]) = true := by
    decide +kernel
  obtain ⟨s₀, hs₀, hany⟩ := (Option.any_eq_true _ _).1 hany
  obtain ⟨s, hs, hfinal⟩ := (Option.any_eq_true _ _).1 hany
  obtain ⟨states, hrun, rfl⟩ := exists_run hs hcalls
  obtain ⟨hthreads, hlog⟩ := of_decide_eq_true hfinal
  refine ⟨s₀, states, _, hs₀, hrun, hthreads, fun hlin => ?_⟩
  obtain ⟨m, hm, -, -, -, hmap⟩ := hlin.current 5 [98] [113, 113] (by rw [hthreads]; rfl)
  obtain ⟨e, he, -, hvalue⟩ := mapOf_mem hmap (by decide)
  exact hlog e ((hrun.log hm (Nat.le_refl _)).subset he) hvalue

end KeyValueStore
