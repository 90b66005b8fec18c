import KeyValueStore.Reclamation
import KeyValueStore.Table

/-!
# The store that was just opened

A process that opens a file of records starts with one bucket and one control block for each of them (`JustOpened`), and the
invariants hold there.  `Safe` collects them; it holds in every state that is reached.
-/

namespace KeyValueStore

open SinglyLinked ConcurrentHashTable References

variable {N : Nat} [NeZero N] {σ : Type} {B : Buffer σ} {Inv : σ → Prop} {hasher : Bytes → Nat} {s s' : State N σ}
  {file : σ} {rs : List Record}

/-- No call is made yet, and the records of the file are in the table. -/
structure JustOpened (hasher : Bytes → Nat) (rs : List Record) (file : σ) (s : State N σ) : Prop where
  threads : s.threads = []
  buffer : s.shared.buffer = file
  writeMutex : s.shared.writeMutex = none
  controls : s.shared.controls = rs.reverse.map fun r => ⟨r, 1⟩
  log : s.shared.log = rs.map fun r => ⟨none, r.key, r.value⟩
  pointers : s.shared.bucketStorage.map Bucket.keyValueData =
    (List.range rs.length).map fun j => some (rs.length - 1 - j)
  chains : ∀ x, Linked (nextOf s.shared.bucketStorage) (s.shared.hashTable x)
    (chain (rs.map fun r => hashTableIndex hasher r.key) x)

private theorem FileHolds.recordIn_eq {bs : List Payload} (hf : FileHolds B file bs rs) {r : Record} (hr : r ∈ rs) :
    State.recordIn B file r.block = r := by
  have hkey : string B file r.block.data = some r.key := hf.string_key hr
  have hvalue : string B file (r.block.data + r.key.length + 1) = some r.value := hf.string_value hr
  simp only [State.recordIn, hkey, Option.getD_some, hvalue]
  rfl

theorem FileHolds.recordsIn_eq (hf : FileHolds B file (rs.map Record.block) rs) :
    (B.usedBlocks file).map (State.recordIn B file) = rs := by
  rw [hf.used, List.map_map]
  refine (List.map_congr_left fun r hr => ?_).trans (List.map_id rs)
  exact hf.recordIn_eq hr

theorem opened_of_holds (hf : FileHolds B file (rs.map Record.block) rs) (hasher : Bytes → Nat) :
    ∃ s, State.opened (N := N) B hasher file = some s ∧ JustOpened hasher rs file s := by
  obtain ⟨t, ht, hbuffer, h⟩ := load_holds (N := N) hasher hf
  have hindex : ((rs.map fun r => (r, hashTableIndex (N := N) hasher r.key)).map entry).map Entry.index =
      rs.map fun r => hashTableIndex hasher r.key := by
    rw [List.map_map, List.map_map]
    rfl
  refine ⟨_, by rw [State.opened, ht, Option.map_some, hf.recordsIn_eq], rfl, hbuffer, rfl, rfl, rfl, ?_, fun x => ?_⟩
  · have hlen : t.bucketStorage.length = rs.length := by simpa using h.represents.length
    apply List.ext_getElem?
    intro j
    simp only [List.getElem?_map, List.getElem?_mapIdx, Option.map_map]
    rcases Nat.lt_or_ge j rs.length with hj | hj
    · rw [List.getElem?_eq_getElem (hlen ▸ hj), List.getElem?_range hj]
      rfl
    · rw [List.getElem?_eq_none (hlen ▸ hj), List.getElem?_eq_none (by simpa using hj)]
      rfl
  · have hchain := h.represents.chains x
    rw [hindex] at hchain
    apply hchain.congr
    intro j _
    simp only [nextOf, List.getElem?_mapIdx]
    cases t.bucketStorage[j]? <;> rfl

namespace JustOpened

theorem loadPointer (h : JustOpened hasher rs file s) (b : Nat) :
    s.shared.loadPointer b = if b < rs.length then some (rs.length - 1 - b) else none := by
  have hb := congrArg (fun l => l[b]?) h.pointers
  simp only [List.getElem?_map] at hb
  rw [Shared.loadPointer]
  split
  · rename_i hlt
    rw [List.getElem?_range hlt] at hb
    obtain ⟨bucket, hbucket, hp⟩ := Option.map_eq_some_iff.1 hb
    rw [hbucket, Option.bind_some, hp]
  · rename_i hlt
    have hnone : (List.range rs.length)[b]? = none := List.getElem?_eq_none (by simpa using hlt)
    rw [hnone, Option.map_none, Option.map_eq_none_iff] at hb
    rw [hb]
    rfl

theorem length_bucketStorage (h : JustOpened hasher rs file s) : s.shared.bucketStorage.length = rs.length := by
  simpa using congrArg List.length h.pointers

theorem length_controls (h : JustOpened hasher rs file s) : s.shared.controls.length = rs.length := by
  simp [h.controls]

theorem loadPointer_lt (h : JustOpened hasher rs file s) {b c : Nat} (hb : s.shared.loadPointer b = some c) :
    b < rs.length ∧ c = rs.length - 1 - b := by
  rw [h.loadPointer] at hb
  split at hb
  · exact ⟨‹_›, (Option.some.inj hb).symm⟩
  · cases hb

private theorem live_controls (h : JustOpened hasher rs file s) : live s.shared.controls = rs := by
  rw [live, h.controls, List.filter_eq_self.2, List.map_map, ← List.map_reverse, List.reverse_reverse]
  · exact List.map_id rs
  · intro x hx
    obtain ⟨r, -, rfl⟩ := List.mem_map.1 hx
    rfl

theorem exclusive (h : JustOpened hasher rs file s) : Exclusive s := by
  refine ⟨fun i th hi => ?_, fun i hi => ?_⟩
  · simp [h.threads] at hi
  · simp [h.writeMutex] at hi

theorem counted (h : JustOpened hasher rs file s) : Counted s := by
  refine ⟨fun c x hx => ?_, fun b c hb => ?_, fun i th c hi => ?_, fun b b' c hb hb' => ?_⟩
  · have hc : c < rs.length := h.length_controls ▸ (List.getElem?_eq_some_iff.1 hx).1
    have hone : x.useCount = 1 := by
      rw [h.controls] at hx
      obtain ⟨r, -, rfl⟩ := List.mem_map.1 (List.mem_of_getElem? hx)
      rfl
    have hnodup : ((List.range rs.length).map fun j => some (rs.length - 1 - j)).Nodup := by
      apply List.nodup_range.map_on
      intro j hj j' hj' e
      have := Option.some.inj e
      have := List.mem_range.1 hj
      have := List.mem_range.1 hj'
      omega
    have hmem : some c ∈ (List.range rs.length).map fun j => some (rs.length - 1 - j) :=
      List.mem_map.2 ⟨rs.length - 1 - c, List.mem_range.2 (by omega), congrArg some (by omega)⟩
    rw [holders_eq_count, h.pointers, List.count_eq_one_of_mem hnodup hmem, h.threads, hone]
    rfl
  · obtain ⟨hlt, rfl⟩ := h.loadPointer_lt hb
    rw [h.length_controls]
    omega
  · simp [h.threads] at hi
  · have := h.loadPointer_lt hb
    have := h.loadPointer_lt hb'
    omega

theorem inRange (h : JustOpened hasher rs file s) : InRange s := by
  have hmem : ∀ {x : Fin N} {b : Nat}, b ∈ chain (rs.map fun r => hashTableIndex hasher r.key) x →
      b < s.shared.bucketStorage.length := by
    intro x b hb
    have := (List.getElem?_eq_some_iff.1 (mem_chain.1 hb)).1
    rwa [h.length_bucketStorage, ← List.length_map]
  refine ⟨fun x b hb => hmem (Linked.head_mem (hb ▸ h.chains x)), fun b b' hb => ?_, fun i th b hi => ?_⟩
  · obtain ⟨bucket, hbucket, -⟩ := Option.bind_eq_some_iff.1 hb
    have hlt : b < rs.length := h.length_bucketStorage ▸ (List.getElem?_eq_some_iff.1 hbucket).1
    have hin : b ∈ chain (rs.map fun r => hashTableIndex (N := N) hasher r.key) (hashTableIndex hasher rs[b].key) :=
      mem_chain.2 (by simp [List.getElem?_eq_getElem hlt])
    exact hmem ((h.chains (hashTableIndex hasher rs[b].key)).next_mem hin hb)
  · simp [h.threads] at hi

theorem stored (h : JustOpened hasher rs file s) (hi : Inv file) (hf : FileHolds B file (rs.map Record.block) rs) :
    Stored B Inv s [] := by
  refine ⟨h.buffer ▸ hi, ?_, fun j th p hj => ?_, fun _ => rfl, fun j th hj => ?_⟩
  · rw [h.live_controls, h.buffer]
    exact hf
  · simp [h.threads] at hj
  · simp [h.threads] at hj

end JustOpened

/-! ### Every state that is reached -/

/-- The invariants of the store. -/
structure Safe (B : Buffer σ) (Inv : σ → Prop) (s : State N σ) : Prop where
  exclusive : Exclusive s
  counted : Counted s
  inRange : InRange s
  stored : ∃ pend, Stored B Inv s pend

theorem JustOpened.safe (h : JustOpened hasher rs file s) (hi : Inv file)
    (hf : FileHolds B file (rs.map Record.block) rs) : Safe B Inv s :=
  ⟨h.exclusive, h.counted, h.inRange, [], h.stored hi hf⟩

theorem Safe.step (hB : B.Lawful Inv) (h : Safe B Inv s) (hs : Step B hasher s s') : Safe B Inv s' := by
  obtain ⟨pend, hp⟩ := h.stored
  exact ⟨h.exclusive.step hs, h.counted.step h.inRange hs, h.inRange.step hs, hp.step hB h.exclusive h.counted hs⟩

theorem Safe.reaches (hB : B.Lawful Inv) (h : Safe B Inv s) (hs : Reaches B hasher s s') : Safe B Inv s' := by
  induction hs with
  | refl => exact h
  | tail _ hstep ih => exact ih.step hB hstep

end KeyValueStore
