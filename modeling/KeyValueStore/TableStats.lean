import KeyValueStore.Rest
import KeyValueStore.Stats

/-!
# The statistics of the table

`ConcurrentHashTable::print_stats`, without the printing: the sizes of the values that an iteration visits, the elements of
the table that are in use, and then the statistics of the buffer.  While no call is in progress the numbers are those of the
map that the log gives, and the two parts agree on the number of records (`stats_at_rest`).
-/

namespace KeyValueStore

open SinglyLinked ConcurrentHashTable Binary32

variable {N : Nat} {σ : Type}

/-- What `print_stats` prints in front of the statistics of the buffer. -/
structure TableStats where
  valueSizes : Sizes
  averageValueSize : Float32.Model
  numTableElements : Nat
  loadFactor : Float32.Model

/-- One turn of the loop over the pairs, on the sizes and the sum in `average_value_size`. -/
def countValue (c : Sizes × Float32.Model) (p : Bytes × Bytes) : Sizes × Float32.Model :=
  (c.1.count p.2.length, c.2 + Float32.Model.ofInt p.2.length)

/-- The loop over `m_hash_table`. -/
def countElements (hashTable : Fin N → Option Nat) : Nat :=
  (List.finRange N).foldl (fun n i => if (hashTable i).isSome then add64 n 1 else n) 0

/-- The numbers for the pairs that the iteration visits. -/
def TableStats.ofPairs (ps : List (Bytes × Bytes)) (hashTable : Fin N → Option Nat) : TableStats :=
  let (valueSizes, sum) := ps.foldl countValue (.init, Float32.Model.ofInt 0)
  let numTableElements := countElements hashTable
  ⟨valueSizes, sum / Float32.Model.ofInt valueSizes.num, numTableElements,
    Float32.Model.ofInt numTableElements / Float32.Model.ofInt N⟩

/-- `ConcurrentHashTable::print_stats`, up to the call of `m_buffer.print_stats`. -/
def tableStats [NeZero N] (B : Buffer σ) (t : ConcurrentHashTable N σ) : Option TableStats := do
  return .ofPairs (← pairs B t) t.hashTable

/-- All of `ConcurrentHashTable::print_stats`. -/
def printStats [NeZero N] (dbSize : Nat) (t : ConcurrentHashTable N FileBackedBuffer) : Option (TableStats × BufferStats) := do
  let table ← tableStats (plainBuffer dbSize) t
  let (buffer, _) ← bufferStats t.buffer
  return (table, buffer)

/-! ### The loops -/

/-- The whole loop over the pairs, on the sizes. -/
theorem Sizes.Of.foldl {c : Sizes} {l l' : List Nat} (h : c.Of l) (hl' : ∀ x ∈ l', x < 2 ^ 64)
    (hlen : l.length + l'.length < 2 ^ 64) : (l'.foldl Sizes.count c).Of (l ++ l') := by
  induction l' generalizing c l with
  | nil => rwa [List.append_nil]
  | cons x l' ih =>
    rw [List.length_cons] at hlen
    rw [List.append_cons]
    apply ih (h.count (hl' x (List.mem_cons_self ..)) (by omega)) fun y hy => hl' y (List.mem_cons_of_mem _ hy)
    rw [List.length_append, List.length_singleton]
    omega

private theorem foldl_countValue (ps : List (Bytes × Bytes)) (c : Sizes × Float32.Model) :
    ps.foldl countValue c = ((ps.map fun p => p.2.length).foldl Sizes.count c.1,
      (ps.map fun p => p.2.length).foldl (fun f n => f + Float32.Model.ofInt n) c.2) := by
  induction ps generalizing c with
  | nil => rfl
  | cons p ps ih => exact ih _

private theorem countElements_eq {hashTable : Fin N → Option Nat} {l : List (Fin N)} (hN : N < 2 ^ 64)
    (hl : ∀ i, (hashTable i).isSome ↔ i ∈ l) : countElements hashTable = l.toFinset.card := by
  have hfold (l : List (Fin N)) (n : Nat) (hlen : n + l.length < 2 ^ 64) :
      l.foldl (fun n i => if (hashTable i).isSome then add64 n 1 else n) n =
        n + (l.filter fun i => (hashTable i).isSome).length := by
    induction l generalizing n with
    | nil => rfl
    | cons i l ih =>
      rw [List.length_cons] at hlen
      rw [List.foldl_cons, List.filter_cons]
      split
      · rw [show add64 n 1 = n + 1 from Nat.mod_eq_of_lt (by omega), ih _ (by omega), List.length_cons]
        omega
      · exact ih _ (by omega)
  rw [countElements, hfold _ _ (by rw [List.length_finRange]; omega), Nat.zero_add,
    ← List.toFinset_card_of_nodup ((List.nodup_finRange N).filter _)]
  congr 1
  ext i
  rw [List.mem_toFinset, List.mem_toFinset, List.mem_filter, ← hl]
  exact and_iff_right (List.mem_finRange i)

/-! ### What the numbers say -/

/-- The numbers are those of the pairs `ps`. -/
structure TableStats.Describes (stats : TableStats) (index : Bytes → Fin N) (ps : List (Bytes × Bytes)) : Prop where
  sizes : stats.valueSizes.Of (ps.map fun p => p.2.length)
  average_nan : ps = [] → stats.averageValueSize.isNaN = true
  /-- The sum of the sizes is exact as long as it has 24 bits. -/
  average : ps ≠ [] → ps.length ≤ 2 ^ 24 → (ps.map fun p => p.2.length).sum ≤ 2 ^ 24 →
    (ps.map fun p => p.2.length).sum = 0 ∧ stats.averageValueSize = Float32.Model.ofInt 0 ∨
    ∃ q, HasValue stats.averageValueSize q ∧ Rounds ((ps.map fun p => p.2.length).sum / ps.length) q ∧
      stats.valueSizes.smallest ≤ q ∧ q ≤ stats.valueSizes.largest
  elements : stats.numTableElements = (ps.map fun p => index p.1).toFinset.card
  loadFactor : ps = [] ∧ stats.loadFactor = Float32.Model.ofInt 0 ∨
    ∃ q, HasValue stats.loadFactor q ∧ |(stats.numTableElements : ℝ) / N - q| ≤ stats.numTableElements / N * 2 ^ (-22 : ℤ) ∧
      q ≤ 1

variable {B : Buffer σ} {hasher : Bytes → Nat} {t : ConcurrentHashTable N σ} {l rs : List Record}

private theorem Represents.isSome_iff {es : List (Entry N)} (h : Represents B t es) (i : Fin N) :
    (t.hashTable i).isSome ↔ i ∈ es.map Entry.index := by
  have hchain := h.chains i
  constructor
  · intro hsome
    cases hc : chain (es.map Entry.index) i with
    | nil =>
      rw [hc] at hchain
      rw [show t.hashTable i = none from hchain] at hsome
      cases hsome
    | cons j js => exact List.mem_of_getElem? (mem_chain.1 (hc ▸ List.mem_cons_self ..))
  · intro hmem
    obtain ⟨j, hj⟩ := List.mem_iff_getElem?.1 hmem
    have hmem := mem_chain.2 hj
    cases hc : chain (es.map Entry.index) i with
    | nil =>
      rw [hc] at hmem
      exact absurd hmem List.not_mem_nil
    | cons j js =>
      rw [hc] at hchain
      rw [show t.hashTable i = some j from hchain.1]
      rfl

theorem Sizes.Of.average {c : Sizes} {ns : List Nat} {f : Float32.Model} (h : c.Of ns) (hf : HasNat f ns.sum)
    (hne : ns ≠ []) (hlen : ns.length ≤ 2 ^ 24) (hsum : ns.sum ≤ 2 ^ 24) :
    ns.sum = 0 ∧ f / Float32.Model.ofInt c.num = Float32.Model.ofInt 0 ∨
    ∃ q, HasValue (f / Float32.Model.ofInt c.num) q ∧ Rounds (ns.sum / ns.length) q ∧ c.smallest ≤ q ∧ q ≤ c.largest := by
  rcases hf with ⟨hz, rfl⟩ | hf
  · left
    obtain ⟨v, hv, -⟩ := ofInt_rounds (n := c.num) (by rw [h.num]; exact List.length_pos_iff.2 hne) (by rw [h.num]; omega)
    exact ⟨hz, zero_div_value hv⟩
  · right
    have hnum : 1 ≤ c.num := by
      rw [h.num]
      exact List.length_pos_iff.2 hne
    have hnum' : c.num ≤ 2 ^ 24 := by rwa [h.num]
    have hone : (1 : ℝ) ≤ c.num := by exact_mod_cast hnum
    have hmax : (c.num : ℝ) ≤ 2 ^ 24 := by exact_mod_cast hnum'
    have hsum₁ : (1 : ℝ) ≤ ns.sum := by exact_mod_cast hf.pos
    have hsum₂ : (ns.sum : ℝ) ≤ 2 ^ 24 := by exact_mod_cast hsum
    obtain ⟨q, hq, hround⟩ := div_rounds_of_le hf (ofInt_exact hnum hnum') hsum₁ (by linarith) hone (by linarith)
    exact ⟨q, hq, h.num ▸ hround, h.between hne hsum hround⟩

private theorem describes_ofPairs {ps : List (Bytes × Bytes)} {hashTable : Fin N → Option Nat} {index : Bytes → Fin N}
    (hN : N < 2 ^ 64) (hlen : ps.length < 2 ^ 64) (hvalue : ∀ p ∈ ps, p.2.length < 2 ^ 64)
    (hused : ∀ i, (hashTable i).isSome ↔ i ∈ ps.map fun p => index p.1) :
    (TableStats.ofPairs ps hashTable).Describes index ps := by
  have hsizes : ((ps.map fun p => p.2.length).foldl Sizes.count .init).Of (ps.map fun p => p.2.length) := by
    have hlengths : ∀ n ∈ ps.map fun p => p.2.length, n < 2 ^ 64 := by
      intro n hn
      obtain ⟨p, hp, rfl⟩ := List.mem_map.1 hn
      exact hvalue p hp
    have := Sizes.of_nil.foldl hlengths (by rwa [List.length_map, List.length_nil, Nat.zero_add])
    rwa [List.nil_append] at this
  have helements := countElements_eq hN hused
  have hcard : (ps.map fun p => index p.1).toFinset.card ≤ N := by
    simpa using Finset.card_le_univ (ps.map fun p => index p.1).toFinset
  rw [TableStats.ofPairs, foldl_countValue]
  refine ⟨hsizes, ?_, fun hne hlen hsum => ?_, helements, ?_⟩
  · rintro rfl
    exact isNaN_zero_div_zero
  · have hzero : HasNat (Float32.Model.ofInt 0) 0 := Or.inl ⟨rfl, rfl⟩
    have hf := hzero.foldl (l := ps.map fun p => p.2.length) (by rwa [Nat.zero_add])
    rw [Nat.zero_add] at hf
    have := hsizes.average hf (by simpa using hne) (by rwa [List.length_map]) hsum
    rwa [List.length_map] at this
  · dsimp only
    rw [helements]
    rcases eq_or_ne ps [] with rfl | hne
    · obtain ⟨v, hv, -⟩ := ofInt_rounds (n := N) (index []).pos hN
      exact Or.inl ⟨rfl, zero_div_value hv⟩
    · right
      obtain ⟨p, ps, rfl⟩ := List.exists_cons_of_ne_nil hne
      have hpos : 1 ≤ ((p :: ps).map fun p => index p.1).toFinset.card :=
        Finset.card_pos.2 ⟨index p.1, by simp⟩
      obtain ⟨q, hq, herror, hone, -⟩ := ofInt_div_ofInt hpos (by omega) (b := N) (by omega) hN
      exact ⟨q, hq, herror, hone hcard⟩

variable [NeZero N]

private theorem tableStats_of_holds (hN : N < 2 ^ 64)
    (h : Holds B t (l.map fun r => (r, hashTableIndex hasher r.key)) rs) (hsum : (rs.map Record.size).sum < 2 ^ 31) :
    ∃ stats, pairs B t = some (l.map fun r => (r.key, r.value)) ∧ tableStats B t = some stats ∧
      stats.Describes (hashTableIndex (N := N) hasher) (l.map fun r => (r.key, r.value)) := by
  have hperm : l.Perm rs := by simpa [Function.comp_def] using h.perm
  have hpairs : pairs B t = some (l.map fun r => (r.key, r.value)) := by
    apply h.represents.pairs_eq
    rw [List.map_map, List.map_map, List.map_map]
    rfl
  -- the records are in blocks of the file
  rw [← (hperm.map Record.size).sum_nat] at hsum
  have hstored : ∀ r ∈ l, r.StoredIn (B.base t.buffer) := fun r hr => h.file.stored r (hperm.mem_iff.1 hr)
  have hlen : l.length ≤ (l.map Record.size).sum := by
    have := List.length_le_sum_of_one_le (l.map Record.size) fun n hn => by
      obtain ⟨r, hr, rfl⟩ := List.mem_map.1 hn
      have := (hstored r hr).two_le
      omega
    rwa [List.length_map] at this
  refine ⟨_, hpairs, by rw [tableStats, hpairs]; rfl, describes_ofPairs hN ?_ (fun p hp => ?_) fun i => ?_⟩
  · rw [List.length_map]
    omega
  · obtain ⟨r, hr, rfl⟩ := List.mem_map.1 hp
    have := (hstored r hr).fits
    have := List.single_le_sum (fun n _ => Nat.zero_le n) _ (List.mem_map_of_mem (f := Record.size) hr)
    simp only
    omega
  · rw [h.represents.isSome_iff, List.map_map, List.map_map, List.map_map]
    rfl

/-! ### In every run -/

/-- What `print_stats` says about a store at rest whose file has the layout `L` and whose pairs are `ps`. -/
structure StatsDescribe (dbSize : Nat) (hasher : Bytes → Nat) (rs : List Record) (s : State N FileBackedBuffer)
    (stats : TableStats × BufferStats) (ps : List (Bytes × Bytes)) (L : Layout) : Prop where
  pairs : ConcurrentHashTable.pairs (plainBuffer dbSize) s.shared.table = some ps
  table : stats.1.Describes (hashTableIndex (N := N) hasher) ps
  buffer : stats.2.Describes s.shared.buffer L
  /-- Each used block is the record of one pair, with room for both strings and their zero bytes. -/
  num : stats.1.valueSizes.num = stats.2.used.sizes.num
  bytes : (ps.map fun p => p.1.length + 1 + p.2.length + 1 + sizeofBlock).sum ≤ stats.2.used.totalBlockSize
  /-- The values are those of the log if the file had one record for each key. -/
  map : (rs.map Record.key).Nodup → (ps.map Prod.fst).Nodup ∧
    (∀ key, key ∈ ps.map Prod.fst ↔ ∃ e ∈ s.shared.log, e.key = key) ∧ ∀ p ∈ ps, p.2 = mapOf s.shared.log p.1

/-- The blocks of the records are the used blocks of the layout. -/
private theorem FileHolds.map_size {dbSize : Nat} {s : FileBackedBuffer} {L : Layout}
    (hf : FileHolds (guardedBuffer dbSize) s (rs.map Record.block) rs) (hL : L.Holds s.field) (h : L.WellFormed s.dbSize) :
    (rs.map fun r => r.size + sizeofBlock) = L.used.map Block.size := by
  have hblocks : rs.map Record.block = L.used.map Block.payload := hf.used.symm.trans (guardedBuffer_used hL h)
  have hsizes := congrArg (List.map fun p : Payload => p.size + sizeofBlock) hblocks
  rw [List.map_map, List.map_map] at hsizes
  exact hsizes

/-- In every state that a run from a file of records reaches without a stale split while no call is in progress, `print_stats`
returns, and what it prints describes the map and the file. -/
theorem stats_at_rest (hN : N < 2 ^ 64) {dbSize : Nat} {file : FileBackedBuffer} (hi : file.Sound dbSize) {rs : List Record}
    (hf : FileHolds (plainBuffer dbSize) file (rs.map Record.block) rs) (hasher : Bytes → Nat) :
    ∃ s₀, State.opened (N := N) (plainBuffer dbSize) hasher file = some s₀ ∧
      ∀ states n, Run (plainBuffer dbSize) hasher s₀ states n → NoStaleSplitIn states n → (states n).AtRest →
        ∃ stats ps L, printStats dbSize (states n).shared.table = some stats ∧ L.Holds (states n).shared.buffer.field ∧
          L.WellFormed (states n).shared.buffer.dbSize ∧ StatsDescribe dbSize hasher rs (states n) stats ps L := by
  have hB := guardedBuffer_lawful dbSize
  obtain ⟨s₀, hs₀, hopen⟩ := opened_of_holds (N := N) hf hasher
  refine ⟨s₀, hs₀, fun states n hrun hns hrest => ?_⟩
  have hs := (hrun.guarded hns).reaches
  generalize states n = s at hs hrest ⊢
  have h := (hopen.settled hi hf.guarded).reaches hB hs
  obtain ⟨-, -, hone, -⟩ := hopen.reaches hB (hopen.safe hi hf.guarded) hs
  have hlive := h.safe.fileHolds (hrest.mutex h.safe.exclusive)
  have hperm := h.perm hrest
  obtain ⟨pend, hstored⟩ := h.safe.stored
  obtain ⟨-, L, hL, hwf⟩ := hstored.inv
  obtain ⟨buffer, hbuffer, hdescribes⟩ := bufferStats_describe hL hwf
  have hsizes := hlive.map_size hL hwf
  have hused := hdescribes.used
  have htotal := hdescribes.total
  have hdb := s.shared.buffer.dbSize_lt
  have hsum : ((live s.shared.controls).map fun r => r.size + sizeofBlock).sum = buffer.used.totalBlockSize := by
    rw [hsizes, hused.total]
  have hle : ((live s.shared.controls).map Record.size).sum ≤
      ((live s.shared.controls).map fun r => r.size + sizeofBlock).sum :=
    List.sum_le_sum fun r _ => Nat.le_add_right _ _
  obtain ⟨table, hpairs, htable, hstats⟩ := tableStats_of_holds hN (h.holds hrest) (by omega)
  refine ⟨(table, buffer), _, L, ?_, hL, hwf, hpairs, hstats, hdescribes, ?_, ?_, fun hkeys => ?_⟩
  · have htable : tableStats (plainBuffer dbSize) s.shared.table = some table := htable
    rw [printStats, htable, Option.bind_eq_bind, Option.bind_some]
    show (bufferStats s.shared.buffer).bind _ = _
    rw [hbuffer]
    rfl
  · have hlen := congrArg List.length hsizes
    rw [List.length_map, ← hperm.length_eq] at hlen
    rw [hstats.sizes.num, hused.sizes.num, ← hlen, List.length_map, List.length_map]
  · rw [← hsum, ← (hperm.map _).sum_nat, List.map_map]
    refine List.sum_le_sum fun r hr => ?_
    have := (hlive.stored r (hperm.mem_iff.1 hr)).fits
    simp only [Function.comp_apply]
    omega
  · obtain ⟨ps, hps, hmap⟩ := h.pairs hrest (hone hkeys)
    rwa [Option.some.inj (hpairs.symm.trans hps)]

theorem stats_at_rest_of_new : ∃ s₀, State.opened (N := 4) (plainBuffer 220) List.length (emptyFile 220 (by decide)) = some s₀ ∧
    ∀ states n, Run (plainBuffer 220) List.length s₀ states n → NoStaleSplitIn states n → (states n).AtRest →
      ∃ stats ps L, printStats 220 (states n).shared.table = some stats ∧ L.Holds (states n).shared.buffer.field ∧
        L.WellFormed (states n).shared.buffer.dbSize ∧ StatsDescribe 220 List.length [] (states n) stats ps L := by
  obtain ⟨hi, hs⟩ := emptyFile_sound 220 (by decide) (by decide)
  have hf : FileHolds (plainBuffer 220) (emptyFile 220 (by decide)) (([] : List Record).map Record.block) [] :=
    fileHolds_empty hs
  exact stats_at_rest (by decide) hi hf List.length

end KeyValueStore
