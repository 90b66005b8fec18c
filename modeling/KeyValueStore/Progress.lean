import KeyValueStore.AtomicMap
import KeyValueStore.Ranking

/-!
# Every call returns

`alloc` and `free` are one step each; the mutex of the buffer, which they hold meanwhile, is not modelled.  Apart from it a
`get` waits for no other call: until it returns it has a next step.  A `put` waits for the write mutex, and the call that
holds that has a next step.  Links go to older buckets (`Descending`), so a search takes one turn for each bucket at most
(`Pc.left`).  Hence no schedule deadlocks, and none goes on for ever: the number of steps of a run is bounded by the number
of its calls and of the records that it started with.
-/

namespace KeyValueStore

open SinglyLinked ConcurrentHashTable References Ranking

variable {N : Nat} {σ : Type} {B : Buffer σ} {Inv : σ → Prop} {hasher : Bytes → Nat} {s s' : State N σ}
  {sh sh' : Shared N σ} {states : Nat → State N σ} {L M : Nat} {file : σ} {rs : List Record} {i : Nat} {r : Request}
  {pc pc' : Pc} {chains : Fin N → List Nat}

/-- The steps that follow the search. -/
def afterSearch (block : Option Nat) : Nat := if block.isSome then 7 else 3

/-- A bound on the steps that a call still makes, in a table of at most `M` buckets. -/
def Pc.left (M : Nat) : Pc → Nat
  | .called => 4 * M + 10
  | .locked => 4 * M + 9
  | .findHead block => 4 * M + 1 + afterSearch block
  | .findLoad block b => 4 * b + 4 + afterSearch block
  | .findCompare block b _ => 4 * b + 3 + afterSearch block
  | .findDrop block b _ _ => 4 * b + 2 + afterSearch block
  | .findNext block b => 4 * b + 1 + afterSearch block
  | .found block _ => afterSearch block
  | .readValue _ => 2
  | .dropValue _ _ => 1
  | .copyKey _ _ _ => 6
  | .copyValue _ _ _ => 5
  | .setPointer _ _ _ => 4
  | .dropOld _ _ _ => 3
  | .storeBucket _ => 2
  | .unlock _ => 1
  | .returned _ => 0

/-- The bucket that a call has made and not yet linked. -/
def Pc.fresh : Pc → Option Nat
  | .copyKey _ b true => some b
  | .copyValue _ b true => some b
  | .setPointer _ b true => some b
  | .dropOld _ b true => some b
  | .storeBucket b => some b
  | _ => none

/-- Links go to older buckets, and a bucket that is not yet linked is younger than those in the chains.  Only a `put` loads a
chain head in a step of its own. -/
structure Descending (s : State N σ) : Prop where
  next_lt : ∀ b b', nextOf s.shared.bucketStorage b = some b' → b' < b
  fresh : ∀ (i : Nat) (th : Thread) (b : Nat), s.threads[i]? = some th → th.pc.fresh = some b →
    ∀ x b', s.shared.hashTable x = some b' → b' < b
  head : ∀ (i : Nat) (th : Thread), s.threads[i]? = some th → th.pc ≠ .findHead none

/-- The call is behind its search. -/
def Pc.past : Pc → Bool
  | .copyKey _ _ _ => true
  | .copyValue _ _ _ => true
  | .setPointer _ _ _ => true
  | .dropOld _ _ _ => true
  | .storeBucket _ => true
  | .unlock _ => true
  | .returned _ => true
  | _ => false

/-- Every bucket was made at the start or by a call that is behind its search. -/
def Bounded (R : Nat) (s : State N σ) : Prop :=
  s.shared.bucketStorage.length ≤ R + s.threads.countP fun th => th.pc.past

private theorem critical_of_fresh {b : Nat} (h : pc.fresh = some b) : pc.Critical := by
  cases pc with
  | copyKey _ _ isNew => exact critical_of_block rfl
  | copyValue _ _ isNew => exact critical_of_block rfl
  | setPointer _ _ isNew => exact critical_of_block rfl
  | dropOld => trivial
  | storeBucket => trivial
  | _ => cases h

variable [NeZero N]

/-! ### The steps that are left -/

private theorem left_loadHead {key : Bytes} {block : Option Nat} (hM : ∀ x b, sh.hashTable x = some b → b < M) :
    (sh.loadHead hasher key block).left M ≤ 4 * M + afterSearch block := by
  unfold Shared.loadHead
  split
  · exact Nat.le_add_left ..
  · rename_i b hb
    have := hM _ b hb
    simp only [Pc.left]
    omega

private theorem fires_left (hM : ∀ x b, sh.hashTable x = some b → b < M)
    (hnext : ∀ b b', nextOf sh.bucketStorage b = some b' → b' < b) (h : Fires B hasher sh i r pc sh' pc') :
    pc'.left M < pc.left M := by
  cases h with
  | getHead hr => exact Nat.lt_of_le_of_lt (left_loadHead hM) (Nat.add_lt_add_left (by decide) _)
  | @loadHead block =>
    apply Nat.lt_of_le_of_lt (left_loadHead hM)
    simp only [Pc.left]
    omega
  | alloc ha => simp [Pc.left, afterSearch]
  | allocFail ha => simp [Pc.left]
  | dropCompared => split <;> simp only [Pc.left] <;> omega
  | next hn =>
    have := hnext _ _ hn
    simp only [Pc.left]
    omega
  | setFresh hb => unfold Shared.afterSet; split <;> simp [Pc.left]
  | dropOld => unfold Shared.afterSet; split <;> simp [Pc.left]
  | _ => simp [Pc.left, afterSearch]

/-! ### Links go to older buckets -/

theorem JustOpened.descending (h : JustOpened hasher rs file s) : Descending s := by
  refine ⟨fun b b' hb => ?_, fun i th b hi => by simp [h.threads] at hi,
    fun i th hi => by simp [h.threads] at hi⟩
  obtain ⟨bucket, hbucket, -⟩ := Option.bind_eq_some_iff.1 hb
  have hlt : b < rs.length := h.length_bucketStorage ▸ (List.getElem?_eq_some_iff.1 hbucket).1
  have hin : b ∈ chain (rs.map fun r => hashTableIndex (N := N) hasher r.key) (hashTableIndex hasher rs[b].key) :=
    mem_chain.2 (by simp [List.getElem?_eq_getElem hlt])
  exact (h.chains _).rel_next (R := (· > ·)) (chain_descending _ _) hin hb

/-- A call keeps the bucket that it has made, or it makes one. -/
theorem fires_fresh (h : Fires B hasher sh i r pc sh' pc') {b : Nat} (hb : pc'.fresh = some b) :
    pc.fresh = some b ∨ (∃ p, pc = .found (some p) none) ∧ b = sh.bucketStorage.length := by
  have hafter : ∀ {b' : Nat} {isNew : Bool}, (Shared.afterSet b' isNew).fresh = some b → isNew = true ∧ b' = b := by
    intro b' isNew hb
    cases isNew with
    | true => exact ⟨rfl, Option.some.inj hb⟩
    | false => cases hb
  have hhead : ∀ {key : Bytes} {block : Option Nat}, (sh.loadHead hasher key block).fresh = none := by
    intro key block
    unfold Shared.loadHead
    split <;> rfl
  cases h with
  | getHead hr => exact absurd (hhead.symm.trans hb) (by simp)
  | loadHead => exact absurd (hhead.symm.trans hb) (by simp)
  | dropCompared => split at hb <;> cases hb
  | newBucket => exact Or.inr ⟨⟨_, rfl⟩, (Option.some.inj hb).symm⟩
  | setFresh hn =>
    obtain ⟨rfl, rfl⟩ := hafter hb
    exact Or.inl rfl
  | dropOld =>
    obtain ⟨rfl, rfl⟩ := hafter hb
    exact Or.inl rfl
  | @copyKey p b' isNew => cases isNew <;> exact Or.inl hb
  | @copyValue p b' isNew s hs => cases isNew <;> exact Or.inl hb
  | @setOld p b' c isNew hc => cases isNew <;> exact Or.inl hb
  | _ => cases hb

private theorem fires_ne_findHead (h : Fires B hasher sh i r pc sh' pc') : pc' ≠ .findHead none := by
  cases h with
  | getHead hr => unfold Shared.loadHead; split <;> simp
  | loadHead => unfold Shared.loadHead; split <;> simp
  | dropCompared => split <;> simp
  | setFresh hb => unfold Shared.afterSet; split <;> simp
  | dropOld => unfold Shared.afterSet; split <;> simp
  | _ => simp

theorem Descending.step (h : Descending s) (hx : Exclusive s) (hin : InRange s) (hs : Step B hasher s s') :
    Descending s' := by
  rcases hs.cases with ⟨r, -, rfl⟩ | ⟨i, r, pc, sh', pc', hth, hf, rfl⟩
  · refine ⟨h.next_lt, fun j th b hj hb => ?_, fun j th hj => ?_⟩
    · rcases getElem?_concat_cases hj with ⟨rfl, rfl⟩ | hj
      · cases hb
      · exact h.fresh j th b hj hb
    · rcases getElem?_concat_cases hj with ⟨rfl, rfl⟩ | hj
      · simp
      · exact h.head j th hj
  · have hhead : ∀ (j : Nat) (th : Thread), (s.threads.set i ⟨r, pc'⟩)[j]? = some th → th.pc ≠ .findHead none := by
      intro j th hj
      rcases getElem?_set_cases hj with ⟨rfl, rfl⟩ | ⟨-, hj⟩
      · exact fires_ne_findHead hf
      · exact h.head j th hj
    rcases fires_chains hf with ⟨htable, -, hnext⟩ | ⟨p, rfl, rfl, rfl⟩ | ⟨b₀, rfl, rfl, rfl⟩
    · refine ⟨fun b b' hb => h.next_lt b b' (hnext b ▸ hb), fun j th b hj hb x b' hx' => ?_, hhead⟩
      rw [htable] at hx'
      rcases getElem?_set_cases hj with ⟨rfl, rfl⟩ | ⟨-, hj⟩
      · rcases fires_fresh hf hb with hb | ⟨-, rfl⟩
        · exact h.fresh i _ b hth hb x b' hx'
        · exact hin.head_lt x b' hx'
      · exact h.fresh j th b hj hb x b' hx'
    · refine ⟨fun b b' hb => ?_, fun j th b hj hb x b' hx' => ?_, hhead⟩
      · apply h.next_lt b b'
        obtain ⟨bucket, hbucket, hn⟩ := Option.bind_eq_some_iff.1 hb
        rcases getElem?_concat_cases hbucket with ⟨rfl, rfl⟩ | hbucket
        · cases hn
        · rw [nextOf, hbucket]
          exact hn
      · rcases getElem?_set_cases hj with ⟨rfl, rfl⟩ | ⟨-, hj⟩
        · obtain rfl := Option.some.inj hb
          exact hin.head_lt x b' hx'
        · exact h.fresh j th b hj hb x b' hx'
    · refine ⟨fun b b' hb => ?_, fun j th b hj hb x b' hx' => ?_, hhead⟩
      · -- the linked bucket is younger than the head in front of which it is put
        rcases link_nextOf hb with hn | ⟨rfl, hn⟩
        · exact h.next_lt b b' hn
        · exact h.fresh i _ b hth rfl _ b' hn
      · rcases getElem?_set_cases hj with ⟨rfl, rfl⟩ | ⟨hne, hj⟩
        · cases hb
        · exact absurd (hx.eq_of_critical hth hj trivial (critical_of_fresh hb)) hne

/-! ### The number of buckets -/

private theorem fires_past (h : Fires B hasher sh i r pc sh' pc') :
    (pc.past → pc'.past) ∧ (sh'.bucketStorage.length ≤ sh.bucketStorage.length ∨
      sh'.bucketStorage.length = sh.bucketStorage.length + 1 ∧ ¬ pc.past ∧ pc'.past) := by
  constructor
  · intro hp
    cases h with
    | setFresh hb => unfold Shared.afterSet; split <;> rfl
    | dropOld => unfold Shared.afterSet; split <;> rfl
    | _ => first | exact hp | rfl | cases hp
  · rcases fires_chains h with ⟨-, hlen, -⟩ | ⟨p, rfl, rfl, rfl⟩ | ⟨b, rfl, rfl, rfl⟩
    · exact Or.inl (Nat.le_of_eq hlen)
    · exact Or.inr ⟨by simp, by simp [Pc.past], rfl⟩
    · exact Or.inl (by simp [Shared.link])

theorem Bounded.step {R : Nat} (h : Bounded R s) (hs : Step B hasher s s') : Bounded R s' := by
  rcases hs.cases with ⟨r, -, rfl⟩ | ⟨i, r, pc, sh', pc', hth, hf, rfl⟩
  · show s.shared.bucketStorage.length ≤ R + (s.threads ++ [_]).countP _
    rw [List.countP_append]
    exact Nat.le_trans h (by omega)
  · obtain ⟨hi, hget⟩ := List.getElem?_eq_some_iff.1 hth
    obtain ⟨hmono, hlen⟩ := fires_past hf
    have hpos : pc.past = true → 0 < s.threads.countP fun th => th.pc.past := by
      intro hp
      exact List.countP_pos_iff.2 ⟨_, List.getElem_mem hi, by rw [hget]; exact hp⟩
    have h : s.shared.bucketStorage.length ≤ R + s.threads.countP fun th => th.pc.past := h
    show sh'.bucketStorage.length ≤ R + (s.threads.set i ⟨r, pc'⟩).countP fun th => th.pc.past
    rw [List.countP_set hi, hget]
    dsimp only
    cases hp : pc.past <;> cases hp' : pc'.past <;> simp_all <;> omega

/-! ### A call that waits for nobody has a next step -/

/-- The pointer of a linked bucket can be loaded. -/
theorem Published.loadPointer (hp : Published hasher sh chains) {x : Fin N} {b : Nat} (hb : b ∈ chains x) :
    ∃ c, sh.loadPointer b = some c := by
  obtain ⟨rec, hrec, -⟩ := hp.record x b hb
  obtain ⟨c, hc, -⟩ := Option.bind_eq_some_iff.1 hrec
  exact ⟨c, hc⟩

private theorem Thread.Knows.searches {was : Bytes → Prop} {th : Thread} (h : th.Knows hasher sh chains i was) :
    ∃ absent was', th.pc.Searches hasher sh chains th.request.key absent was' := by
  obtain ⟨r, pc⟩ := th
  cases r with
  | get key => exact ⟨_, _, h.get key rfl⟩
  | put key value => exact ⟨_, _, (h.put key value rfl).1⟩

/-- A call that has not returned makes a step, unless it waits for the mutex. -/
private theorem Coherent.enabled {was : Nat → Bytes → Prop} (hB : B.Lawful Inv) (hs : Safe B Inv s)
    (hc : Coherent hasher was s chains) (hi : s.threads[i]? = some ⟨r, pc⟩) (hret : ∀ res, pc ≠ .returned res)
    (hwait : ∀ key value, r = .put key value → pc = .called → s.shared.writeMutex = none) :
    ∃ s', s.step B hasher i = some s' := by
  suffices h : ∃ sh' pc', s.shared.step B hasher i r pc = some (sh', pc') by
    obtain ⟨sh', pc', h⟩ := h
    refine ⟨⟨sh', s.threads.set i ⟨r, pc'⟩⟩, ?_⟩
    simp [State.step, hi, h]
  obtain ⟨absent, was', hsearch⟩ := (hc.knows i _ hi).searches
  have hread : ∀ c, pc.control = some c → _ := fun c => hs.readable hi (c := c)
  cases pc with
  | called =>
    cases r with
    | get key => exact ⟨_, _, rfl⟩
    | put key value => exact ⟨_, _, if_pos (hwait key value rfl rfl)⟩
  | locked =>
    rcases ha : B.alloc (r.key.length + 1 + r.value.length + 1) s.shared.buffer with ⟨_ | p, t⟩
    · exact ⟨{ s.shared with buffer := t }, .unlock false, by simp only [Shared.step, ha]⟩
    · exact ⟨{ s.shared with buffer := t }, .findHead (some p), by simp only [Shared.step, ha]⟩
  | findLoad block b =>
    obtain ⟨c, hload⟩ := hc.published.loadPointer (Standing.mem hsearch)
    exact ⟨_, _, by simp only [Shared.step, hload]; rfl⟩
  | findCompare block b c =>
    obtain ⟨rec, -, hk, -⟩ := hread c rfl
    exact ⟨_, _, by simp only [Shared.step, hk]; rfl⟩
  | findNext block b =>
    have hlt := hs.inRange.thread_lt i _ b hi rfl
    simp only [Shared.step, List.getElem?_eq_getElem hlt, Option.bind_eq_bind, Option.bind_some]
    split <;> exact ⟨_, _, rfl⟩
  | found block bucket =>
    rcases block with _ | p <;> rcases bucket with _ | b
    · exact ⟨_, _, rfl⟩
    · obtain ⟨c, hload⟩ := hc.published.loadPointer (bucketIn_eq_some hsearch).1
      exact ⟨_, _, by simp only [Shared.step, hload]; rfl⟩
    · exact ⟨_, _, rfl⟩
    · exact ⟨_, _, rfl⟩
  | readValue c =>
    obtain ⟨rec, -, -, hv⟩ := hread c rfl
    exact ⟨_, _, by simp only [Shared.step, hv]; rfl⟩
  | copyValue p b isNew =>
    obtain ⟨pend, hstored⟩ := hs.stored
    obtain ⟨size, rfl, hsize, hat⟩ := hstored.fills i _ p hi rfl
    have hne : ∀ x ∈ live s.shared.controls, x.block ≠ ⟨p, size⟩ :=
      fun x hx e => hstored.file.block_notMem hx (e ▸ List.mem_cons_self ..)
    obtain ⟨t, ht, -⟩ := hstored.file.copyValue hB hstored.inv (List.mem_cons_self ..) hne hat hsize
    exact ⟨_, _, by simp only [Shared.step, ht]; rfl⟩
  | returned res => exact absurd rfl (hret res)
  | _ => exact ⟨_, _, rfl⟩

/-! ### Runs come to an end -/

/-- How the calls of a run from `R` records come to an end. -/
structure Ends (B : Buffer σ) (hasher : Bytes → Nat) (R : Nat) (states : Nat → State N σ) (L : Nat) : Prop where
  /-- The steps are bounded by the number of calls. -/
  bounded : L ≤ (states L).threads.length * (4 * (R + (states L).threads.length) + 11)
  /-- A `get` that has not returned has a next step, -/
  unblocked : ∀ (i : Nat) (key : Bytes) (pc : Pc), (states L).threads[i]? = some ⟨.get key, pc⟩ →
    (∀ res, pc ≠ .returned res) → ∃ s', (states L).step B hasher i = some s'
  /-- and once it has started, it makes no more than four steps for each bucket that is there, and three more. -/
  ownSteps : ∀ (i : Nat) (key : Bytes) (pc : Pc), ∀ m ≤ L, (states m).threads[i]? = some ⟨.get key, pc⟩ → pc ≠ .called →
    moves (fun n => (states n).threads) i m L ≤ 4 * (states m).shared.bucketStorage.length + 3
  /-- When no call has a next step, all have returned. -/
  returned : (∀ i, (states L).step B hasher i = none) →
    ∀ (i : Nat) (r : Request) (pc : Pc), (states L).threads[i]? = some ⟨r, pc⟩ → ∃ res, pc = .returned res

theorem Run.descending (hB : B.Lawful Inv) (h : Run B hasher s states L) (hs : Safe B Inv s)
    (hopen : JustOpened hasher rs file s) : Descending (states L) ∧ Bounded rs.length (states L) := by
  induction L with
  | zero =>
    rw [h.start]
    refine ⟨hopen.descending, ?_⟩
    show s.shared.bucketStorage.length ≤ _
    rw [hopen.length_bucketStorage]
    exact Nat.le_add_right ..
  | succ n ih =>
    obtain ⟨hd, hb⟩ := ih (h.take (Nat.le_succ n))
    obtain ⟨-, hsafe, -⟩ := (h.take (Nat.le_succ n)).coherent hB hs hopen
    have hstep := h.step n (Nat.lt_succ_self n)
    exact ⟨hd.step hsafe.exclusive hsafe.inRange hstep, hb.step hstep⟩

private theorem Run.length_threads (h : Run B hasher s states L) {n : Nat} (hn : n ≤ L) :
    (states n).threads.length ≤ (states L).threads.length := by
  induction L with
  | zero => rw [Nat.le_zero.1 hn]
  | succ m ih =>
    rcases Nat.lt_or_eq_of_le hn with hlt | rfl
    · apply Nat.le_trans (ih (h.take (Nat.le_succ m)) (by omega))
      rcases (h.step m (Nat.lt_succ_self m)).cases with ⟨r, -, hs'⟩ | ⟨i, r, pc, sh', pc', -, -, hs'⟩
      · simp [hs', State.call]
      · simp [hs']
    · exact Nat.le_refl _

/-- Every step adds a call, or lowers the number of steps that its call still makes. -/
private theorem Run.ranked (hB : B.Lawful Inv) (h : Run B hasher s states L) (hs : Safe B Inv s)
    (hopen : JustOpened hasher rs file s) (hM : rs.length + (states L).threads.length ≤ M) {n : Nat} (hn : n < L) :
    Ranked (fun th : Thread => th.pc.left M) (4 * M + 10) (states n).threads (states (n + 1)).threads := by
  have htake := h.take (Nat.le_of_lt hn)
  obtain ⟨-, hsafe, -⟩ := htake.coherent hB hs hopen
  obtain ⟨hd, hb⟩ := htake.descending hB hs hopen
  have hcount := List.countP_le_length (p := fun th : Thread => th.pc.past) (l := (states n).threads)
  have hlen := h.length_threads (Nat.le_of_lt hn)
  have hle : (states n).shared.bucketStorage.length ≤ M := by
    have hb : _ ≤ _ := hb
    omega
  rcases (h.step n hn).cases with ⟨r, -, hs'⟩ | ⟨i, r, pc, sh', pc', hi, hf, hs'⟩ <;> rw [hs']
  · exact Ranked.add (Nat.le_refl _)
  · refine Ranked.step hi (fires_left (fun x b hx => ?_) hd.next_lt hf)
    exact Nat.lt_of_lt_of_le (hsafe.inRange.head_lt x b hx) hle

private theorem left_le_of_get {K : Nat} (hcrit : ¬ pc.Critical) (hcalled : pc ≠ .called) (hhead : pc ≠ .findHead none)
    (hb : ∀ b, pc.bucket = some b → b < K) : pc.left M ≤ 4 * K + 3 := by
  have hblock : ∀ {block : Option Nat}, pc.block = block → block = none := by
    intro block hblock
    cases block with
    | none => rfl
    | some p => exact absurd (critical_of_block hblock) hcrit
  cases pc with
  | called => exact absurd rfl hcalled
  | locked => exact absurd trivial hcrit
  | findHead block =>
    obtain rfl := hblock rfl
    exact absurd rfl hhead
  | found block bucket =>
    obtain rfl := hblock rfl
    simp [Pc.left, afterSearch]
  | copyKey => exact absurd (critical_of_block rfl) hcrit
  | copyValue => exact absurd (critical_of_block rfl) hcrit
  | setPointer => exact absurd (critical_of_block rfl) hcrit
  | dropOld => exact absurd trivial hcrit
  | storeBucket => exact absurd trivial hcrit
  | unlock => exact absurd trivial hcrit
  | readValue => simp only [Pc.left]; omega
  | dropValue => simp only [Pc.left]; omega
  | returned => exact Nat.zero_le _
  | _ =>
    -- the call stands on a bucket
    obtain rfl := hblock rfl
    have := hb _ rfl
    simp only [Pc.left, afterSearch, Option.isSome_none, Bool.false_eq_true, if_false]
    omega

theorem Run.ends (hB : B.Lawful Inv) (h : Run B hasher s states L) (hs : Safe B Inv s)
    (hopen : JustOpened hasher rs file s) : Ends B hasher rs.length states L := by
  obtain ⟨chains, hsafe, hc⟩ := h.coherent hB hs hopen
  let calls : Nat → List Thread := fun n => (states n).threads
  have hranked : ∀ n < L, Ranked (fun th : Thread => th.pc.left (rs.length + (states L).threads.length))
      (4 * (rs.length + (states L).threads.length) + 10) (calls n) (calls (n + 1)) :=
    fun n hn => h.ranked hB hs hopen (Nat.le_refl _) hn
  have hempty : calls 0 = [] := by
    show (states 0).threads = []
    rw [h.start, hopen.threads]
  refine ⟨run_le hranked hempty, fun i key pc hi hret => ?_,
    fun i key pc m hm hi hcalled => ?_, fun hstuck i r pc hi => ?_⟩
  · exact hc.enabled hB hsafe hi hret fun k v hr => by cases hr
  · obtain ⟨chainsₘ, hsafeₘ, hcₘ⟩ := (h.take hm).coherent hB hs hopen
    obtain ⟨hd, -⟩ := (h.take hm).descending hB hs hopen
    obtain ⟨th, -, hle⟩ := moves_le hranked hm (Nat.le_refl L) hi
    have hcrit : ¬ pc.Critical := (hcₘ.knows i _ hi).typed.1
    have := left_le_of_get (M := rs.length + (states L).threads.length) hcrit hcalled (hd.head i _ hi)
      fun b hb => hsafeₘ.inRange.thread_lt i _ b hi hb
    exact Nat.le_trans (Nat.le_trans (Nat.le_add_right ..) hle) this
  · by_contra hret
    have hret : ∀ res, pc ≠ .returned res := fun res hres => hret ⟨res, hres⟩
    have hno : ∀ {j : Nat} {s' : State N σ}, (states L).step B hasher j ≠ some s' := by simp [hstuck]
    -- a call that waits for the mutex waits for a call that has a next step
    have hfree : (states L).shared.writeMutex = none := by
      cases hm : (states L).shared.writeMutex with
      | none => rfl
      | some j =>
        obtain ⟨th, hj⟩ : ∃ th, (states L).threads[j]? = some th :=
          ⟨_, List.getElem?_eq_getElem (hsafe.exclusive.lt j hm)⟩
        have hcrit : th.pc.Critical := (hsafe.exclusive.owner j th hj).2 hm
        obtain ⟨s', hs'⟩ : ∃ s', (states L).step B hasher j = some s' := by
          apply hc.enabled hB hsafe hj
          · intro res hres
            rw [hres] at hcrit
            cases hcrit
          · intro key value _ hcalled
            rw [hcalled] at hcrit
            cases hcrit
        exact absurd hs' hno
    obtain ⟨s', hs'⟩ := hc.enabled hB hsafe hi hret fun _ _ _ _ => hfree
    exact hno hs'

/-- Whether a call has a next step does not depend on what `alloc` returns. -/
private theorem isSome_step_withAlloc {f : Nat → σ → Option Nat × σ} (s : State N σ) (i : Nat) :
    (s.step (B.withAlloc f) hasher i).isSome = (s.step B hasher i).isSome := by
  by_cases hlocked : ∃ r, s.threads[i]? = some ⟨r, .locked⟩
  · obtain ⟨r, hth⟩ := hlocked
    have hsome : ∀ A : Buffer σ, (s.step A hasher i).isSome := by
      intro A
      simp only [State.step, hth, Option.bind_eq_bind, Option.bind_some, Shared.step]
      cases A.alloc (r.key.length + 1 + r.value.length + 1) s.shared.buffer with
      | mk res t => cases res <;> rfl
    rw [hsome, hsome]
  · rw [State.step_withAlloc fun r hth => absurd ⟨r, hth⟩ hlocked]

theorem Ends.withAlloc {f : Nat → σ → Option Nat × σ} {R : Nat} (h : Ends B hasher R states L) :
    Ends (B.withAlloc f) hasher R states L := by
  refine ⟨h.bounded, fun i key pc hi hret => ?_, h.ownSteps, fun hstuck => h.returned fun i => ?_⟩
  · rw [← Option.isSome_iff_exists, isSome_step_withAlloc, Option.isSome_iff_exists]
    exact h.unblocked i key pc hi hret
  · rw [← Option.not_isSome_iff_eq_none, ← isSome_step_withAlloc (f := f), hstuck i]
    exact Bool.false_ne_true

/-- In every run from a file of records in which no split is stale, no call waits for ever and none goes on for ever,
whatever the order of the steps. -/
theorem calls_end {dbSize : Nat} {file : FileBackedBuffer} (hi : file.Sound dbSize) {rs : List Record}
    (hf : FileHolds (plainBuffer dbSize) file (rs.map Record.block) rs) (hasher : Bytes → Nat) :
    ∃ s₀, State.opened (N := N) (plainBuffer dbSize) hasher file = some s₀ ∧
      ∀ states L, Run (plainBuffer dbSize) hasher s₀ states L → NoStaleSplitIn states L →
        Ends (plainBuffer dbSize) hasher rs.length states L := by
  obtain ⟨s₀, hs₀, hopen⟩ := opened_of_holds (N := N) hf hasher
  refine ⟨s₀, hs₀, fun states L h hns => ?_⟩
  exact ((h.guarded hns).ends (guardedBuffer_lawful dbSize) (hopen.safe hi hf.guarded) hopen).withAlloc

theorem calls_end_of_one_bucket :
    ∃ s₀, State.opened (N := 1) (plainBuffer 220) List.length (emptyFile 220 (by decide)) = some s₀ ∧
      ∀ states L, Run (plainBuffer 220) List.length s₀ states L → NoStaleSplitIn states L →
        Ends (plainBuffer 220) List.length 0 states L := by
  obtain ⟨hi, hs⟩ := emptyFile_sound 220 (by decide) (by decide)
  have hf : FileHolds (plainBuffer 220) (emptyFile 220 (by decide)) (([] : List Record).map Record.block) [] :=
    fileHolds_empty hs
  exact calls_end hi hf List.length

end KeyValueStore
