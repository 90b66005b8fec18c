import KeyValueStore.Durability
import KeyValueStore.Linearization

/-!
# The store is an atomic map

The calls of a run, `get`s and `put`s alike, are linearizable with respect to the map of the log.  A `put` that returns
`true` takes effect in the step that adds its entry to the log; a `get`, and a `put` that returns `false`, in a state of the
run in which it sees the map (`Read`).  The call is running at that time, so a call that had returned before another one
began takes effect before it.
-/

namespace KeyValueStore

open Linearization ConcurrentHashTable

variable {N : Nat} {σ : Type} {B : Buffer σ} {Inv : σ → Prop} {hasher : Bytes → Nat} {s s' : State N σ}
  {states : Nat → State N σ} {L : Nat} {file : σ} {rs : List Record} {i : Nat} {r : Request} {pc pc' : Pc}
  {res : Result}

/-- The map as a sequential object.  A `put` may fail, and then changes nothing. -/
inductive MapStep : (Bytes → Bytes) → Request → Result → (Bytes → Bytes) → Prop
  | get (m : Bytes → Bytes) (key : Bytes) : MapStep m (.get key) (.value (m key)) m
  | put (m : Bytes → Bytes) (key value : Bytes) : MapStep m (.put key value) (.ok true) (Function.update m key value)
  | refuse (m : Bytes → Bytes) (key value : Bytes) : MapStep m (.put key value) (.ok false) m

/-- What the call has returned. -/
def Pc.result : Pc → Option Result
  | .returned result => some result
  | _ => none

/-- The calls that a run has made, with their results.  A call precedes another one if it had returned in a state in which
the other had not made its first step. -/
def runHistory (states : Nat → State N σ) (L : Nat) : History Nat Request Result where
  op i := (states L).threads[i]?.map Thread.request
  result i := (states L).threads[i]?.bind fun th => th.pc.result
  precedes i j := ∃ m ≤ L, (∃ r result, (states m).threads[i]? = some ⟨r, .returned result⟩) ∧
    ∀ th : Thread, (states m).threads[j]? = some th → th.pc = .called

/-- The call is running and sees the map: its result is correct, and leaves the map as it is. -/
def Read (s : State N σ) (i : Nat) (r : Request) (res : Result) : Prop :=
  (∃ pc : Pc, s.threads[i]? = some ⟨r, pc⟩ ∧ pc.Running) ∧ MapStep (mapOf s.shared.log) r res (mapOf s.shared.log)

/-- The effects of the entries that a step adds to the log. -/
def written (s s' : State N σ) : List (Effect Nat Request Result) :=
  (s'.shared.log.drop s.shared.log.length).filterMap fun e =>
    e.thread.map fun i => ⟨i, .put e.key e.value, .ok true⟩

/-- The map after some steps of the run, and after its end. -/
def mapAt (states : Nat → State N σ) (L n : Nat) : Bytes → Bytes := mapOf (states (min n L)).shared.log

/-- The result of a call that has returned. -/
def State.outcome (s : State N σ) (i : Nat) : Option (Effect Nat Request Result) := do
  let th ← s.threads[i]?
  let res ← th.pc.result
  return ⟨i, th.request, res⟩

private theorem outcome_eq_some {e : Effect Nat Request Result} :
    s.outcome i = some e ↔ e.call = i ∧ s.threads[i]? = some ⟨e.op, .returned e.result⟩ := by
  obtain ⟨j, r, res⟩ := e
  cases hi : s.threads[i]? with
  | none => simp [State.outcome, hi]
  | some th =>
    obtain ⟨r', pc⟩ := th
    cases pc <;> simp [State.outcome, hi, Pc.result, eq_comm]

/-- The calls that read the map in a state of the run, where `point` gives the state in which a call reads it. -/
def reads (states : Nat → State N σ) (L : Nat) (point : Nat → Nat) (n : Nat) : List (Effect Nat Request Result) :=
  ((List.range (states L).threads.length).filterMap (states L).outcome).filter fun e =>
    point e.call = n ∧ e.result ≠ .ok true

private theorem mem_reads {point : Nat → Nat} {n : Nat} {e : Effect Nat Request Result} :
    e ∈ reads states L point n ↔
      (states L).threads[e.call]? = some ⟨e.op, .returned e.result⟩ ∧ point e.call = n ∧ e.result ≠ .ok true := by
  rw [reads, List.mem_filter, List.mem_filterMap, decide_eq_true_iff]
  apply and_congr_left'
  constructor
  · rintro ⟨i, -, he⟩
    obtain ⟨rfl, hi⟩ := outcome_eq_some.1 he
    exact hi
  · intro hi
    exact ⟨e.call, List.mem_range.2 (List.getElem?_eq_some_iff.1 hi).1, outcome_eq_some.2 ⟨rfl, hi⟩⟩

private theorem nodup_reads (states : Nat → State N σ) (L : Nat) (point : Nat → Nat) (n : Nat) :
    ((reads states L point n).map Effect.call).Nodup := by
  rw [reads, List.Nodup, List.pairwise_map]
  apply List.Pairwise.filter
  rw [List.pairwise_filterMap]
  apply List.nodup_range.imp
  intro i j hij e he e' he'
  rwa [(outcome_eq_some.1 he).1, (outcome_eq_some.1 he').1]

/-- What takes effect in a state of the run and in the step that follows. -/
def effects (states : Nat → State N σ) (L : Nat) (point : Nat → Nat) (n : Nat) : List (Effect Nat Request Result) :=
  reads states L point n ++ if n < L then written (states n) (states (n + 1)) else []

private theorem mem_effects {point : Nat → Nat} {n : Nat} {e : Effect Nat Request Result} :
    e ∈ effects states L point n ↔ e ∈ reads states L point n ∨ n < L ∧ e ∈ written (states n) (states (n + 1)) := by
  rw [effects, List.mem_append]
  split
  · rename_i hn
    simp [hn]
  · rename_i hn
    simp [hn]

/-- Every call that returned anything but `true` reads the map in the state of its number. -/
def ReadAt (states : Nat → State N σ) (L : Nat) (point : Nat → Nat) : Prop :=
  ∀ i r res, (states L).threads[i]? = some ⟨r, .returned res⟩ → res ≠ .ok true →
    point i ≤ L ∧ Read (states (point i)) i r res

theorem ReadAt.read {point : Nat → Nat} {n : Nat} {e : Effect Nat Request Result} (h : ReadAt states L point)
    (he : e ∈ reads states L point n) :
    Read (states n) e.call e.op e.result := by
  obtain ⟨hi, rfl, hres⟩ := mem_reads.1 he
  exact (h _ _ _ hi hres).2

private theorem not_effective_of_publishes (h : pc.Publishes) : ¬ pc.Effective := by
  intro he
  cases pc <;> first | exact he | exact h

private theorem eq_of_effective (h : (Pc.returned res).Effective) : res = .ok true := by
  cases res with
  | value value => cases h
  | ok ok => rw [show ok = true from h]

private theorem running_of_publishes (h : pc.Publishes) : pc.Running := by
  cases pc <;> trivial

variable [NeZero N]

/-! ### When a call returns -/

theorem Step.returned (h : Step B hasher s s') (hi : s.threads[i]? = some ⟨r, .returned res⟩) :
    s'.threads[i]? = some ⟨r, .returned res⟩ := by
  rcases h.cases with ⟨r', -, rfl⟩ | ⟨j, r', pc, sh', pc', hj, hf, rfl⟩
  · exact getElem?_of_extends (List.prefix_append ..) hi
  · rw [List.getElem?_set_ne, hi]
    rintro rfl
    obtain ⟨rfl, rfl⟩ := Thread.mk.inj (Option.some.inj (hj.symm.trans hi))
    cases hf

theorem Run.returned (h : Run B hasher s states L) {m n : Nat} (hmn : m ≤ n) (hn : n ≤ L)
    (hi : (states m).threads[i]? = some ⟨r, .returned res⟩) :
    (states n).threads[i]? = some ⟨r, .returned res⟩ := by
  induction n, hmn using Nat.le_induction with
  | base => exact hi
  | succ n _ ih => exact (h.step n hn).returned (ih (by omega))

private theorem fires_running {sh sh' : Shared N σ} (h : Fires B hasher sh i r pc sh' pc') (hpc' : pc' = .returned res) :
    pc.Running := by
  cases h with
  | getHead =>
    unfold Shared.loadHead at hpc'
    split at hpc' <;> cases hpc'
  | lock => cases hpc'
  | _ => trivial

/-- A call that has returned was running before. -/
theorem Run.ran (h : Run B hasher s states L) (hs : s.threads = [])
    (hi : (states L).threads[i]? = some ⟨r, .returned res⟩) :
    ∃ n < L, ∃ pc : Pc, (states n).threads[i]? = some ⟨r, pc⟩ ∧ pc.Running := by
  induction L with
  | zero => simp [h.start, hs] at hi
  | succ n ih =>
    have hbefore : (states n).threads[i]? = some ⟨r, .returned res⟩ → _ := ih (h.take (Nat.le_succ n))
    rcases (h.step n (Nat.lt_succ_self n)).cases with ⟨r', -, hs'⟩ | ⟨j, r', pc, sh', pc', hj, hf, hs'⟩ <;> rw [hs'] at hi
    · rcases getElem?_concat_cases hi with ⟨-, hnew⟩ | hi
      · cases hnew
      · obtain ⟨m, hm, hrun⟩ := hbefore hi
        exact ⟨m, by omega, hrun⟩
    · rcases getElem?_set_cases hi with ⟨rfl, hnew⟩ | ⟨-, hi⟩
      · obtain ⟨rfl, hpc'⟩ := Thread.mk.inj hnew
        exact ⟨n, Nat.lt_succ_self n, pc, hj, fires_running hf hpc'.symm⟩
      · obtain ⟨m, hm, hrun⟩ := hbefore hi
        exact ⟨m, by omega, hrun⟩

/-- No call precedes one that runs at the same time or before. -/
private theorem Run.not_precedes (h : Run B hasher s states L) {m n j : Nat} (hmn : m ≤ n) (hn : n ≤ L) {r' : Request}
    (hi : (states m).threads[i]? = some ⟨r, pc⟩) (hrun : pc.Running) (hj : (states n).threads[j]? = some ⟨r', pc'⟩)
    (hrun' : pc'.Running) : ¬ (runHistory states L).precedes j i := by
  rintro ⟨t, ht, ⟨r₁, res, hret⟩, hcalled⟩
  rcases Nat.lt_or_ge t m with htm | hmt
  · have := h.returned (show t ≤ n by omega) hn hret
    rw [hj] at this
    obtain ⟨-, rfl⟩ := Thread.mk.inj (Option.some.inj this)
    exact hrun'
  · obtain ⟨pc₁, hpc₁, hstarted⟩ := h.thread hmt ht hi
    refine hstarted ?_ (hcalled _ hpc₁)
    rintro rfl
    exact hrun

/-! ### Calls that read the map -/

/-- A call that returned anything but `true` has seen the map. -/
theorem Run.read (hB : B.Lawful Inv) (h : Run B hasher s states L) (hs : Safe B Inv s)
    (hopen : JustOpened hasher rs file s) (hi : (states L).threads[i]? = some ⟨r, .returned res⟩)
    (hres : res ≠ .ok true) : ∃ n ≤ L, Read (states n) i r res := by
  obtain ⟨chains, -, hc⟩ := h.coherent hB hs hopen
  have htyped : Thread.Typed _ := (hc.knows i _ hi).typed
  cases r with
  | get key =>
    cases res with
    | value value =>
      obtain ⟨n, hn, pc, hpc, hrun, hv⟩ := h.current hB hs hopen hi
      exact ⟨n, hn, ⟨pc, hpc, hrun⟩, hv ▸ MapStep.get ..⟩
    | ok ok => exact absurd rfl (htyped.2 ok)
  | put key value =>
    obtain ⟨n, hn, pc, hpc, hrun⟩ := h.ran hopen.threads hi
    refine ⟨n, Nat.le_of_lt hn, ⟨pc, hpc, hrun⟩, ?_⟩
    rcases htyped with hcrit | hcalled | ⟨ok, hok⟩
    · cases hcrit
    · cases hcalled
    · cases ok with
      | true => exact absurd (Pc.returned.inj hok) hres
      | false =>
        rw [Pc.returned.inj hok]
        exact MapStep.refuse ..

/-! ### Calls that change the map -/

/-- A step changes nothing, or a `put` takes effect in it. -/
private theorem written_cases {was : Nat → Bytes → Prop} {chains : Fin N → List Nat} (hc : Coherent hasher was s chains)
    (h : Step B hasher s s') :
    (s'.shared.log = s.shared.log ∧ written s s' = []) ∨
      ∃ i key value pc pc', s'.shared.log = s.shared.log ++ [⟨some i, key, value⟩] ∧
        written s s' = [⟨i, .put key value, .ok true⟩] ∧ s.threads[i]? = some ⟨.put key value, pc⟩ ∧ pc.Publishes ∧
        s'.threads[i]? = some ⟨.put key value, pc'⟩ ∧ pc'.Effective := by
  have hsame : s'.shared.log = s.shared.log → s'.shared.log = s.shared.log ∧ written s s' = [] := by
    intro hlog
    rw [written, hlog, List.drop_length]
    exact ⟨rfl, rfl⟩
  rcases h.cases with ⟨r, -, rfl⟩ | ⟨i, r, pc, sh', pc', hi, hf, rfl⟩
  · exact Or.inl (hsame rfl)
  · rcases fires_log hf with hlog | ⟨hlog, hpub, heff⟩
    · exact Or.inl (hsame hlog)
    · obtain ⟨key, value, rfl⟩ := (hc.knows i _ hi).typed.put_of_critical (critical_of_publishes hpub)
      refine Or.inr ⟨i, key, value, pc, pc', hlog, ?_, hi, hpub, ?_, heff⟩
      · simp only [written, hlog, List.drop_left]
        rfl
      · exact List.getElem?_set_self (List.getElem?_eq_some_iff.1 hi).1

private theorem Step.effective (h : Step B hasher s s') (hi : s.threads[i]? = some ⟨r, pc⟩) (he : pc.Effective) :
    ∃ pc' : Pc, s'.threads[i]? = some ⟨r, pc'⟩ ∧ pc'.Effective := by
  rcases h.cases with ⟨r', -, rfl⟩ | ⟨j, r', pc₁, sh', pc', hj, hf, rfl⟩
  · exact ⟨pc, getElem?_of_extends (List.prefix_append ..) hi, he⟩
  · by_cases hij : j = i
    · subst hij
      obtain ⟨rfl, rfl⟩ := Thread.mk.inj (Option.some.inj (hj.symm.trans hi))
      exact ⟨pc', List.getElem?_set_self (List.getElem?_eq_some_iff.1 hj).1, fires_effective hf he⟩
    · exact ⟨pc, by rw [List.getElem?_set_ne hij, hi], he⟩

private theorem Run.effective (h : Run B hasher s states L) {m n : Nat} (hmn : m ≤ n) (hn : n ≤ L)
    (hi : (states m).threads[i]? = some ⟨r, pc⟩) (he : pc.Effective) :
    ∃ pc' : Pc, (states n).threads[i]? = some ⟨r, pc'⟩ ∧ pc'.Effective := by
  induction n, hmn using Nat.le_induction with
  | base => exact ⟨pc, hi, he⟩
  | succ n _ ih =>
    obtain ⟨pc₁, h₁, he₁⟩ := ih (by omega)
    exact (h.step n hn).effective h₁ he₁

/-- A call whose effect is an entry of the log has that effect from then on. -/
private theorem Run.effective_of_written (hB : B.Lawful Inv) (h : Run B hasher s states L) (hs : Safe B Inv s)
    (hopen : JustOpened hasher rs file s) {n : Nat} (hn : n < L) {e : Effect Nat Request Result}
    (he : e ∈ written (states n) (states (n + 1))) :
    e.result = .ok true ∧ (∃ pc, (states n).threads[e.call]? = some ⟨e.op, pc⟩ ∧ pc.Publishes) ∧
      ∀ k, n < k → k ≤ L → ∃ pc, (states k).threads[e.call]? = some ⟨e.op, pc⟩ ∧ pc.Effective := by
  obtain ⟨chains, -, hc⟩ := (h.take (Nat.le_of_lt hn)).coherent hB hs hopen
  rcases written_cases hc (h.step n hn) with ⟨-, hw⟩ | ⟨i, key, value, pc, pc', -, hw, hi, hpub, hi', heff⟩ <;>
    rw [hw] at he
  · cases he
  · obtain rfl := List.mem_singleton.1 he
    exact ⟨rfl, ⟨pc, hi, hpub⟩, fun k hk hkL => h.effective hk hkL hi' heff⟩

/-- An entry of a call is added by some step. -/
theorem Run.logged (hB : B.Lawful Inv) (h : Run B hasher s states L) (hs : Safe B Inv s)
    (hopen : JustOpened hasher rs file s) {key value : Bytes} (he : ⟨some i, key, value⟩ ∈ (states L).shared.log) :
    ∃ n < L, (⟨i, .put key value, .ok true⟩ : Effect Nat Request Result) ∈ written (states n) (states (n + 1)) := by
  induction L with
  | zero =>
    rw [h.start, hopen.log] at he
    obtain ⟨rec, -, hrec⟩ := List.mem_map.1 he
    cases hrec
  | succ n ih =>
    have hbefore : ⟨some i, key, value⟩ ∈ (states n).shared.log → ∃ m < n + 1,
        (⟨i, .put key value, .ok true⟩ : Effect Nat Request Result) ∈ written (states m) (states (m + 1)) := by
      intro he
      obtain ⟨m, hm, hw⟩ := ih (h.take (Nat.le_succ n)) he
      exact ⟨m, by omega, hw⟩
    obtain ⟨chains, -, hc⟩ := (h.take (Nat.le_succ n)).coherent hB hs hopen
    rcases written_cases hc (h.step n (Nat.lt_succ_self n)) with ⟨hlog, -⟩ | ⟨j, k, v, pc, pc', hlog, hw, -⟩
    · exact hbefore (hlog ▸ he)
    · rw [hlog] at he
      rcases List.mem_append.1 he with he | he
      · exact hbefore he
      · obtain ⟨hj, rfl, rfl⟩ := LogEntry.mk.inj (List.mem_singleton.1 he)
        obtain rfl := Option.some.inj hj
        exact ⟨n, Nat.lt_succ_self n, by rw [hw]; exact List.mem_singleton_self _⟩

/-! ### The order of the calls -/

variable {point : Nat → Nat} {m n : Nat} {e e' : Effect Nat Request Result}

private theorem Run.read_ne_written (hB : B.Lawful Inv) (h : Run B hasher s states L) (hs : Safe B Inv s)
    (hopen : JustOpened hasher rs file s) (he : e ∈ reads states L point m) (hn : n < L)
    (he' : e' ∈ written (states n) (states (n + 1))) : e.call ≠ e'.call := by
  intro hcall
  obtain ⟨hi, -, hres⟩ := mem_reads.1 he
  obtain ⟨-, -, heff⟩ := h.effective_of_written hB hs hopen hn he'
  obtain ⟨pc, hpc, heff⟩ := heff L hn (Nat.le_refl L)
  rw [← hcall, hi] at hpc
  obtain ⟨-, rfl⟩ := Thread.mk.inj (Option.some.inj hpc)
  exact hres (eq_of_effective heff)

/-- A call is running when it takes effect. -/
theorem Run.running (hB : B.Lawful Inv) (h : Run B hasher s states L) (hs : Safe B Inv s)
    (hopen : JustOpened hasher rs file s) (hpoint : ReadAt states L point) (he : e ∈ effects states L point n) :
    ∃ pc : Pc, (states n).threads[e.call]? = some ⟨e.op, pc⟩ ∧ pc.Running := by
  rcases mem_effects.1 he with he | ⟨hn, he⟩
  · exact (hpoint.read he).1
  · obtain ⟨-, ⟨pc, hpc, hpub⟩, -⟩ := h.effective_of_written hB hs hopen hn he
    exact ⟨pc, hpc, running_of_publishes hpub⟩

private theorem Run.outcome (hB : B.Lawful Inv) (h : Run B hasher s states L) (hs : Safe B Inv s)
    (hopen : JustOpened hasher rs file s) (he : e ∈ effects states L point n) {res : Result}
    (hres : (runHistory states L).result e.call = some res) : res = e.result := by
  replace hres : ((states L).threads[e.call]?.bind fun th => th.pc.result) = some res := hres
  rcases mem_effects.1 he with he | ⟨hn, he⟩
  · rw [(mem_reads.1 he).1] at hres
    exact (Option.some.inj hres).symm
  · obtain ⟨htrue, -, heff⟩ := h.effective_of_written hB hs hopen hn he
    obtain ⟨pc, hpc, heff⟩ := heff L hn (Nat.le_refl L)
    rw [hpc, Option.bind_some] at hres
    cases pc with
    | returned res' =>
      obtain rfl := Option.some.inj hres
      rw [htrue]
      exact eq_of_effective heff
    | _ => cases hres

/-- Every call that returned has taken effect. -/
theorem Run.complete (hB : B.Lawful Inv) (h : Run B hasher s states L) (hs : Safe B Inv s)
    (hopen : JustOpened hasher rs file s) (hpoint : ReadAt states L point)
    (hi : (states L).threads[i]? = some ⟨r, .returned res⟩) : ∃ n < L + 1, ⟨i, r, res⟩ ∈ effects states L point n := by
  by_cases hres : res = .ok true
  · subst hres
    obtain ⟨chains, -, hc⟩ := h.coherent hB hs hopen
    cases r with
    | get key => exact absurd rfl ((hc.knows i _ hi).typed.2 true)
    | put key value =>
      obtain ⟨n, hn, hw⟩ := h.logged hB hs hopen (((hc.knows i _ hi).put key value rfl).2 rfl)
      exact ⟨n, by omega, mem_effects.2 (Or.inr ⟨hn, hw⟩)⟩
  · have hle := (hpoint i r res hi hres).1
    exact ⟨point i, by omega, mem_effects.2 (Or.inl (mem_reads.2 ⟨hi, rfl, hres⟩))⟩

/-- No call takes effect twice. -/
theorem Run.effect_once (hB : B.Lawful Inv) (h : Run B hasher s states L) (hs : Safe B Inv s)
    (hopen : JustOpened hasher rs file s) (hmn : m < n) (he : e ∈ effects states L point m)
    (he' : e' ∈ effects states L point n) : e.call ≠ e'.call := by
  intro hcall
  rcases mem_effects.1 he with he | ⟨hm, he⟩ <;> rcases mem_effects.1 he' with he' | ⟨hn, he'⟩
  · have hm : point e.call = m := (mem_reads.1 he).2.1
    have hn : point e'.call = n := (mem_reads.1 he').2.1
    rw [hcall] at hm
    omega
  · exact h.read_ne_written hB hs hopen he hn he' hcall
  · exact h.read_ne_written hB hs hopen he' hm he hcall.symm
  · obtain ⟨-, -, heff⟩ := h.effective_of_written hB hs hopen hm he
    obtain ⟨pc, hpc, heff⟩ := heff n hmn (Nat.le_of_lt hn)
    obtain ⟨-, ⟨pc', hpc', hpub⟩, -⟩ := h.effective_of_written hB hs hopen hn he'
    rw [hcall, hpc'] at hpc
    obtain ⟨-, rfl⟩ := Thread.mk.inj (Option.some.inj hpc)
    exact not_effective_of_publishes hpub heff

private theorem Run.nodup_effects (hB : B.Lawful Inv) (h : Run B hasher s states L) (hs : Safe B Inv s)
    (hopen : JustOpened hasher rs file s) (hn : n ≤ L) : ((effects states L point n).map Effect.call).Nodup := by
  rw [effects, List.map_append, List.nodup_append']
  refine ⟨nodup_reads states L point n, ?_, fun i hi hi' => ?_⟩
  · split
    · rename_i hlt
      obtain ⟨chains, -, hc⟩ := (h.take hn).coherent hB hs hopen
      rcases written_cases hc (h.step n hlt) with ⟨-, hw⟩ | ⟨i, key, value, pc, pc', -, hw, -⟩
      · rw [hw]
        exact List.nodup_nil
      · rw [hw]
        exact List.nodup_singleton i
    · exact List.nodup_nil
  · obtain ⟨e, he, rfl⟩ := List.mem_map.1 hi
    split at hi'
    · rename_i hlt
      obtain ⟨e', he', hcall⟩ := List.mem_map.1 hi'
      exact h.read_ne_written hB hs hopen he hlt he' hcall.symm
    · cases hi'

/-- The effects of a state and of the step that follows lead from its map to the next one. -/
private theorem Run.path_effects (hB : B.Lawful Inv) (h : Run B hasher s states L) (hs : Safe B Inv s)
    (hopen : JustOpened hasher rs file s) (hpoint : ReadAt states L point) (hn : n ≤ L) :
    Path MapStep (mapAt states L n) (effects states L point n) (mapAt states L (n + 1)) := by
  have hnow : mapAt states L n = mapOf (states n).shared.log := by rw [mapAt, Nat.min_eq_left hn]
  have hreads : Path MapStep (mapAt states L n) (reads states L point n) (mapAt states L n) := by
    apply Path.stay
    intro e he
    rw [hnow]
    exact (hpoint.read he).2
  apply hreads.append
  split
  · rename_i hlt
    have hnext : mapAt states L (n + 1) = mapOf (states (n + 1)).shared.log := by rw [mapAt, Nat.min_eq_left hlt]
    obtain ⟨chains, -, hc⟩ := (h.take hn).coherent hB hs hopen
    rcases written_cases hc (h.step n hlt) with ⟨hlog, hw⟩ | ⟨i, key, value, pc, pc', hlog, hw, -⟩
    · rw [hw, hnext, hnow, hlog]
      exact Path.nil
    · have hput : mapAt states L (n + 1) = Function.update (mapAt states L n) key value := by
        rw [hnext, hnow, hlog]
        funext k
        rw [mapOf_concat, Function.update_apply]
        exact if_congr eq_comm rfl rfl
      rw [hw, hput]
      exact Path.single (MapStep.put ..)
  · have hlast : mapAt states L (n + 1) = mapAt states L n := by
      rw [mapAt, mapAt, Nat.min_eq_right (by omega), Nat.min_eq_right (by omega)]
    rw [hlast]
    exact Path.nil

/-- The times at which the calls of a run take effect. -/
theorem Run.points (hB : B.Lawful Inv) (h : Run B hasher s states L) (hs : Safe B Inv s)
    (hopen : JustOpened hasher rs file s) (hpoint : ReadAt states L point) :
    Points MapStep (runHistory states L) (mapAt states L) (effects states L point) (L + 1) := by
  refine ⟨fun n hn => h.nodup_effects hB hs hopen (by omega), fun m n hmn _ e he e' he' => ?_, fun n hn e he => ?_,
    fun n _ e he res hres => h.outcome hB hs hopen he hres, fun i r res hr hres => ?_,
    fun m n hmn hn e he e' he' => ?_, fun n hn => h.path_effects hB hs hopen hpoint (by omega)⟩
  · exact h.effect_once hB hs hopen hmn he he'
  · obtain ⟨pc, hpc, -⟩ := h.running hB hs hopen hpoint he
    obtain ⟨pc', hpc', -⟩ := h.thread (show n ≤ L by omega) (Nat.le_refl L) hpc
    exact Option.map_eq_some_iff.2 ⟨_, hpc', rfl⟩
  · obtain ⟨th, hth, rfl⟩ := Option.map_eq_some_iff.1 hr
    obtain ⟨th', hth', hpc⟩ := Option.bind_eq_some_iff.1 hres
    obtain rfl := Option.some.inj (hth.symm.trans hth')
    obtain ⟨r, pc⟩ := th
    cases pc with
    | returned res' =>
      obtain rfl := Option.some.inj hpc
      exact h.complete hB hs hopen hpoint hth
    | _ => cases hpc
  · obtain ⟨pc, hpc, hrun⟩ := h.running hB hs hopen hpoint he
    obtain ⟨pc', hpc', hrun'⟩ := h.running hB hs hopen hpoint he'
    exact h.not_precedes hmn (by omega) hpc hrun hpc' hrun'

theorem Run.linearizable (hB : B.Lawful Inv) (h : Run B hasher s states L) (hs : Safe B Inv s)
    (hopen : JustOpened hasher rs file s) :
    Linearization.Linearizable MapStep (lastValue rs) (runHistory states L) := by
  have hpoint : ∀ i, ∃ n, ∀ r res, (states L).threads[i]? = some ⟨r, .returned res⟩ → res ≠ .ok true →
      n ≤ L ∧ Read (states n) i r res := by
    intro i
    by_cases hret : ∃ r res, (states L).threads[i]? = some ⟨r, .returned res⟩ ∧ res ≠ .ok true
    · obtain ⟨r, res, hth, hres⟩ := hret
      obtain ⟨n, hn, hread⟩ := h.read hB hs hopen hth hres
      refine ⟨n, fun r' res' hth' _ => ?_⟩
      obtain ⟨rfl, hpc⟩ := Thread.mk.inj (Option.some.inj (hth.symm.trans hth'))
      obtain rfl := Pc.returned.inj hpc
      exact ⟨hn, hread⟩
    · exact ⟨0, fun r res hth hres => absurd ⟨r, res, hth, hres⟩ hret⟩
  choose point hpoint using hpoint
  have hmap : mapAt states L 0 = lastValue rs := by
    rw [mapAt, Nat.zero_min, h.start, hopen.log]
    funext key
    exact mapOf_loaded rs key
  rw [← hmap]
  exact (h.points hB hs hopen hpoint).linearizable

/-- In every run from a file of records in which no split is stale the calls are linearizable: the `get`s and `put`s that
returned, and some of the others, are correct one after another on the map of the file, in an order that keeps which call had
returned before which began. -/
theorem calls_linearizable {dbSize : Nat} {file : FileBackedBuffer} (hi : file.Sound dbSize) {rs : List Record}
    (hf : FileHolds (plainBuffer dbSize) file (rs.map Record.block) rs) (hasher : Bytes → Nat) :
    ∃ s₀, State.opened (N := N) (plainBuffer dbSize) hasher file = some s₀ ∧
      ∀ states L, Run (plainBuffer dbSize) hasher s₀ states L → NoStaleSplitIn states L →
        Linearization.Linearizable MapStep (lastValue rs) (runHistory states L) := by
  obtain ⟨s₀, hs₀, hopen⟩ := opened_of_holds (N := N) hf hasher
  refine ⟨s₀, hs₀, fun states L h hns => ?_⟩
  exact (h.guarded hns).linearizable (guardedBuffer_lawful dbSize) (hopen.safe hi hf.guarded) hopen

theorem calls_linearizable_of_one_bucket :
    ∃ s₀, State.opened (N := 1) (plainBuffer 220) List.length (emptyFile 220 (by decide)) = some s₀ ∧
      ∀ states L, Run (plainBuffer 220) List.length s₀ states L → NoStaleSplitIn states L →
        Linearization.Linearizable MapStep (lastValue []) (runHistory states L) := by
  obtain ⟨hi, hs⟩ := emptyFile_sound 220 (by decide) (by decide)
  have hf : FileHolds (plainBuffer 220) (emptyFile 220 (by decide)) (([] : List Record).map Record.block) [] :=
    fileHolds_empty hs
  exact calls_linearizable hi hf List.length

end KeyValueStore
