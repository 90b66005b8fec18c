import KeyValueStore.Concurrent
import KeyValueStore.Entries

/-!
# What a step can do

`Fires` lists the steps of a call, one constructor for each, with what is known when it happens and what it changes.  Every
step is one of them (`Shared.step_fires`, `Step.cases`), and the invariants of the store are proved along this list.
-/

namespace KeyValueStore

open ConcurrentHashTable

/-- The block that a call has allocated and not yet published. -/
def Pc.block : Pc → Option Nat
  | .findHead block => block
  | .findLoad block _ => block
  | .findCompare block _ _ => block
  | .findDrop block _ _ _ => block
  | .findNext block _ => block
  | .found block _ => block
  | .copyKey block _ _ => some block
  | .copyValue block _ _ => some block
  | .setPointer block _ _ => some block
  | _ => none

/-- The control block of which a call holds a copy. -/
def Pc.control : Pc → Option Nat
  | .findCompare _ _ control => some control
  | .findDrop _ _ control _ => some control
  | .readValue control => some control
  | .dropValue control _ => some control
  | .dropOld control _ _ => some control
  | _ => none

/-- The bucket at which a call stands. -/
def Pc.bucket : Pc → Option Nat
  | .findLoad _ bucket => some bucket
  | .findCompare _ bucket _ => some bucket
  | .findDrop _ bucket _ _ => some bucket
  | .findNext _ bucket => some bucket
  | .found _ bucket => bucket
  | .copyKey _ bucket _ => some bucket
  | .copyValue _ bucket _ => some bucket
  | .setPointer _ bucket _ => some bucket
  | .dropOld _ bucket _ => some bucket
  | .storeBucket bucket => some bucket
  | _ => none

/-- The call holds the write mutex. -/
def Pc.Critical : Pc → Prop
  | .locked => True
  | .dropOld _ _ _ => True
  | .storeBucket _ => True
  | .unlock _ => True
  | pc => pc.block.isSome

variable {N : Nat} [NeZero N] {σ : Type}

inductive Fires (B : Buffer σ) (hasher : Bytes → Nat) (sh : Shared N σ) (i : Nat) (r : Request) :
    Pc → Shared N σ → Pc → Prop
  | getHead {key : Bytes} (hr : r = .get key) : Fires B hasher sh i r .called sh (sh.loadHead hasher r.key none)
  | lock {key value : Bytes} (hr : r = .put key value) (hm : sh.writeMutex = none) :
    Fires B hasher sh i r .called { sh with writeMutex := some i } .locked
  | allocFail {s : σ} (ha : B.alloc (r.key.length + 1 + r.value.length + 1) sh.buffer = (none, s)) :
    Fires B hasher sh i r .locked { sh with buffer := s } (.unlock false)
  | alloc {s : σ} {p : Nat} (ha : B.alloc (r.key.length + 1 + r.value.length + 1) sh.buffer = (some p, s)) :
    Fires B hasher sh i r .locked { sh with buffer := s } (.findHead (some p))
  | loadHead {block : Option Nat} : Fires B hasher sh i r (.findHead block) sh (sh.loadHead hasher r.key block)
  | load {block : Option Nat} {b c : Nat} (hc : sh.loadPointer b = some c) :
    Fires B hasher sh i r (.findLoad block b) (sh.acquire c) (.findCompare block b c)
  | compare {block : Option Nat} {b c : Nat} {k : Bytes} (hk : sh.keyString B c = some k) :
    Fires B hasher sh i r (.findCompare block b c) sh (.findDrop block b c (r.key = k))
  | dropCompared {block : Option Nat} {b c : Nat} {equal : Bool} :
    Fires B hasher sh i r (.findDrop block b c equal) (sh.release B c)
      (if equal then .found block (some b) else .findNext block b)
  | last {block : Option Nat} {b : Nat} (hb : b < sh.bucketStorage.length) (hn : nextOf sh.bucketStorage b = none) :
    Fires B hasher sh i r (.findNext block b) sh (.found block none)
  | next {block : Option Nat} {b b' : Nat} (hn : nextOf sh.bucketStorage b = some b') :
    Fires B hasher sh i r (.findNext block b) sh (.findLoad block b')
  | miss : Fires B hasher sh i r (.found none none) sh (.returned (.value []))
  | hit {b c : Nat} (hc : sh.loadPointer b = some c) :
    Fires B hasher sh i r (.found none (some b)) (sh.acquire c) (.readValue c)
  | read {c : Nat} {v : Bytes} (hv : sh.valueString B c = some v) :
    Fires B hasher sh i r (.readValue c) sh (.dropValue c v)
  | dropRead {c : Nat} {v : Bytes} : Fires B hasher sh i r (.dropValue c v) (sh.release B c) (.returned (.value v))
  | newBucket {p : Nat} : Fires B hasher sh i r (.found (some p) none)
      { sh with bucketStorage := sh.bucketStorage ++ [⟨none, none⟩] } (.copyKey p sh.bucketStorage.length true)
  | oldBucket {p b : Nat} : Fires B hasher sh i r (.found (some p) (some b)) sh (.copyKey p b false)
  | copyKey {p b : Nat} {isNew : Bool} : Fires B hasher sh i r (.copyKey p b isNew)
      { sh with buffer := ConcurrentHashTable.copyKey B p r.key sh.buffer } (.copyValue p b isNew)
  | copyValue {p b : Nat} {isNew : Bool} {s : σ}
      (hs : ConcurrentHashTable.copyValue B p r.value sh.buffer = some s) :
    Fires B hasher sh i r (.copyValue p b isNew) { sh with buffer := s } (.setPointer p b isNew)
  | setFresh {p b : Nat} {isNew : Bool} (hb : sh.loadPointer b = none) : Fires B hasher sh i r (.setPointer p b isNew)
      { sh.exchange B r p b with log := if isNew then sh.log else sh.log ++ [⟨some i, r.key, r.value⟩] }
      (Shared.afterSet b isNew)
  | setOld {p b c : Nat} {isNew : Bool} (hb : sh.loadPointer b = some c) : Fires B hasher sh i r (.setPointer p b isNew)
      { sh.exchange B r p b with log := if isNew then sh.log else sh.log ++ [⟨some i, r.key, r.value⟩] }
      (.dropOld c b isNew)
  | dropOld {b c : Nat} {isNew : Bool} :
    Fires B hasher sh i r (.dropOld c b isNew) (sh.release B c) (Shared.afterSet b isNew)
  | storeBucket {b : Nat} : Fires B hasher sh i r (.storeBucket b)
      { sh.link hasher r.key b with log := sh.log ++ [⟨some i, r.key, r.value⟩] } (.unlock true)
  | unlock {ok : Bool} : Fires B hasher sh i r (.unlock ok) { sh with writeMutex := none } (.returned (.ok ok))

variable {B : Buffer σ} {hasher : Bytes → Nat} {sh sh' : Shared N σ} {i : Nat} {r : Request} {pc pc' : Pc}

/-- Every step of a call is in the list. -/
theorem Shared.step_fires (h : sh.step B hasher i r pc = some (sh', pc')) : Fires B hasher sh i r pc sh' pc' := by
  cases pc with
  | called =>
    cases r with
    | get key =>
      obtain ⟨rfl, rfl⟩ : sh = sh' ∧ _ = pc' := by simpa [Shared.step] using h
      exact .getHead rfl
    | put key value =>
      simp only [Shared.step] at h
      split at h
      · rename_i hm
        obtain ⟨rfl, rfl⟩ := Prod.mk.inj (Option.some.inj h)
        exact .lock rfl hm
      · cases h
  | locked =>
    simp only [Shared.step] at h
    split at h
    · rename_i ha
      obtain ⟨rfl, rfl⟩ := Prod.mk.inj (Option.some.inj h)
      exact .allocFail ha
    · rename_i ha
      obtain ⟨rfl, rfl⟩ := Prod.mk.inj (Option.some.inj h)
      exact .alloc ha
  | findHead block =>
    obtain ⟨rfl, rfl⟩ := Prod.mk.inj (Option.some.inj h)
    exact .loadHead
  | findLoad block b =>
    obtain ⟨c, hc, h⟩ := Option.bind_eq_some_iff.1 h
    obtain ⟨rfl, rfl⟩ := Prod.mk.inj (Option.some.inj h)
    exact .load hc
  | findCompare block b c =>
    obtain ⟨k, hk, h⟩ := Option.bind_eq_some_iff.1 h
    obtain ⟨rfl, rfl⟩ := Prod.mk.inj (Option.some.inj h)
    exact .compare hk
  | findDrop block b c equal =>
    obtain ⟨rfl, rfl⟩ := Prod.mk.inj (Option.some.inj h)
    exact .dropCompared
  | findNext block b =>
    obtain ⟨bucket, hb, h⟩ := Option.bind_eq_some_iff.1 h
    have hn : nextOf sh.bucketStorage b = bucket.nextBucket := by rw [nextOf, hb, Option.bind_some]
    split at h
    · rename_i hnone
      obtain ⟨rfl, rfl⟩ := Prod.mk.inj (Option.some.inj h)
      exact .last (List.getElem?_eq_some_iff.1 hb).1 (hn.trans hnone)
    · rename_i hsome
      obtain ⟨rfl, rfl⟩ := Prod.mk.inj (Option.some.inj h)
      exact .next (hn.trans hsome)
  | found block bucket =>
    rcases block with _ | p <;> rcases bucket with _ | b
    · obtain ⟨rfl, rfl⟩ := Prod.mk.inj (Option.some.inj h)
      exact .miss
    · obtain ⟨c, hc, h⟩ := Option.bind_eq_some_iff.1 h
      obtain ⟨rfl, rfl⟩ := Prod.mk.inj (Option.some.inj h)
      exact .hit hc
    · obtain ⟨rfl, rfl⟩ := Prod.mk.inj (Option.some.inj h)
      exact .newBucket
    · obtain ⟨rfl, rfl⟩ := Prod.mk.inj (Option.some.inj h)
      exact .oldBucket
  | readValue c =>
    obtain ⟨v, hv, h⟩ := Option.bind_eq_some_iff.1 h
    obtain ⟨rfl, rfl⟩ := Prod.mk.inj (Option.some.inj h)
    exact .read hv
  | dropValue c v =>
    obtain ⟨rfl, rfl⟩ := Prod.mk.inj (Option.some.inj h)
    exact .dropRead
  | copyKey p b isNew =>
    obtain ⟨rfl, rfl⟩ := Prod.mk.inj (Option.some.inj h)
    exact .copyKey
  | copyValue p b isNew =>
    obtain ⟨s, hs, h⟩ := Option.bind_eq_some_iff.1 h
    obtain ⟨rfl, rfl⟩ := Prod.mk.inj (Option.some.inj h)
    exact .copyValue hs
  | setPointer p b isNew =>
    obtain ⟨rfl, rfl⟩ := Prod.mk.inj (Option.some.inj h)
    cases hb : sh.loadPointer b with
    | none => exact .setFresh hb
    | some c => exact .setOld hb
  | dropOld c b isNew =>
    obtain ⟨rfl, rfl⟩ := Prod.mk.inj (Option.some.inj h)
    exact .dropOld
  | storeBucket b =>
    obtain ⟨rfl, rfl⟩ := Prod.mk.inj (Option.some.inj h)
    exact .storeBucket
  | unlock ok =>
    obtain ⟨rfl, rfl⟩ := Prod.mk.inj (Option.some.inj h)
    exact .unlock
  | returned result => cases h

/-- A step of the call `i`. -/
theorem State.step_fires {s s' : State N σ} (h : s.step B hasher i = some s') :
    ∃ r pc sh' pc', s.threads[i]? = some ⟨r, pc⟩ ∧ Fires B hasher s.shared i r pc sh' pc' ∧
      s' = ⟨sh', s.threads.set i ⟨r, pc'⟩⟩ := by
  obtain ⟨⟨r, pc⟩, hth, h⟩ := Option.bind_eq_some_iff.1 h
  obtain ⟨⟨sh', pc'⟩, hstep, h⟩ := Option.bind_eq_some_iff.1 h
  exact ⟨r, pc, sh', pc', hth, Shared.step_fires hstep, (Option.some.inj h).symm⟩

/-- A step of the store is a new call, or a step of one call. -/
theorem Step.cases {s s' : State N σ} (h : Step B hasher s s') :
    (∃ r, r.NulFree ∧ s' = s.call r) ∨
      ∃ i r pc sh' pc', s.threads[i]? = some ⟨r, pc⟩ ∧ Fires B hasher s.shared i r pc sh' pc' ∧
        s' = ⟨sh', s.threads.set i ⟨r, pc'⟩⟩ := by
  cases h with
  | call r hr => exact Or.inl ⟨r, hr, rfl⟩
  | step i h => exact Or.inr ⟨i, State.step_fires h⟩

end KeyValueStore
