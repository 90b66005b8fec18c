import KeyValueStore.Effects
import KeyValueStore.Knowledge

/-!
# There are no data races

The reads take no lock.  What they share with the writes are the links and the record pointers of the buckets and the bytes
of the file (`Place`).  Of two accesses to the same place of which one is a write, and which are not both atomic, the earlier
one happens before the later one, in every run (`calls_race_free`).  For the bytes of a record this is an argument about
owners: the call that fills the block owns them, then whoever holds the record uses them, and the call of `free` that follows
the last use happens before the next allocation.
-/

namespace KeyValueStore

open ByteMemory HappensBefore ConcurrentHashTable References

variable {N : Nat} {σ : Type} {B : Buffer σ} {Inv : σ → Prop} {hasher : Bytes → Nat} {s s' : State N σ}
  {sh sh' : Shared N σ} {states : Nat → State N σ} {actor : Nat → Option Nat} {L R : Nat} {i j k m n b c a : Nat}
  {r r' : Request} {pc pc' : Pc}

/-- What is accessed. -/
inductive Place (N : Nat) where
  /-- a chain head -/
  | head (index : Fin N)
  /-- the link of a bucket -/
  | link (bucket : Nat)
  /-- the record pointer of a bucket -/
  | pointer (bucket : Nat)
  /-- the container of the buckets -/
  | storage
  /-- a byte of the file -/
  | byte (address : Nat)

/-- The control block of which the next step reads the record. -/
def Pc.reads : Pc → Option Nat
  | .findCompare _ _ control => some control
  | .readValue control => some control
  | _ => none

/-- The block into which the next step copies. -/
def Pc.copies : Pc → Option Nat
  | .copyKey block _ _ => some block
  | .copyValue block _ _ => some block
  | _ => none

/-- The byte is one of the record. -/
def Record.Covers (r : Record) (a : Nat) : Prop := r.data ≤ a ∧ a < r.data + r.key.length + 1 + r.value.length + 1

/-- The byte is one that the call copies into its block. -/
def Request.Covers (r : Request) (p a : Nat) : Prop := p ≤ a ∧ a < p + r.key.length + 1 + r.value.length + 1

/-- The byte lies in none of the blocks. -/
def Outside (bs : List Payload) (a : Nat) : Prop := ∀ b ∈ bs, a < b.data ∨ b.data + b.size ≤ a

/-- The next step of the call is a call of `alloc` or of `free`, which may access all bytes outside of the used blocks. -/
def Touches (B : Buffer σ) (s : State N σ) (i a : Nat) : Prop :=
  ((∃ r, s.threads[i]? = some ⟨r, .locked⟩) ∧ Outside (B.usedBlocks s.shared.buffer) a) ∨
    ∃ c x, Frees s i c ∧ s.shared.controls[c]? = some x ∧
      Outside ((B.usedBlocks s.shared.buffer).erase x.record.block) a

/-- What the next step of the call accesses. -/
inductive Accesses [NeZero N] (B : Buffer σ) (hasher : Bytes → Nat) (s : State N σ) (i : Nat) : Place N → Access → Prop
  | loadHead {r : Request} {pc : Pc} (h : s.threads[i]? = some ⟨r, pc⟩) (hl : (⟨r, pc⟩ : Thread).LoadsHead) :
    Accesses B hasher s i (.head (hashTableIndex hasher r.key)) .atomicRead
  | storeHead {r : Request} {b : Nat} (h : s.threads[i]? = some ⟨r, .storeBucket b⟩) :
    Accesses B hasher s i (.head (hashTableIndex hasher r.key)) .atomicWrite
  | next {r : Request} {block : Option Nat} {b : Nat} (h : s.threads[i]? = some ⟨r, .findNext block b⟩) :
    Accesses B hasher s i (.link b) .read
  | storeLink {r : Request} {b : Nat} (h : s.threads[i]? = some ⟨r, .storeBucket b⟩) : Accesses B hasher s i (.link b) .write
  | load {r : Request} {pc : Pc} {b : Nat} (h : s.threads[i]? = some ⟨r, pc⟩) (hb : pc.loads = some b) :
    Accesses B hasher s i (.pointer b) .atomicRead
  | set {r : Request} {p b : Nat} {isNew : Bool} (h : s.threads[i]? = some ⟨r, .setPointer p b isNew⟩) :
    Accesses B hasher s i (.pointer b) .atomicWrite
  | newLink {r : Request} {p : Nat} (h : s.threads[i]? = some ⟨r, .found (some p) none⟩) :
    Accesses B hasher s i (.link s.shared.bucketStorage.length) .write
  | newPointer {r : Request} {p : Nat} (h : s.threads[i]? = some ⟨r, .found (some p) none⟩) :
    Accesses B hasher s i (.pointer s.shared.bucketStorage.length) .write
  | newBucket {r : Request} {p : Nat} (h : s.threads[i]? = some ⟨r, .found (some p) none⟩) :
    Accesses B hasher s i .storage .write
  | read {r : Request} {pc : Pc} {c a : Nat} {x : Control} (h : s.threads[i]? = some ⟨r, pc⟩) (hc : pc.reads = some c)
    (hx : s.shared.controls[c]? = some x) (ha : x.record.Covers a) : Accesses B hasher s i (.byte a) .read
  | copy {r : Request} {pc : Pc} {p a : Nat} (h : s.threads[i]? = some ⟨r, pc⟩) (hp : pc.copies = some p)
    (ha : r.Covers p a) : Accesses B hasher s i (.byte a) .write
  | touch {a : Nat} (h : Touches B s i a) : Accesses B hasher s i (.byte a) .write

/-- What the steps of a trace access. -/
def access [NeZero N] (B : Buffer σ) (hasher : Bytes → Nat) (states : Nat → State N σ) (actor : Nat → Option Nat) (n : Nat)
    (x : Place N) (a : Access) : Prop :=
  ∃ i, actor n = some i ∧ Accesses B hasher (states n) i x a

/-! ### What the buffer touches -/

/-- The call reads and stores words outside of the blocks only. -/
def Local {α : Type} (call : BufferM α) (s : FileBackedBuffer) (bs : List Payload) : Prop :=
  ∃ a ws, (∀ w ∈ ws, ∀ x, w.1.Covers x → Outside bs x) ∧
    ∀ t : FileBackedBuffer, t.dbSize = s.dbSize → (∀ x, Outside bs x → t.base x = s.base x) → call t = some (a, t.after ws)

private theorem local_of_exec {α : Type} {D : Set Nat} {call : BufferM α} {x : α} {ws : List (Field × Nat)}
    {file : FileBackedBuffer} {bs : List Block} (hx : Exec D file.dbSize file.field call x ws)
    (hout : ∀ b ∈ bs, ∀ a, b.data ≤ a → a < b.stop → 16 ≤ a ∧ ∀ d ∈ D, a < d ∨ d + 24 ≤ a) :
    Local call file (bs.map Block.payload) := by
  have hfield : ∀ {f : Field} {a : Nat}, f.On D → f.Covers a → Outside (bs.map Block.payload) a := by
    intro f a hf ha p hp
    obtain ⟨b, hb, rfl⟩ := List.mem_map.1 hp
    by_contra hin
    simp only [Block.payload, not_or, not_lt, not_le] at hin
    have hstop : b.data + b.dataSize = b.stop := rfl
    obtain ⟨h16, hD⟩ := hout b hb a hin.1 (by omega)
    rcases covers_header hf ha with h | ⟨d, hd, h⟩
    · omega
    · have := hD d hd
      omega
  refine ⟨x, ws, fun w hw a ha => hfield (hx.stores w hw).1 ha, fun t hdb ht => hx.run t hdb fun f hf => ?_⟩
  exact word_congr fun k hk => ht _ (hfield hf ⟨Nat.le_add_right .., Nat.add_lt_add_left hk _⟩)

/-- `alloc` touches no used block, and `free` none but the one it frees. -/
structure BufferLocal (dbSize : Nat) (file : FileBackedBuffer) : Prop where
  alloc : ∀ size, Local (alloc size) file ((plainBuffer dbSize).usedBlocks file)
  free : ∀ b ∈ (plainBuffer dbSize).usedBlocks file, Local (free b.data) file (((plainBuffer dbSize).usedBlocks file).erase b)

theorem FileBackedBuffer.Sound.bufferLocal {dbSize : Nat} {file : FileBackedBuffer} (h : file.Sound dbSize) :
    BufferLocal dbSize file := by
  obtain ⟨hdb, l, hl, hwf⟩ := h
  have hused : (plainBuffer dbSize).usedBlocks file = l.used.map Block.payload := by
    rw [plainBuffer_usedBlocks, guardedBuffer_used hl hwf]
  refine ⟨hused ▸ fun size => ?_, hused ▸ fun b hb => ?_⟩
  · have hused := fun b hb a h₁ h₂ => payload_outside hwf.sound (b := b) hb (x := a) h₁ h₂
    rcases l.first_fit size with hsmall | ⟨l₁, c, l₂, hfree, hsmall, hfit⟩
    · exact local_of_exec (exec_alloc_none hwf.sound file.dbSize_lt file.field_lt hl hsmall) hused
    · by_cases hz : size + 124 ≤ c.dataSize
      · exact local_of_exec (exec_alloc_split hwf file.dbSize_lt file.field_lt hl hfree hsmall hz)
          fun b hb a h₁ h₂ => payload_outside_rest hwf.sound hfree hz hb h₁ h₂
      · exact local_of_exec (exec_alloc_whole hwf.sound file.dbSize_lt file.field_lt hl hfree hsmall hfit (by omega)) hused
  · obtain ⟨c, hc, rfl⟩ := List.mem_map.1 hb
    obtain ⟨u₁, u₂, hu⟩ := List.append_of_mem hc
    rw [payload_erase]
    exact local_of_exec (exec_free hwf.sound file.dbSize_lt file.field_lt hl hu)
      fun d hd a h₁ h₂ => payload_outside hwf.sound (List.mem_of_mem_erase hd) h₁ h₂

/-! ### The bytes of one state -/

/-- The call has allocated the byte and not yet published it. -/
def Owns (s : State N σ) (i a : Nat) : Prop :=
  ∃ th p, s.threads[i]? = some th ∧ th.pc.block = some p ∧ th.request.Covers p a

/-- The byte belongs to a record that is referred to. -/
def InUse (s : State N σ) (c a : Nat) : Prop :=
  ∃ x, s.shared.controls[c]? = some x ∧ x.useCount ≠ 0 ∧ x.record.Covers a

private theorem Safe.not_inUse_of_owns (h : Safe B Inv s) (ho : Owns s i a) : ¬ InUse s c a := by
  rintro ⟨x, hx, hne, h₁, h₂⟩
  obtain ⟨th, p, hi, hp, h₃, h₄⟩ := ho
  obtain ⟨pend, hs⟩ := h.stored
  obtain ⟨size, rfl, hsize, -⟩ := hs.fills i th p hi hp
  have hlive : x.record ∈ live s.shared.controls := mem_live.2 ⟨c, x, hx, hne, rfl⟩
  have hfits := (hs.file.stored _ hlive).fits
  have hap := (List.pairwise_append.1 hs.file.apart).2.2 _ (List.mem_singleton_self _) _ (List.mem_map_of_mem hlive)
  simp only [Payload.Apart, Record.block] at hap
  omega

private theorem Safe.not_owns_of_touches (h : Safe B Inv s) (ht : Touches B s j a) : ¬ Owns s i a := by
  rintro ⟨th, p, hi, hp, h₁, h₂⟩
  obtain ⟨pend, hs⟩ := h.stored
  obtain ⟨size, rfl, hsize, -⟩ := hs.fills i th p hi hp
  have hused : (⟨p, size⟩ : Payload) ∈ B.usedBlocks s.shared.buffer := by
    rw [hs.file.used]
    exact List.mem_append_left _ (List.mem_singleton_self _)
  obtain ⟨-, hout⟩ | ⟨d, y, hf, hy, hout⟩ := ht
  · have := hout _ hused
    simp only at this
    omega
  · have hne : (⟨p, size⟩ : Payload) ≠ y.record.block := by
      rintro heq
      obtain ⟨-, y', -, -, hy', hone⟩ := hf
      obtain rfl := Option.some.inj (hy.symm.trans hy')
      have hlive : y.record ∈ live s.shared.controls := mem_live.2 ⟨d, y, hy, by omega, rfl⟩
      exact hs.file.block_notMem hlive (heq ▸ List.mem_singleton_self _)
    have := hout _ ((List.mem_erase_of_ne hne).2 hused)
    simp only at this
    omega

/-- What is used by a record can be touched only by the call that frees the record. -/
private theorem Safe.frees_of_touches (h : Safe B Inv s) (ht : Touches B s j a) (hu : InUse s c a) : Frees s j c := by
  obtain ⟨x, hx, hne, h₁, h₂⟩ := hu
  obtain ⟨pend, hs⟩ := h.stored
  have hlive : x.record ∈ live s.shared.controls := mem_live.2 ⟨c, x, hx, hne, rfl⟩
  have hfits := (hs.file.stored _ hlive).fits
  have hused : x.record.block ∈ B.usedBlocks s.shared.buffer := hs.file.used ▸ hs.file.block _ hlive
  obtain ⟨-, hout⟩ | ⟨d, y, hf, hy, hout⟩ := ht
  · have := hout _ hused
    simp only [Record.block] at this
    omega
  · by_cases heq : x.record.block = y.record.block
    · obtain ⟨th, y', hi, hd, hy', hone⟩ := hf
      obtain rfl := Option.some.inj (hy.symm.trans hy')
      obtain rfl := live_unique hs.file.nodup_data hx hy hne (by omega) (congrArg Payload.data heq)
      exact ⟨th, y, hi, hd, hy, hone⟩
    · have := hout _ ((List.mem_erase_of_ne heq).2 hused)
      simp only [Record.block] at this
      omega

private theorem not_inUse_of_zero {x : Control} (hx : s.shared.controls[c]? = some x) (hzero : x.useCount = 0) :
    ¬ InUse s c a := by
  rintro ⟨y, hy, hne, -⟩
  obtain rfl := Option.some.inj (hx.symm.trans hy)
  exact hne hzero

variable [NeZero N]

namespace Traced

/-! ### The bytes of a record from its allocation to its release -/

private theorem control_later (h : Traced B Inv hasher R states actor L) (hmn : m ≤ n) (hn : n ≤ L) {x : Control}
    (hx : (states m).shared.controls[c]? = some x) :
    ∃ x', (states n).shared.controls[c]? = some x' ∧ x'.record = x.record ∧ (x.useCount = 0 → x'.useCount = 0) :=
  (h.safe m (by omega)).controls_reaches h.lawful (h.reaches hmn hn) hx

private theorem inUse_earlier (h : Traced B Inv hasher R states actor L) (hmn : m ≤ n) (hn : n ≤ L)
    (hu : InUse (states n) c a) (hc : c < (states m).shared.controls.length) : InUse (states m) c a := by
  obtain ⟨x, hx, hne, ha⟩ := hu
  obtain ⟨x', hx', hrec, hzero⟩ := h.control_later hmn hn (List.getElem?_eq_getElem hc)
  obtain rfl := Option.some.inj (hx.symm.trans hx')
  exact ⟨_, List.getElem?_eq_getElem hc, fun hz => hne (hzero hz), hrec ▸ ha⟩

private theorem not_inUse_of_frees (h : Traced B Inv hasher R states actor L) (hmn : m < n) (hn : n ≤ L)
    (hi : actor m = some i) (hf : Frees (states m) i c) : ¬ InUse (states n) c a := by
  obtain ⟨th, x, hth, hd, hx, hone⟩ := hf
  have hat : At states actor m i th.request th.pc := ⟨hi, hth⟩
  obtain ⟨sh', pc', hfire, hs⟩ := h.fires (by omega) hat
  have hzero : (states (m + 1)).shared.controls[c]? = some { x with useCount := 0 } := by
    rw [hs]
    rcases fires_drop hfire with ⟨d, hd', rfl⟩ | ⟨hno, -⟩
    · obtain rfl : d = c := Option.some.inj (hd'.symm.trans hd)
      show (Shared.release B (states m).shared d).controls[d]? = _
      rw [release_controls B hx, hone]
      exact List.getElem?_set_self (List.getElem?_eq_some_iff.1 hx).1
    · rw [hd] at hno
      cases hno
  obtain ⟨x', hx', -, hz⟩ := h.control_later (show m + 1 ≤ n from hmn) hn hzero
  exact not_inUse_of_zero hx' (hz rfl)

private theorem inUse_or_frees (h : Traced B Inv hasher R states actor L) (hmn : m ≤ n) (hn : n ≤ L)
    (hu : InUse (states m) c a) :
    InUse (states n) c a ∨ ∃ f i, m ≤ f ∧ f < n ∧ actor f = some i ∧ Frees (states f) i c ∧ InUse (states f) c a := by
  induction n, hmn using Nat.le_induction with
  | base => exact Or.inl hu
  | succ n hmn ih =>
    rcases ih (by omega) with hu | ⟨f, i, hmf, hfn, hf⟩
    · have ⟨x, hx, hne, ha⟩ := hu
      obtain ⟨x', hx', hrec, -⟩ := h.control_later (Nat.le_succ n) hn hx
      by_cases hzero : x'.useCount = 0
      · refine Or.inr ?_
        rcases h.cases hn with ⟨-, r, hs⟩ | ⟨i, r, pc, sh', pc', hat, hf, hs⟩ <;> rw [hs] at hx'
        · obtain rfl := Option.some.inj (hx.symm.trans hx')
          exact absurd hzero hne
        · rcases fires_drop hf with ⟨d, hd, rfl⟩ | ⟨-, hle⟩
          · obtain ⟨y, hy, -⟩ := (h.safe n (by omega)).counted.thread_live hat.2 (control_of_drops hd)
            replace hx' : (Shared.release B (states n).shared d).controls[c]? = some x' := hx'
            rw [release_controls B hy] at hx'
            rcases getElem?_set_cases hx' with ⟨rfl, rfl⟩ | ⟨-, hx'⟩
            · obtain rfl := Option.some.inj (hx.symm.trans hy)
              have hone : x.useCount = 1 := by
                simp only at hzero
                omega
              exact ⟨n, i, hmn, Nat.lt_succ_self n, hat.1, ⟨_, x, hat.2, hd, hx, hone⟩, hu⟩
            · obtain rfl := Option.some.inj (hx.symm.trans hx')
              exact absurd hzero hne
          · obtain ⟨y, hy, hle⟩ := hle c x hx
            obtain rfl := Option.some.inj (hy.symm.trans hx')
            omega
      · exact Or.inl ⟨x', hx', hzero, hrec ▸ ha⟩
    · exact Or.inr ⟨f, i, hmf, by omega, hf⟩

private theorem holds_or_drops (h : Traced B Inv hasher R states actor L) (hmn : m ≤ n) (hn : n ≤ L) {th : Thread}
    (hi : (states m).threads[i]? = some th) (hc : th.pc.control = some c) :
    (∃ th', (states n).threads[i]? = some th' ∧ th'.pc.control = some c) ∨
      ∃ d r pc, m ≤ d ∧ d < n ∧ At states actor d i r pc ∧ pc.drops = some c := by
  induction n, hmn using Nat.le_induction with
  | base => exact Or.inl ⟨th, hi, hc⟩
  | succ n hmn ih =>
    rcases ih (by omega) with ⟨th', hi', hc'⟩ | ⟨d, r, pc, hmd, hdn, hat⟩
    · rcases h.cases hn with ⟨-, r, hs⟩ | ⟨j, r, pc, sh', pc', hat, hf, hs⟩ <;> rw [hs]
      · exact Or.inl ⟨th', getElem?_of_extends (List.prefix_append ..) hi', hc'⟩
      · by_cases hij : j = i
        · subst hij
          obtain rfl := Option.some.inj (hat.2.symm.trans hi')
          rcases fires_holds hf hc' with hc' | hd
          · exact Or.inl ⟨_, List.getElem?_set_self (List.getElem?_eq_some_iff.1 hi').1, hc'⟩
          · exact Or.inr ⟨n, r, pc, hmn, Nat.lt_succ_self n, hat, hd⟩
        · exact Or.inl ⟨th', by rw [List.getElem?_set_ne hij, hi'], hc'⟩
    · exact Or.inr ⟨d, r, pc, hmd, by omega, hat⟩

/-- Who holds a record has dropped it before it is freed, or frees it. -/
private theorem before_free (h : Traced B Inv hasher R states actor L) (hmn : m < n) (hn : n < L)
    (hat : At states actor m i r pc) (hc : pc.control = some c) (hj : actor n = some j) (hf : Frees (states n) j c) :
    Before actor (Synchronizes hasher states actor) m n := by
  have ⟨th, x, hth, hd, hx, hone⟩ := hf
  rcases h.holds_or_drops (Nat.le_of_lt hmn) (Nat.le_of_lt hn) hat.2 hc with ⟨th', hi, hc'⟩ |
    ⟨d, r', pc', hmd, hdn, hat', hd'⟩
  · -- there is one copy only
    have hcount := (h.safe n (Nat.le_of_lt hn)).counted.counts c x hx
    obtain rfl : i = j := by
      have hone : holders Thread.control (states n).threads c ≤ 1 := by omega
      exact holders_unique hone hi hth hc' (control_of_drops hd)
    exact before_of_actor hmn hat.1 hj
  · have hsync : Before actor (Synchronizes hasher states actor) d n :=
      before_of_sync hdn (.count hat' ⟨hj, hth⟩ hd' hd)
    rcases Nat.lt_or_eq_of_le hmd with hlt | rfl
    · exact (before_of_actor hlt hat.1 hat'.1).trans hsync
    · exact hsync

private theorem owns_since (h : Traced B Inv hasher R states actor L) (hn : n ≤ L) (ho : Owns (states n) i a) :
    ∃ m r, m < n ∧ At states actor m i r .locked ∧ ∀ k, m < k → k ≤ n → Owns (states k) i a := by
  induction n with
  | zero =>
    obtain ⟨th, p, hi, -⟩ := ho
    simp [h.threads] at hi
  | succ n ih =>
    have ⟨th, p, hi, hp, ha⟩ := ho
    obtain hprev | ⟨r, hat⟩ : Owns (states n) i a ∨ ∃ r, At states actor n i r .locked := by
      rcases h.thread_cases hn hi with hi | hcalled | ⟨r, pc, hat, hf, hr⟩
      · exact Or.inl ⟨th, p, hi, hp, ha⟩
      · rw [hcalled] at hp
        cases hp
      · rcases (fires_block hf).1 p hp with hp | rfl
        · exact Or.inl ⟨⟨r, pc⟩, p, hat.2, hp, hr ▸ ha⟩
        · exact Or.inr ⟨r, hat⟩
    · obtain ⟨m, r, hmn, hat, hall⟩ := ih (Nat.le_of_lt hn) hprev
      refine ⟨m, r, by omega, hat, fun k hmk hk => ?_⟩
      rcases Nat.lt_or_eq_of_le hk with hk | rfl
      · exact hall k hmk (by omega)
      · exact ho
    · refine ⟨n, r, Nat.lt_succ_self n, hat, fun k hmk hk => ?_⟩
      obtain rfl : k = n + 1 := by omega
      exact ho

/-- The record that a step publishes has the bytes that its call owned. -/
theorem publishes (h : Traced B Inv hasher R states actor L) (hn : n < L) {p : Nat} {isNew : Bool}
    (hat : At states actor n i r (.setPointer p b isNew)) :
    ∃ x, (states (n + 1)).shared.controls[(states n).shared.controls.length]? = some x ∧ x.useCount = 1 ∧
      ∀ a, x.record.Covers a ↔ r.Covers p a := by
  obtain ⟨sh', pc', hf, hs⟩ := h.fires hn hat
  rw [hs]
  rcases fires_control hf with ⟨p', b', isNew', log, hpc, rfl, -⟩ | ⟨hpc, -⟩
  · obtain ⟨rfl, rfl, rfl⟩ := Pc.setPointer.inj hpc
    exact ⟨Shared.newControl B (states n).shared r p, by simp [Shared.exchange], rfl, fun a => Iff.rfl⟩
  · exact absurd rfl (hpc p b isNew)

private theorem owns_or_publishes (h : Traced B Inv hasher R states actor L) (hmn : m ≤ n) (hn : n ≤ L)
    (ho : Owns (states m) i a) :
    Owns (states n) i a ∨
      ∃ k c, m ≤ k ∧ k < n ∧ actor k = some i ∧ Creates states actor k c ∧ InUse (states (k + 1)) c a := by
  induction n, hmn using Nat.le_induction with
  | base => exact Or.inl ho
  | succ n hmn ih =>
    rcases ih (by omega) with ⟨th, p, hi, hp, ha⟩ | ⟨k, c, hmk, hkn, hk⟩
    · rcases h.cases hn with ⟨-, r, hs⟩ | ⟨j, r, pc, sh', pc', hat, hf, hs⟩
      · rw [hs]
        exact Or.inl ⟨th, p, getElem?_of_extends (List.prefix_append ..) hi, hp, ha⟩
      · by_cases hij : j = i
        · subst hij
          obtain rfl := Option.some.inj (hat.2.symm.trans hi)
          rcases (fires_block hf).2 p hp with hp | ⟨b, isNew, rfl⟩
          · rw [hs]
            exact Or.inl ⟨_, p, List.getElem?_set_self (List.getElem?_eq_some_iff.1 hi).1, hp, ha⟩
          · obtain ⟨x, hx, hone, hcov⟩ := h.publishes hn hat
            refine Or.inr ⟨n, _, hmn, Nat.lt_succ_self n, hat.1, ⟨b, ⟨j, r, p, isNew, hat⟩, rfl⟩, x, hx, by omega, ?_⟩
            exact (hcov a).2 ha
        · rw [hs]
          exact Or.inl ⟨th, p, by rw [List.getElem?_set_ne hij, hi], hp, ha⟩
    · exact Or.inr ⟨k, c, hmk, by omega, hk⟩

private theorem owns_of_creates (h : Traced B Inv hasher R states actor L) (hmn : m < n) (hn : n ≤ L)
    (hk : Creates states actor m c) (hu : InUse (states n) c a) : ∃ i, actor m = some i ∧ Owns (states m) i a := by
  obtain ⟨b, ⟨i, r, p, isNew, hat⟩, rfl⟩ := hk
  obtain ⟨x, hx, -, hcov⟩ := h.publishes (by omega) hat
  obtain ⟨x', hx', hrec, -⟩ := h.control_later (show m + 1 ≤ n from hmn) hn hx
  obtain ⟨y, hy, -, ha⟩ := hu
  obtain rfl := Option.some.inj (hy.symm.trans hx')
  exact ⟨i, hat.1, ⟨r, _⟩, p, hat.2, rfl, (hcov a).1 (hrec ▸ ha)⟩

/-! ### Accesses to bytes -/

omit [NeZero N] in
private theorem usesBuffer_of_touches (hi : actor n = some i) (ht : Touches B (states n) i a) :
    UsesBuffer states actor n := by
  obtain ⟨hlocked, -⟩ | ⟨c, x, hf, -⟩ := ht
  · exact ⟨i, hi, Or.inl hlocked⟩
  · exact ⟨i, hi, Or.inr ⟨c, hf⟩⟩

/-- A call of `alloc` or `free` happens before what is done later with a block that is allocated after it. -/
private theorem touches_before_owner (h : Traced B Inv hasher R states actor L) (hmn : m ≤ n) (hn : n < L)
    (hi : actor m = some i) (ht : Touches B (states m) i a) (hj : actor n = some j) (ho : Owns (states n) j a) :
    Before actor (Synchronizes hasher states actor) m n := by
  obtain ⟨k, r, hkn, hat, hown⟩ := h.owns_since (Nat.le_of_lt hn) ho
  have hkn' : Before actor (Synchronizes hasher states actor) k n := before_of_actor hkn hat.1 hj
  rcases Nat.lt_trichotomy m k with hlt | rfl | hlt
  · have hsync : Before actor (Synchronizes hasher states actor) m k :=
      before_of_sync hlt (.buffer (usesBuffer_of_touches hi ht) ⟨j, hat.1, Or.inl ⟨r, hat.2⟩⟩)
    exact hsync.trans hkn'
  · exact hkn'
  · exact absurd (hown m hlt hmn) ((h.safe m (by omega)).not_owns_of_touches ht)

/-- A record in use is one that was in use before, or it was published in between, before the steps of its holders. -/
private theorem inUse_or_created (h : Traced B Inv hasher R states actor L) (hmn : m < n) (hn : n < L)
    (hat : At states actor n j r pc) (hc : pc.control = some c) (hu : InUse (states n) c a) :
    InUse (states m) c a ∨ ∃ k, m ≤ k ∧ Creates states actor k c ∧ Before actor (Synchronizes hasher states actor) k n := by
  rcases Nat.lt_or_ge c (states m).shared.controls.length with hlt | hge
  · exact Or.inl (h.inUse_earlier (Nat.le_of_lt hmn) (Nat.le_of_lt hn) hu hlt)
  · rcases h.records hn hat hc with hR | ⟨k, hk, hkn⟩
    · have := h.controls ▸ h.controls_le (Nat.zero_le m) (by omega)
      omega
    · refine Or.inr ⟨k, ?_, hk, hkn⟩
      by_contra hkm
      have := h.creates_lt hk (by omega) (show m ≤ L by omega)
      omega

private theorem read_before_touch (h : Traced B Inv hasher R states actor L) (hmn : m < n) (hn : n < L)
    (hat : At states actor m i r pc)
    (hc : pc.control = some c) (hu : InUse (states m) c a) (hj : actor n = some j) (ht : Touches B (states n) j a) :
    Before actor (Synchronizes hasher states actor) m n := by
  rcases h.inUse_or_frees (Nat.le_of_lt hmn) (Nat.le_of_lt hn) hu with hu | ⟨f, l, hmf, hfn, hl, hf, -⟩
  · exact h.before_free hmn hn hat hc hj ((h.safe n (Nat.le_of_lt hn)).frees_of_touches ht hu)
  · have hsync : Before actor (Synchronizes hasher states actor) f n :=
      before_of_sync hfn (.buffer ⟨l, hl, Or.inr ⟨c, hf⟩⟩ (usesBuffer_of_touches hj ht))
    rcases Nat.lt_or_eq_of_le hmf with hlt | rfl
    · exact (h.before_free hlt (by omega) hat hc hl hf).trans hsync
    · exact hsync

private theorem touch_before_read (h : Traced B Inv hasher R states actor L) (hmn : m < n) (hn : n < L)
    (hi : actor m = some i) (ht : Touches B (states m) i a) (hat : At states actor n j r pc) (hc : pc.control = some c)
    (hu : InUse (states n) c a) : Before actor (Synchronizes hasher states actor) m n := by
  rcases h.inUse_or_created hmn hn hat hc hu with hum | ⟨k, hmk, hk, hkn⟩
  · have hf := (h.safe m (by omega)).frees_of_touches ht hum
    exact absurd hu (h.not_inUse_of_frees hmn (Nat.le_of_lt hn) hi hf)
  · obtain ⟨l, hl, ho⟩ := h.owns_of_creates hkn.lt (Nat.le_of_lt hn) hk hu
    exact (h.touches_before_owner hmk (Nat.lt_trans hkn.lt hn) hi ht hl ho).trans hkn

private theorem read_before_copy (h : Traced B Inv hasher R states actor L) (hmn : m < n) (hn : n < L)
    (hat : At states actor m i r pc)
    (hc : pc.control = some c) (hu : InUse (states m) c a) (hj : actor n = some j) (ho : Owns (states n) j a) :
    Before actor (Synchronizes hasher states actor) m n := by
  rcases h.inUse_or_frees (Nat.le_of_lt hmn) (Nat.le_of_lt hn) hu with hu | ⟨f, l, hmf, hfn, hl, hf, huf⟩
  · exact absurd hu ((h.safe n (Nat.le_of_lt hn)).not_inUse_of_owns ho)
  · -- the block is allocated again after the record is freed
    obtain ⟨k, r', hkn, hat', hown⟩ := h.owns_since (Nat.le_of_lt hn) ho
    have hfk : f < k := by
      rcases Nat.lt_trichotomy f k with hlt | rfl | hlt
      · exact hlt
      · obtain ⟨th, x, hth, hd, -⟩ := hf
        obtain rfl := Option.some.inj (hl.symm.trans hat'.1)
        obtain rfl := Option.some.inj (hth.symm.trans hat'.2)
        cases hd
      · exact absurd huf ((h.safe f (by omega)).not_inUse_of_owns (hown f hlt (Nat.le_of_lt hfn)))
    have hfn : Before actor (Synchronizes hasher states actor) f n :=
      (before_of_sync hfk (.buffer ⟨l, hl, Or.inr ⟨c, hf⟩⟩ ⟨j, hat'.1, Or.inl ⟨r', hat'.2⟩⟩)).trans
        (before_of_actor hkn hat'.1 hj)
    rcases Nat.lt_or_eq_of_le hmf with hlt | rfl
    · exact (h.before_free hlt (by omega) hat hc hl hf).trans hfn
    · exact hfn

private theorem copy_before_read (h : Traced B Inv hasher R states actor L) (hmn : m < n) (hn : n < L)
    (hat : At states actor m i r pc)
    (hcopy : pc.Critical) (ho : Owns (states m) i a) (hat' : At states actor n j r' pc') (hc : pc'.control = some c)
    (hu : InUse (states n) c a) : Before actor (Synchronizes hasher states actor) m n := by
  rcases h.inUse_or_created hmn hn hat' hc hu with hum | ⟨k, hmk, ⟨b, ⟨l, r'', p, isNew, hset⟩, -⟩, hkn⟩
  · exact absurd hum ((h.safe m (by omega)).not_inUse_of_owns ho)
  · rcases Nat.lt_or_eq_of_le hmk with hlt | rfl
    · exact (h.critical hlt (Nat.lt_trans hkn.lt hn) hat hset hcopy rfl).trans hkn
    · exact hkn

private theorem copy_before_touch (h : Traced B Inv hasher R states actor L) (hmn : m < n) (hn : n < L)
    (hi : actor m = some i) (ho : Owns (states m) i a) (hj : actor n = some j) (ht : Touches B (states n) j a) :
    Before actor (Synchronizes hasher states actor) m n := by
  rcases h.owns_or_publishes (Nat.le_of_lt hmn) (Nat.le_of_lt hn) ho with ho | ⟨k, c, hmk, hkn, hk, hcr, hu⟩
  · exact absurd ho ((h.safe n (Nat.le_of_lt hn)).not_owns_of_touches ht)
  · -- whoever frees the record has held it, and knows of the step that published it
    have hfree : ∀ f l, k < f → f < L → actor f = some l → Frees (states f) l c →
        Before actor (Synchronizes hasher states actor) k f := by
      rintro f l hkf hfL hl ⟨th, x, hth, hd, -⟩
      have hat : At states actor f l th.request th.pc := ⟨hl, hth⟩
      rcases h.records hfL hat (control_of_drops hd) with hR | ⟨k', hk', hbefore⟩
      · have := h.creates_ge hcr (show k ≤ L by omega)
        omega
      · rw [h.creates_inj hcr hk' (by omega) (Nat.lt_trans hbefore.lt hfL)]
        exact hbefore
    have hkn' : Before actor (Synchronizes hasher states actor) k n := by
      rcases h.inUse_or_frees (show k + 1 ≤ n from hkn) (Nat.le_of_lt hn) hu with hu | ⟨f, l, hkf, hfn, hl, hf, -⟩
      · exact hfree n j hkn hn hj ((h.safe n (Nat.le_of_lt hn)).frees_of_touches ht hu)
      · exact (hfree f l hkf (by omega) hl hf).trans
          (before_of_sync hfn (.buffer ⟨l, hl, Or.inr ⟨c, hf⟩⟩ (usesBuffer_of_touches hj ht)))
    rcases Nat.lt_or_eq_of_le hmk with hlt | rfl
    · exact (before_of_actor hlt hi hk).trans hkn'
    · exact hkn'

/-! ### Accesses to buckets -/

/-- A bucket that a call has made and not yet linked was made by the call itself. -/
theorem made (h : Traced B Inv hasher R states actor L) (hn : n ≤ L) {th : Thread} (hi : (states n).threads[i]? = some th)
    (hb : th.pc.fresh = some b) :
    ∃ m < n, ∃ r p, At states actor m i r (.found (some p) none) ∧ (states m).shared.bucketStorage.length = b := by
  induction n generalizing th with
  | zero => simp [h.threads] at hi
  | succ n ih =>
    have hold : ∀ {th : Thread}, (states n).threads[i]? = some th → th.pc.fresh = some b →
        ∃ m < n + 1, ∃ r p, At states actor m i r (.found (some p) none) ∧ (states m).shared.bucketStorage.length = b := by
      intro th hi hb
      obtain ⟨m, hm, hmade⟩ := ih (Nat.le_of_lt hn) hi hb
      exact ⟨m, by omega, hmade⟩
    rcases h.thread_cases hn hi with hi | hcalled | ⟨r, pc, hat, hf, -⟩
    · exact hold hi hb
    · rw [hcalled] at hb
      cases hb
    · rcases fires_fresh hf hb with hb | ⟨⟨p, rfl⟩, rfl⟩
      · exact hold hat.2 hb
      · exact ⟨n, Nat.lt_succ_self n, r, p, hat, rfl⟩

private theorem length_newBucket (h : Traced B Inv hasher R states actor L) (hn : n < L) {p : Nat}
    (hat : At states actor n i r (.found (some p) none)) :
    (states (n + 1)).shared.bucketStorage.length = (states n).shared.bucketStorage.length + 1 := by
  obtain ⟨sh', pc', hf, hs⟩ := h.fires hn hat
  rw [hs]
  cases hf with
  | newBucket => simp

/-- The step that makes a bucket happens before all others that come to the bucket. -/
private theorem newBucket_first (h : Traced B Inv hasher R states actor L) (hmL : m < L) (hn : n < L) {p : Nat}
    (hat : At states actor m i r (.found (some p) none)) (hlen : (states m).shared.bucketStorage.length = b)
    (hat' : At states actor n j r' pc') (hb : pc'.bucket = some b) :
    m < n ∧ Before actor (Synchronizes hasher states actor) m n := by
  have hlt := (h.safe n (Nat.le_of_lt hn)).inRange.thread_lt j _ b hat'.2 hb
  have hmn : m < n := by
    by_contra hnm
    have := h.buckets_le (show n ≤ m by omega) (Nat.le_of_lt hmL)
    omega
  refine ⟨hmn, ?_⟩
  by_cases hc : pc'.Critical
  · exact h.critical hmn hn hat hat' rfl hc
  · rcases h.reached hn hat' hc hb with hR | ⟨k, ⟨l, r'', hlink⟩, hkn⟩
    · have := h.buckets ▸ h.buckets_le (Nat.zero_le m) (Nat.le_of_lt hmL)
      omega
    · -- the bucket was made once
      obtain ⟨m', hm', r₁, p', hat₁, hlen'⟩ := h.made (show k ≤ L by have := hkn.lt; omega) hlink.2 rfl
      have hgrow : ∀ {u v i' j' : Nat} {q q' : Request} {x y : Nat}, At states actor u i' q (.found (some x) none) →
          At states actor v j' q' (.found (some y) none) → (states u).shared.bucketStorage.length = b →
          (states v).shared.bucketStorage.length = b → v < L → ¬ u < v := by
        intro u v i' j' q q' x y hu hv hul hvl hvL huv
        have := h.length_newBucket (by omega) hu
        have := h.buckets_le (show u + 1 ≤ v from huv) (Nat.le_of_lt hvL)
        omega
      have := hgrow hat hat₁ hlen hlen' (by have := hkn.lt; omega)
      have := hgrow hat₁ hat hlen' hlen hmL
      obtain rfl : m' = m := by omega
      exact (before_of_actor hm' hat₁.1 hlink.1).trans hkn

/-! ### The accesses to one place -/

/-- A step that accesses a link makes the bucket, stores the link or loads it. -/
private theorem accesses_link {x : Access} (hi : actor n = some i) (h : Accesses B hasher (states n) i (.link b) x) :
    (∃ r p, At states actor n i r (.found (some p) none) ∧ (states n).shared.bucketStorage.length = b) ∨
      (∃ r, At states actor n i r (.storeBucket b)) ∨ ∃ r block, At states actor n i r (.findNext block b) ∧ x = .read := by
  generalize hb : Place.link (N := N) b = place at h
  cases h with
  | next h =>
    obtain rfl := Place.link.inj hb
    exact Or.inr (Or.inr ⟨_, _, ⟨hi, h⟩, rfl⟩)
  | storeLink h =>
    obtain rfl := Place.link.inj hb
    exact Or.inr (Or.inl ⟨_, hi, h⟩)
  | newLink h => exact Or.inl ⟨_, _, ⟨hi, h⟩, (Place.link.inj hb).symm⟩
  | _ => cases hb

/-- A step that accesses a record pointer makes the bucket, loads the pointer or stores it. -/
private theorem accesses_pointer {x : Access} (hi : actor n = some i) (h : Accesses B hasher (states n) i (.pointer b) x) :
    (∃ r p, At states actor n i r (.found (some p) none) ∧ (states n).shared.bucketStorage.length = b) ∨
      ∃ r pc, At states actor n i r pc ∧ pc.bucket = some b ∧ x.Atomic := by
  generalize hb : Place.pointer (N := N) b = place at h
  cases h with
  | @load r pc b' h hl =>
    obtain rfl := Place.pointer.inj hb
    refine Or.inr ⟨r, pc, ⟨hi, h⟩, ?_, trivial⟩
    cases pc with
    | findLoad block b' => exact hl
    | found block bucket =>
      cases block with
      | none => exact hl
      | some p => cases hl
    | _ => cases hl
  | set h =>
    obtain rfl := Place.pointer.inj hb
    exact Or.inr ⟨_, _, ⟨hi, h⟩, rfl, trivial⟩
  | newPointer h => exact Or.inl ⟨_, _, ⟨hi, h⟩, (Place.pointer.inj hb).symm⟩
  | _ => cases hb

/-- A step that accesses a byte reads a record, copies into a block, or is a call of `alloc` or `free`. -/
private theorem accesses_byte {x : Access} (hs : Safe B Inv (states n)) (hi : actor n = some i)
    (h : Accesses B hasher (states n) i (.byte a) x) :
    (∃ r pc c, At states actor n i r pc ∧ pc.control = some c ∧ InUse (states n) c a ∧ x = .read) ∨
      (∃ r pc, At states actor n i r pc ∧ pc.Critical ∧ Owns (states n) i a) ∨ Touches B (states n) i a := by
  generalize ha : Place.byte (N := N) a = place at h
  cases h with
  | @read r pc c a' x h hc hx ha' =>
    obtain rfl := Place.byte.inj ha
    have hctrl : pc.control = some c := by
      cases pc <;> simp_all [Pc.reads, Pc.control]
    obtain ⟨y, hy, hne⟩ := hs.counted.thread_live h hctrl
    obtain rfl := Option.some.inj (hx.symm.trans hy)
    exact Or.inl ⟨r, pc, c, ⟨hi, h⟩, hctrl, ⟨x, hx, hne, ha'⟩, rfl⟩
  | @copy r pc p a' h hp ha' =>
    obtain rfl := Place.byte.inj ha
    have hblock : pc.block = some p := by
      cases pc <;> simp_all [Pc.copies, Pc.block]
    exact Or.inr (Or.inl ⟨r, pc, ⟨hi, h⟩, critical_of_block hblock, ⟨r, pc⟩, p, h, hblock, ha'⟩)
  | touch h =>
    obtain rfl := Place.byte.inj ha
    exact Or.inr (Or.inr h)
  | _ => cases ha

private theorem link_ordered (h : Traced B Inv hasher R states actor L) (hmn : m < n) (hn : n < L) (hi : actor m = some i)
    (hj : actor n = some j) {x y : Access} (hm : Accesses B hasher (states m) i (.link b) x)
    (hn' : Accesses B hasher (states n) j (.link b) y) (hconf : Conflict x y) :
    Before actor (Synchronizes hasher states actor) m n := by
  have hmL := Nat.lt_trans hmn hn
  -- a `get` that follows a link comes after the step that stored it
  have hcome : ∀ {u v l l' : Nat} {q q' : Request} {block : Option Nat}, u < L → v < L → u ≠ v →
      At states actor u l q (.storeBucket b) → At states actor v l' q' (.findNext block b) →
      ¬ (Pc.findNext block b).Critical → Before actor (Synchronizes hasher states actor) u v := by
    intro u v l l' q q' block hu hv huv hlink hnext hc
    rcases h.reached hv hnext hc rfl with hR | ⟨k, hk, hkv⟩
    · have := ((h.bucketsKnown (show u + 1 ≤ L by omega)).linked u (Nat.lt_succ_self u) b ⟨l, q, hlink⟩).1
      omega
    · have hkL := Nat.lt_trans hkv.lt hv
      obtain rfl := (h.bucketsKnown (Nat.le_refl L)).once k hkL u hu b hk ⟨l, q, hlink⟩
      exact hkv
  rcases accesses_link hi hm with ⟨r, p, hat, hlen⟩ | hat
  · rcases accesses_link hj hn' with ⟨r', p', hat', -⟩ | ⟨r', hat'⟩ | ⟨r', block, hat', -⟩
    · exact h.critical hmn hn hat hat' rfl rfl
    · exact (h.newBucket_first hmL hn hat hlen hat' rfl).2
    · exact (h.newBucket_first hmL hn hat hlen hat' rfl).2
  · rcases accesses_link hj hn' with ⟨r', p', hat', hlen⟩ | hat'
    · -- nobody comes to a bucket before it is made
      rcases hat with ⟨r, hat⟩ | ⟨r, block, hat, -⟩
      · have := (h.newBucket_first hn hmL hat' hlen hat rfl).1
        omega
      · have := (h.newBucket_first hn hmL hat' hlen hat rfl).1
        omega
    · rcases hat with ⟨r, hat⟩ | ⟨r, block, hat, rfl⟩ <;> rcases hat' with ⟨r', hat'⟩ | ⟨r', block', hat', rfl⟩
      · exact h.critical hmn hn hat hat' trivial trivial
      · by_cases hc : (Pc.findNext block' b).Critical
        · exact h.critical hmn hn hat hat' trivial hc
        · exact hcome hmL hn (by omega) hat hat' hc
      · by_cases hc : (Pc.findNext block b).Critical
        · exact h.critical hmn hn hat hat' hc trivial
        · have := (hcome hn hmL (by omega) hat' hat hc).lt
          omega
      · rcases hconf.1 with hw | hw <;> cases hw

private theorem pointer_ordered (h : Traced B Inv hasher R states actor L) (hmn : m < n) (hn : n < L)
    (hi : actor m = some i) (hj : actor n = some j) {x y : Access} (hm : Accesses B hasher (states m) i (.pointer b) x)
    (hn' : Accesses B hasher (states n) j (.pointer b) y) (hconf : Conflict x y) :
    Before actor (Synchronizes hasher states actor) m n := by
  have hmL := Nat.lt_trans hmn hn
  rcases accesses_pointer hi hm with ⟨r, p, hat, hlen⟩ | ⟨r, pc, hat, hb, hatomic⟩
  · rcases accesses_pointer hj hn' with ⟨r', p', hat', -⟩ | ⟨r', pc', hat', hb, -⟩
    · exact h.critical hmn hn hat hat' rfl rfl
    · exact (h.newBucket_first hmL hn hat hlen hat' hb).2
  · rcases accesses_pointer hj hn' with ⟨r', p', hat', hlen⟩ | ⟨r', pc', -, -, hatomic'⟩
    · have := (h.newBucket_first hn hmL hat' hlen hat hb).1
      omega
    · exact absurd ⟨hatomic, hatomic'⟩ hconf.2

private theorem byte_ordered (h : Traced B Inv hasher R states actor L) (hmn : m < n) (hn : n < L) (hi : actor m = some i)
    (hj : actor n = some j) {x y : Access} (hm : Accesses B hasher (states m) i (.byte a) x)
    (hn' : Accesses B hasher (states n) j (.byte a) y) (hconf : Conflict x y) :
    Before actor (Synchronizes hasher states actor) m n := by
  rcases accesses_byte (h.safe m (by omega)) hi hm with ⟨r, pc, c, hat, hc, hu, rfl⟩ | ⟨r, pc, hat, hcrit, ho⟩ | ht <;>
    rcases accesses_byte (h.safe n (by omega)) hj hn' with ⟨r', pc', c', hat', hc', hu', rfl⟩ | ⟨r', pc', hat', hcrit', ho'⟩ | ht'
  · rcases hconf.1 with hw | hw <;> cases hw
  · exact h.read_before_copy hmn hn hat hc hu hj ho'
  · exact h.read_before_touch hmn hn hat hc hu hj ht'
  · exact h.copy_before_read hmn hn hat hcrit ho hat' hc' hu'
  · exact h.critical hmn hn hat hat' hcrit hcrit'
  · exact h.copy_before_touch hmn hn hi ho hj ht'
  · exact h.touch_before_read hmn hn hi ht hat' hc' hu'
  · exact h.touches_before_owner (Nat.le_of_lt hmn) hn hi ht hj ho'
  · exact before_of_sync hmn (.buffer (usesBuffer_of_touches hi ht) (usesBuffer_of_touches hj ht'))

theorem raceFree (h : Traced B Inv hasher R states actor L) :
    RaceFree actor (Synchronizes hasher states actor) (access B hasher states actor) L := by
  rintro m n hmn hn x a b ⟨i, hi, hm⟩ ⟨j, hj, hn'⟩ hconf
  cases x with
  | head x =>
    have hatomic : ∀ {s : State N σ} {i : Nat} {a : Access}, Accesses B hasher s i (.head x) a → a.Atomic := by
      intro s i a h
      cases h <;> trivial
    exact absurd ⟨hatomic hm, hatomic hn'⟩ hconf.2
  | link b => exact h.link_ordered hmn hn hi hj hm hn' hconf
  | pointer b => exact h.pointer_ordered hmn hn hi hj hm hn' hconf
  | storage =>
    cases hm with
    | newBucket hm =>
      cases hn' with
      | newBucket hn' => exact h.critical hmn hn ⟨hi, hm⟩ ⟨hj, hn'⟩ rfl rfl
  | byte a => exact h.byte_ordered hmn hn hi hj hm hn' hconf

end Traced

/-! ### Over the code's buffer -/

theorem Accesses.withAlloc {f : Nat → σ → Option Nat × σ} {x : Place N} {y : Access}
    (h : Accesses (B.withAlloc f) hasher s i x y) : Accesses B hasher s i x y := by
  cases h with
  | loadHead h hl => exact .loadHead h hl
  | storeHead h => exact .storeHead h
  | next h => exact .next h
  | storeLink h => exact .storeLink h
  | load h hb => exact .load h hb
  | set h => exact .set h
  | newLink h => exact .newLink h
  | newPointer h => exact .newPointer h
  | newBucket h => exact .newBucket h
  | read h hc hx ha => exact .read h hc hx ha
  | copy h hp ha => exact .copy h hp ha
  | touch h => exact .touch h

private theorem raceFree_withAlloc {f : Nat → σ → Option Nat × σ}
    (h : RaceFree actor (Synchronizes hasher states actor) (access B hasher states actor) L) :
    RaceFree actor (Synchronizes hasher states actor) (access (B.withAlloc f) hasher states actor) L := by
  rintro m n hmn hn x a b ⟨i, hi, hm⟩ ⟨j, hj, hn'⟩ hconf
  exact h m n hmn hn x a b ⟨i, hi, hm.withAlloc⟩ ⟨j, hj, hn'.withAlloc⟩ hconf

/-- In every run from a file of records in which no split is stale, all accesses that conflict are ordered by happens-before,
and `alloc` and `free` touch in each state what they are said to. -/
theorem calls_race_free {dbSize : Nat} {file : FileBackedBuffer} (hi : file.Sound dbSize) {rs : List Record}
    (hf : FileHolds (plainBuffer dbSize) file (rs.map Record.block) rs) (hasher : Bytes → Nat) :
    ∃ s₀, State.opened (N := N) (plainBuffer dbSize) hasher file = some s₀ ∧
      ∀ states actor L, Trace (plainBuffer dbSize) hasher s₀ states actor L → NoStaleSplitIn states L →
        RaceFree actor (Synchronizes hasher states actor) (access (plainBuffer dbSize) hasher states actor) L ∧
          ∀ n ≤ L, BufferLocal dbSize (states n).shared.buffer := by
  obtain ⟨s₀, hs₀, hopen⟩ := opened_of_holds (N := N) hf hasher
  refine ⟨s₀, hs₀, fun states actor L h hns => ?_⟩
  have htraced := (h.guarded hns).traced (guardedBuffer_lawful dbSize) (hopen.safe hi hf.guarded) hopen
  refine ⟨raceFree_withAlloc htraced.raceFree, fun n hn => ?_⟩
  obtain ⟨pend, hstored⟩ := (htraced.safe n hn).stored
  exact hstored.inv.bufferLocal

theorem calls_race_free_of_one_bucket :
    ∃ s₀, State.opened (N := 1) (plainBuffer 220) List.length (emptyFile 220 (by decide)) = some s₀ ∧
      ∀ states actor L, Trace (plainBuffer 220) List.length s₀ states actor L → NoStaleSplitIn states L →
        RaceFree actor (Synchronizes List.length states actor) (access (plainBuffer 220) List.length states actor) L ∧
          ∀ n ≤ L, BufferLocal 220 (states n).shared.buffer := by
  obtain ⟨hi, hs⟩ := emptyFile_sound 220 (by decide) (by decide)
  have hf : FileHolds (plainBuffer 220) (emptyFile 220 (by decide)) (([] : List Record).map Record.block) [] :=
    fileHolds_empty hs
  exact calls_race_free hi hf List.length

end KeyValueStore
