import KeyValueStore.Ownership

/-!
# The records in the file

The used blocks are the records whose use count is not zero, the newest first, behind the block that the call in its critical
section has allocated and not yet published, if there is one (`Stored`).  So a record is freed when nobody refers to it any
more, and only then.
-/

namespace KeyValueStore

open ByteMemory ConcurrentHashTable References

/-- The records that are still referred to, the newest first. -/
def live (controls : List Control) : List Record :=
  ((controls.filter fun x => x.useCount ≠ 0).map Control.record).reverse

theorem mem_live {controls : List Control} {r : Record} :
    r ∈ live controls ↔ ∃ (c : Nat) (x : Control), controls[c]? = some x ∧ x.useCount ≠ 0 ∧ x.record = r := by
  rw [live, List.mem_reverse, List.mem_map]
  constructor
  · rintro ⟨x, hx, hr⟩
    obtain ⟨hmem, hx⟩ := List.mem_filter.1 hx
    obtain ⟨c, hc⟩ := List.mem_iff_getElem?.1 hmem
    exact ⟨c, x, hc, of_decide_eq_true hx, hr⟩
  · rintro ⟨c, x, hc, hx, hr⟩
    exact ⟨x, List.mem_filter.2 ⟨List.mem_of_getElem? hc, decide_eq_true hx⟩, hr⟩

/-- A new control block. -/
theorem live_concat (controls : List Control) {x : Control} (hx : x.useCount ≠ 0) :
    live (controls ++ [x]) = x.record :: live controls := by
  simp [live, hx]

/-- The use count changes and stays positive. -/
theorem live_set {controls : List Control} {c : Nat} {x : Control} (h : controls[c]? = some x) (hx : x.useCount ≠ 0)
    {n : Nat} (hn : n ≠ 0) : live (controls.set c { x with useCount := n }) = live controls := by
  obtain ⟨hc, rfl⟩ := List.getElem?_eq_some_iff.1 h
  rw [live, live]
  congr 1
  clear h
  induction controls generalizing c with
  | nil => rfl
  | cons y ys ih =>
    cases c with
    | zero =>
      rw [List.getElem_cons_zero] at hx
      simp [hn, hx]
    | succ c =>
      rw [List.getElem_cons_succ] at hx
      have := ih (c := c) (by simpa using hc) hx
      by_cases hy : y.useCount = 0 <;> simpa [hy] using this

private theorem live_set_zero {controls : List Control} {c : Nat} {x : Control} (h : controls[c]? = some x)
    (hx : x.useCount ≠ 0) (hnodup : (live controls).Nodup) :
    live (controls.set c { x with useCount := 0 }) = (live controls).erase x.record := by
  obtain ⟨l, l', rfl, rfl⟩ : ∃ l l', controls = l ++ x :: l' ∧ c = l.length := by
    obtain ⟨hc, rfl⟩ := List.getElem?_eq_some_iff.1 h
    exact ⟨controls.take c, controls.drop (c + 1), by simp, by simp [Nat.le_of_lt hc]⟩
  have hlive : live (l ++ x :: l') = live l' ++ x.record :: live l := by simp [live, hx]
  have hset : live ((l ++ x :: l').set l.length { x with useCount := 0 }) = live l' ++ live l := by simp [live]
  rw [hlive] at hnodup
  have hnotin : x.record ∉ live l' := fun hm => (List.nodup_append.1 hnodup).2.2 _ hm _ (List.mem_cons_self ..) rfl
  rw [hset, hlive, List.erase_append_right _ hnotin, List.erase_cons_head]

variable {N : Nat} {σ : Type} {B : Buffer σ} {Inv : σ → Prop} {hasher : Bytes → Nat} {s s' : State N σ}
  {sh' : Shared N σ} {i : Nat} {r : Request} {pc pc' : Pc} {pend pend' : List Payload}

/-- What a call has copied into its block. -/
def Pc.Written (m : Mem) (r : Request) (size : Nat) : Pc → Prop
  | .copyValue block _ _ => StringAt m block r.key
  | .setPointer block _ _ => (⟨block, size, r.key, r.value⟩ : Record).StoredIn m
  | _ => True

/-- The block of a call, with what it has copied there. -/
def Thread.Fills (B : Buffer σ) (s : σ) (pend : List Payload) (th : Thread) (p : Nat) : Prop :=
  ∃ size, pend = [⟨p, size⟩] ∧ th.request.key.length + 1 + th.request.value.length + 1 ≤ size ∧
    th.pc.Written (B.base s) th.request size

/-- The used blocks are `pend`, which is the block of the call in its critical section, and the records in use. -/
structure Stored (B : Buffer σ) (Inv : σ → Prop) (s : State N σ) (pend : List Payload) : Prop where
  inv : Inv s.shared.buffer
  file : FileHolds B s.shared.buffer (pend ++ (live s.shared.controls).map Record.block) (live s.shared.controls)
  fills : ∀ (j : Nat) (th : Thread) (p : Nat), s.threads[j]? = some th → th.pc.block = some p →
    th.Fills B s.shared.buffer pend p
  idle : (∀ (j : Nat) (th : Thread), s.threads[j]? = some th → th.pc.block = none) → pend = []
  nulFree : ∀ (j : Nat) (th : Thread), s.threads[j]? = some th → th.request.NulFree

theorem Pc.Written.congr {m m' : Mem} {size p : Nat} (h : pc.Written m r size) (hp : pc.block = some p)
    (hsize : r.key.length + 1 + r.value.length + 1 ≤ size) (hm : SameBytes [⟨p, size⟩] m m') :
    pc.Written m' r size := by
  have hm := hm _ (List.mem_cons_self ..)
  cases pc with
  | copyValue block bucket isNew =>
    obtain rfl := Option.some.inj hp
    exact StringAt.congr h fun x h₁ h₂ => hm x h₁ (by simp only at h₂ ⊢; omega)
  | setPointer block bucket isNew =>
    obtain rfl := Option.some.inj hp
    exact Record.StoredIn.congr h hm
  | _ => trivial

/-- The other calls hold no block during a step of the critical section. -/
private theorem Exclusive.block_none (hx : Exclusive s) (hth : s.threads[i]? = some ⟨r, pc⟩) (hc : pc.Critical)
    {j : Nat} {th : Thread} (hne : i ≠ j) (hj : s.threads[j]? = some th) : th.pc.block = none := by
  cases hb : th.pc.block with
  | none => rfl
  | some p => exact absurd (hx.eq_of_critical hj hth (critical_of_block hb) hc).symm hne

/-- A step that neither allocates a block nor publishes it. -/
private theorem Stored.keep (h : Stored B Inv s pend) (hth : s.threads[i]? = some ⟨r, pc⟩) (hi : Inv sh'.buffer)
    (hf : FileHolds B sh'.buffer (pend ++ (live sh'.controls).map Record.block) (live sh'.controls))
    (hm : SameBytes pend (B.base s.shared.buffer) (B.base sh'.buffer)) (hb : pc'.block = pc.block)
    (hw : ∀ m size, pc'.Written m r size) : Stored B Inv ⟨sh', s.threads.set i ⟨r, pc'⟩⟩ pend := by
  refine ⟨hi, hf, fun j th p hj hp => ?_, fun hidle => h.idle fun j th hj => ?_, fun j th hj => ?_⟩
  · rcases getElem?_set_cases hj with ⟨rfl, rfl⟩ | ⟨-, hj⟩
    · obtain ⟨size, hpend, hsize, -⟩ := h.fills i _ p hth (hb.symm.trans hp)
      exact ⟨size, hpend, hsize, hw _ _⟩
    · obtain ⟨size, rfl, hsize, hwr⟩ := h.fills j th p hj hp
      exact ⟨size, rfl, hsize, hwr.congr hp hsize hm⟩
  · rcases eq_or_ne i j with rfl | hne
    · rw [hth] at hj
      obtain rfl := Option.some.inj hj
      rw [← hb]
      exact hidle i ⟨r, pc'⟩ (List.getElem?_set_self (List.getElem?_eq_some_iff.1 hth).1)
    · exact hidle j th ((List.getElem?_set_ne hne).trans hj)
  · rcases getElem?_set_cases hj with ⟨rfl, rfl⟩ | ⟨-, hj⟩
    · exact h.nulFree i ⟨r, pc⟩ hth
    · exact h.nulFree j th hj

private theorem Stored.own (h : Stored B Inv s pend) (hx : Exclusive s) (hth : s.threads[i]? = some ⟨r, pc⟩)
    (hc : pc.Critical) (hi : Inv sh'.buffer)
    (hf : FileHolds B sh'.buffer (pend' ++ (live sh'.controls).map Record.block) (live sh'.controls))
    (hfills : ∀ p, pc'.block = some p → (⟨r, pc'⟩ : Thread).Fills B sh'.buffer pend' p)
    (hidle : pc'.block = none → pend' = []) : Stored B Inv ⟨sh', s.threads.set i ⟨r, pc'⟩⟩ pend' := by
  refine ⟨hi, hf, fun j th p hj hp => ?_, fun hnone => hidle ?_, fun j th hj => ?_⟩
  · rcases getElem?_set_cases hj with ⟨rfl, rfl⟩ | ⟨hne, hj⟩
    · exact hfills p hp
    · rw [hx.block_none hth hc hne hj] at hp
      cases hp
  · exact hnone i ⟨r, pc'⟩ (List.getElem?_set_self (List.getElem?_eq_some_iff.1 hth).1)
  · rcases getElem?_set_cases hj with ⟨rfl, rfl⟩ | ⟨-, hj⟩
    · exact h.nulFree i ⟨r, pc⟩ hth
    · exact h.nulFree j th hj

private theorem live_acquire {sh : Shared N σ} {c : Nat} {x : Control} (hx : sh.controls[c]? = some x)
    (hlive : x.useCount ≠ 0) :
    live (sh.acquire c).controls = live sh.controls := by
  have hset : (sh.acquire c).controls = sh.controls.set c { x with useCount := x.useCount + 1 } := by
    rw [Shared.acquire, List.modify_eq_set_getElem?, hx]
    rfl
  rw [hset]
  exact live_set hx hlive (Nat.succ_ne_zero _)

private theorem Stored.release (hB : B.Lawful Inv) (h : Stored B Inv s pend) {c : Nat} {x : Control}
    (hx : s.shared.controls[c]? = some x) (hlive : x.useCount ≠ 0) :
    Inv (s.shared.release B c).buffer ∧
      FileHolds B (s.shared.release B c).buffer (pend ++ (live (s.shared.release B c).controls).map Record.block)
        (live (s.shared.release B c).controls) ∧
      SameBytes pend (B.base s.shared.buffer) (B.base (s.shared.release B c).buffer) := by
  rw [release_controls B hx]
  have hbuffer : (s.shared.release B c).buffer =
      if x.useCount = 1 then B.free x.record.data s.shared.buffer else s.shared.buffer := by rw [Shared.release, hx]
  rw [hbuffer]
  by_cases hone : x.useCount = 1
  · have hzero : x.useCount - 1 = 0 := by omega
    have hnodup : (live s.shared.controls).Nodup := List.Nodup.of_map _ h.file.nodup_data
    rw [if_pos hone, hzero, live_set_zero hx hlive hnodup]
    exact h.file.free_record hB h.inv (mem_live.2 ⟨c, x, hx, hlive, rfl⟩)
  · rw [if_neg hone, live_set hx hlive (by omega)]
    exact ⟨h.inv, h.file, fun _ _ _ _ _ => rfl⟩

private theorem blockSize_eq {t : σ} {p size : Nat} {bs : List Payload} (h : B.usedBlocks t = ⟨p, size⟩ :: bs) :
    Shared.blockSize B t p = size := by
  rw [Shared.blockSize, h, List.find?_cons]
  simp

private theorem Stored.publish (h : Stored B Inv s pend) {p b : Nat} {isNew : Bool}
    (hfills : (⟨r, .setPointer p b isNew⟩ : Thread).Fills B s.shared.buffer pend p) :
    FileHolds B (s.shared.exchange B r p b).buffer ([] ++ (live (s.shared.exchange B r p b).controls).map Record.block)
      (live (s.shared.exchange B r p b).controls) := by
  obtain ⟨size, rfl, -, hstored⟩ := hfills
  have hlive : live (s.shared.exchange B r p b).controls =
      ⟨p, size, r.key, r.value⟩ :: live s.shared.controls := by
    rw [Shared.exchange, live_concat _ (by simp [Shared.newControl]), Shared.newControl, blockSize_eq h.file.used]
  rw [hlive]
  refine ⟨h.file.used, h.file.apart, h.file.inside, fun x hx => ?_, fun x hx => ?_⟩
  · exact List.mem_map_of_mem hx
  · rcases List.mem_cons.1 hx with rfl | hx
    · exact hstored
    · exact h.file.stored x hx

/-- The copy of the key. -/
theorem Stored.copyKey (hB : B.Lawful Inv) {p size : Nat} (h : Stored B Inv s [⟨p, size⟩]) (hkey : 0 ∉ r.key)
    (hsize : r.key.length + 1 + r.value.length + 1 ≤ size) :
    Inv (ConcurrentHashTable.copyKey B p r.key s.shared.buffer) ∧
      FileHolds B (ConcurrentHashTable.copyKey B p r.key s.shared.buffer)
        (⟨p, size⟩ :: (live s.shared.controls).map Record.block) (live s.shared.controls) ∧
      StringAt (B.base (ConcurrentHashTable.copyKey B p r.key s.shared.buffer)) p r.key := by
  have hne : ∀ x ∈ live s.shared.controls, x.block ≠ ⟨p, size⟩ :=
    fun x hx e => h.file.block_notMem hx (e ▸ List.mem_cons_self ..)
  obtain ⟨hi, hf, -, hat⟩ := h.file.copyKey hB h.inv (List.mem_cons_self ..) hne (show r.key.length + 1 ≤ size by omega)
  rw [cut_eq_self hkey] at hat
  exact ⟨hi, hf, hat⟩

/-- The copy of the value completes the record. -/
theorem Stored.copyValue (hB : B.Lawful Inv) {p size : Nat} (h : Stored B Inv s [⟨p, size⟩]) (hvalue : 0 ∉ r.value)
    (hsize : r.key.length + 1 + r.value.length + 1 ≤ size) (hat : StringAt (B.base s.shared.buffer) p r.key) {t : σ}
    (hcopy : ConcurrentHashTable.copyValue B p r.value s.shared.buffer = some t) :
    Inv t ∧ FileHolds B t (⟨p, size⟩ :: (live s.shared.controls).map Record.block)
      (⟨p, size, r.key, r.value⟩ :: live s.shared.controls) := by
  have hne : ∀ x ∈ live s.shared.controls, x.block ≠ ⟨p, size⟩ :=
    fun x hx e => h.file.block_notMem hx (e ▸ List.mem_cons_self ..)
  obtain ⟨t', hcopy', hi, hf⟩ := h.file.copyValue hB h.inv (List.mem_cons_self ..) hne hat hsize
  obtain rfl : t = t' := Option.some.inj (hcopy.symm.trans hcopy')
  rw [cut_eq_self hvalue] at hf
  exact ⟨hi, hf⟩

variable [NeZero N]

private theorem block_loadHead {sh : Shared N σ} {key : Bytes} {block : Option Nat} :
    (sh.loadHead hasher key block).block = block := by
  unfold Shared.loadHead
  split <;> rfl

private theorem written_loadHead {sh : Shared N σ} {key : Bytes} {block : Option Nat} (m : Mem) (size : Nat) :
    (sh.loadHead hasher key block).Written m r size := by
  unfold Shared.loadHead
  split <;> trivial

private theorem block_afterSet {b : Nat} {isNew : Bool} : (Shared.afterSet b isNew).block = none := by
  unfold Shared.afterSet
  split <;> rfl

private theorem written_afterSet {b : Nat} {isNew : Bool} (m : Mem) (size : Nat) :
    (Shared.afterSet b isNew).Written m r size := by
  unfold Shared.afterSet
  split <;> trivial

/-- The blocks and records after a step of a call. -/
theorem Stored.fires (hB : B.Lawful Inv) (hx : Exclusive s) (hc : Counted s) (h : Stored B Inv s pend)
    (hth : s.threads[i]? = some ⟨r, pc⟩) (hf : Fires B hasher s.shared i r pc sh' pc') :
    ∃ pend', Stored B Inv ⟨sh', s.threads.set i ⟨r, pc'⟩⟩ pend' := by
  have hrefl : SameBytes pend (B.base s.shared.buffer) (B.base s.shared.buffer) := fun _ _ _ _ _ => rfl
  -- before it allocates, a call in its critical section has no block, and no other call has one
  have hidle : pc.Critical → pc.block = none → pend = [] := by
    intro hcrit hnone
    apply h.idle
    intro j th hj
    rcases eq_or_ne i j with rfl | hne
    · rw [hth] at hj
      obtain rfl := Option.some.inj hj
      exact hnone
    · exact hx.block_none hth hcrit hne hj
  have hnul := h.nulFree i _ hth
  cases hf with
  | getHead hr => exact ⟨pend, h.keep hth h.inv h.file hrefl block_loadHead written_loadHead⟩
  | loadHead => exact ⟨pend, h.keep hth h.inv h.file hrefl block_loadHead written_loadHead⟩
  | @load block b c hb =>
    obtain ⟨x, hx, hlive⟩ := hc.bucket_live hb
    refine ⟨pend, h.keep hth h.inv ?_ hrefl rfl fun _ _ => trivial⟩
    rw [live_acquire hx hlive]
    exact h.file
  | @hit b c hb =>
    obtain ⟨x, hx, hlive⟩ := hc.bucket_live hb
    refine ⟨pend, h.keep hth h.inv ?_ hrefl rfl fun _ _ => trivial⟩
    rw [live_acquire hx hlive]
    exact h.file
  | dropCompared =>
    obtain ⟨x, hx, hlive⟩ := hc.thread_live hth rfl
    obtain ⟨hi', hf', hm⟩ := h.release hB hx hlive
    refine ⟨pend, h.keep hth hi' hf' hm ?_ ?_⟩
    · split <;> rfl
    · intro m size
      split <;> trivial
  | dropRead =>
    obtain ⟨x, hx, hlive⟩ := hc.thread_live hth rfl
    obtain ⟨hi', hf', hm⟩ := h.release hB hx hlive
    exact ⟨pend, h.keep hth hi' hf' hm rfl fun _ _ => trivial⟩
  | dropOld =>
    obtain ⟨x, hx, hlive⟩ := hc.thread_live hth rfl
    obtain ⟨hi', hf', hm⟩ := h.release hB hx hlive
    exact ⟨pend, h.keep hth hi' hf' hm block_afterSet written_afterSet⟩
  | @allocFail t ha =>
    obtain rfl := hidle trivial rfl
    obtain ⟨hi', hf'⟩ := h.file.alloc_none hB h.inv ha
    exact ⟨[], h.own hx hth trivial hi' hf' (by simp [Pc.block]) fun _ => rfl⟩
  | @alloc t p ha =>
    obtain rfl := hidle trivial rfl
    obtain ⟨hi', size, hsize, hf', -⟩ := h.file.alloc_some hB h.inv ha
    refine ⟨[⟨p, size⟩], h.own hx hth trivial hi' hf' (fun q hq => ?_) fun hnone => ?_⟩
    · obtain rfl := Option.some.inj hq
      exact ⟨size, rfl, by simp only; omega, trivial⟩
    · cases hnone
  | @copyKey p b isNew =>
    obtain ⟨size, rfl, hsize, -⟩ := h.fills i _ p hth rfl
    obtain ⟨hi', hf', hat⟩ := h.copyKey hB hnul.1 hsize
    refine ⟨[⟨p, size⟩], h.own hx hth rfl hi' hf' (fun q hq => ?_) fun hnone => ?_⟩
    · obtain rfl := Option.some.inj hq
      exact ⟨size, rfl, hsize, hat⟩
    · cases hnone
  | @copyValue p b isNew t hcopy =>
    obtain ⟨size, rfl, hsize, hat⟩ := h.fills i _ p hth rfl
    obtain ⟨hi', hf'⟩ := h.copyValue hB hnul.2 hsize hat hcopy
    refine ⟨[⟨p, size⟩], h.own hx hth rfl hi' (hf'.sublist fun _ => List.mem_cons_of_mem _) (fun q hq => ?_)
      fun hnone => ?_⟩
    · obtain rfl := Option.some.inj hq
      exact ⟨size, rfl, hsize, hf'.stored _ (List.mem_cons_self ..)⟩
    · cases hnone
  | @setFresh p b isNew hb =>
    have hf' := h.publish (b := b) (h.fills i _ p hth rfl)
    refine ⟨[], h.own hx hth rfl h.inv hf' (fun q hq => ?_) fun _ => rfl⟩
    rw [block_afterSet] at hq
    cases hq
  | @setOld p b c isNew hb =>
    have hf' := h.publish (b := b) (h.fills i _ p hth rfl)
    exact ⟨[], h.own hx hth rfl h.inv hf' (by simp [Pc.block]) fun _ => rfl⟩
  | _ => exact ⟨pend, h.keep hth h.inv h.file hrefl rfl fun _ _ => trivial⟩

theorem Stored.step (hB : B.Lawful Inv) (hx : Exclusive s) (hc : Counted s) (h : Stored B Inv s pend)
    (hs : Step B hasher s s') : ∃ pend', Stored B Inv s' pend' := by
  rcases hs.cases with ⟨r, hr, rfl⟩ | ⟨i, r, pc, sh', pc', hth, hf, rfl⟩
  · refine ⟨pend, h.inv, h.file, fun j th p hj hp => ?_, fun hidle => h.idle fun j th hj => ?_, fun j th hj => ?_⟩
    · rcases getElem?_concat_cases hj with ⟨rfl, rfl⟩ | hj
      · cases hp
      · exact h.fills j th p hj hp
    · exact hidle j th (getElem?_of_extends (List.prefix_append ..) hj)
    · rcases getElem?_concat_cases hj with ⟨rfl, rfl⟩ | hj
      · exact hr
      · exact h.nulFree j th hj
  · exact h.fires hB hx hc hth hf

end KeyValueStore
