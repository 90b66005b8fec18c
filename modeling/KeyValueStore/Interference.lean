import KeyValueStore.Reload
import KeyValueStore.Sequential

/-!
# Keys that contain a `NUL` byte

A key is hashed as a `std::string`, but the record holds it up to its first `NUL` byte, and both the lookup and the next
process read it there.  So a `put` to a key with a `NUL` byte is a `put` to another key, the part in front of that byte,
where the hashes agree or when the file is opened again (`put_keeps_other_iff`).
-/

namespace KeyValueStore

open ByteMemory ConcurrentHashTable

variable {N : Nat} [NeZero N] {σ : Type} {B : Buffer σ} {Inv : σ → Prop} {t t' : ConcurrentHashTable N σ}
  {xs : List (Record × Fin N)} {rs : List Record}

/-- What `put` changes for the lookups and for the next process: only the stored key may get another value. -/
theorem Holds.put_current (hB : B.Lawful Inv) (hi : Inv t.buffer) (h : Holds B t xs rs) (hasher : Bytes → Nat)
    {key value : Bytes} {ok : Bool} (hput : ConcurrentHashTable.put B hasher t key value = some (ok, t')) :
    ∃ xs' rs', Holds B t' xs' rs' ∧
      if (B.alloc (key.length + 1 + value.length + 1) t.buffer).1 = none then xs' = xs ∧ rs' = rs
      else (∀ i key', current xs' i key' =
          if hashTableIndex hasher key = i ∧ cut key = key' then cut value else current xs i key') ∧
        ∀ key', key' ≠ key → lastValue rs' key' =
          if key' = cut key ∧ key' ∉ rs.map Record.key then cut value else lastValue rs key' := by
  rcases h.put hasher hB hi key value with ⟨t₁, ha, ht, -, h'⟩ | ⟨t₁, r, ha, ht, -, hk, hv, h'⟩
  · obtain ⟨-, rfl⟩ : ok = false ∧ t' = t₁ := by simpa using hput.symm.trans ht
    exact ⟨xs, rs, h', by rw [if_pos ha]; exact ⟨rfl, rfl⟩⟩
  · obtain ⟨-, rfl⟩ : ok = true ∧ t' = t₁ := by simpa using hput.symm.trans ht
    have ha' : (B.alloc (key.length + 1 + value.length + 1) t.buffer).1 ≠ none := by simp [ha]
    rcases h' with ⟨hl, h'⟩ | ⟨j, x, hl, hx, h'⟩
    · refine ⟨_, _, h', ?_⟩
      rw [if_neg ha']
      refine ⟨fun i key' => ?_, fun key' _ => ?_⟩
      · rw [current_concat, hk, hv]
      · rw [lastValue_cons, hk, hv]
        by_cases hmem : key' ∈ rs.map Record.key
        · rw [if_pos hmem, if_neg fun h => h.2 hmem]
        · rw [if_neg hmem]
          by_cases hc : cut key = key'
          · rw [if_pos hc, if_pos ⟨hc.symm, hmem⟩]
          · rw [if_neg hc, if_neg fun h => hc h.1.symm, lastValue_of_not_mem hmem]
    · -- the key was found, so it has no zero byte, and its record is replaced
      obtain ⟨y, hy, -, hyk⟩ := lookup_entry hl
      obtain rfl : x = y := Option.some.inj (hx.symm.trans hy)
      have hxr := h.mem (List.mem_of_getElem? hx)
      have hcut : cut key = key := cut_eq_self (hyk ▸ (h.file.stored _ hxr).key.no_zero)
      refine ⟨_, _, h', ?_⟩
      rw [if_neg ha']
      refine ⟨fun i key' => ?_, fun key' hne => ?_⟩
      · rw [current_set hl rfl (hk.trans hcut), hv, hcut]
      · rw [lastValue_cons, lastValue_erase (fun e => hne (e.symm.trans hyk)), hk, hcut,
          if_neg (show ¬(key' = key ∧ key' ∉ rs.map Record.key) from fun h => hne h.1)]
        split
        · rfl
        · rename_i hmem
          rw [if_neg fun e => hne e.symm, lastValue_of_not_mem fun hm => hmem ?_]
          obtain ⟨r', hr', rfl⟩ := List.mem_map.1 hm
          have hne' : r' ≠ x.1 := fun e => hne (e ▸ hyk)
          exact List.mem_map_of_mem ((List.mem_erase_of_ne hne').2 hr')

/-- A `put` to a table at rest leaves the value of another key alone if and only if the other key has it already, where the
records are looked up. -/
private theorem Holds.keeps_other (hB : B.Lawful Inv) (hi : Inv t.buffer) (h : Holds B t xs rs) (hasher : Bytes → Nat)
    {k₁ k₂ : Bytes} (hne : k₁ ≠ k₂) (v : Bytes) {ok : Bool} (hput : ConcurrentHashTable.put B hasher t k₁ v = some (ok, t')) :
    (ConcurrentHashTable.get B hasher t' k₂ = ConcurrentHashTable.get B hasher t k₂ ∧
        ∀ hasher', getAfterReopen N B hasher' t'.buffer k₂ = getAfterReopen N B hasher' t.buffer k₂) ↔
      (B.alloc (k₁.length + 1 + v.length + 1) t.buffer).1 = none ∨ k₂ ≠ cut k₁ ∨
        (hashTableIndex (N := N) hasher k₁ = hashTableIndex hasher k₂ →
          ConcurrentHashTable.get B hasher t k₂ = some (cut v)) ∧
        (k₂ ∉ usedKeys B t.buffer → cut v = []) := by
  obtain ⟨xs', rs', h', hcase⟩ := h.put_current hB hi hasher hput
  simp only [h.get, h'.get, getAfterReopen_eq h.file, getAfterReopen_eq h'.file, h.file.usedKeys_eq, Option.some.injEq]
  split at hcase
  · rename_i ha
    obtain ⟨rfl, rfl⟩ := hcase
    simp [ha]
  · rename_i ha
    obtain ⟨hcur, hlast⟩ := hcase
    rw [hcur, hlast k₂ hne.symm]
    by_cases hk : k₂ = cut k₁
    · subst hk
      simp only [ha, and_true, true_and, ne_eq, not_true_eq_false, false_or, forall_const]
      refine and_congr ?_ ?_
      · by_cases hidx : hashTableIndex (N := N) hasher k₁ = hashTableIndex hasher (cut k₁)
        · rw [if_pos hidx]
          exact ⟨fun e _ => e.symm, fun e => (e hidx).symm⟩
        · simp [hidx]
      · by_cases hmem : cut k₁ ∈ rs.map Record.key
        · simp [hmem]
        · rw [if_pos hmem, lastValue_of_not_mem hmem]
          exact ⟨fun e _ => e, fun e => e hmem⟩
    · have hk' : cut k₁ ≠ k₂ := fun e => hk e.symm
      simp [ha, hk, hk']

/-- In a run without a stale split, that of the `put` included, a `put` leaves the value of another key alone, in this process
and in the next one, if and only if the allocation fails, or the other key is not what is stored of the key, or the value
stored is what the other key has already. -/
theorem put_keeps_other_iff {dbSize : Nat} {s : FileBackedBuffer} (hi : s.Sound dbSize)
    (hs : (plainBuffer dbSize).usedBlocks s = []) (hasher : Bytes → Nat) (ops : List StoreOp) {k₁ k₂ : Bytes} (hne : k₁ ≠ k₂)
    (v : Bytes) (hns : NoStaleSplitFrom N dbSize hasher s (ops ++ [.put k₁ v])) :
    ∃ es q ok t', runFrom (N := N) (plainBuffer dbSize) hasher s ops = some (es, q) ∧
      put (plainBuffer dbSize) q.hasher q.table k₁ v = some (ok, t') ∧
      ((ConcurrentHashTable.get (plainBuffer dbSize) q.hasher t' k₂ =
            ConcurrentHashTable.get (plainBuffer dbSize) q.hasher q.table k₂ ∧
          ∀ hasher', getAfterReopen N (plainBuffer dbSize) hasher' t'.buffer k₂ =
            getAfterReopen N (plainBuffer dbSize) hasher' q.table.buffer k₂) ↔
        ((plainBuffer dbSize).alloc (k₁.length + 1 + v.length + 1) q.table.buffer).1 = none ∨ k₂ ≠ cut k₁ ∨
          (hashTableIndex (N := N) q.hasher k₁ = hashTableIndex q.hasher k₂ →
            ConcurrentHashTable.get (plainBuffer dbSize) q.hasher q.table k₂ = some (cut v)) ∧
          (k₂ ∉ usedKeys (plainBuffer dbSize) q.table.buffer → cut v = [])) := by
  obtain ⟨hns, hput⟩ := noStaleSplitFrom_concat.1 hns
  obtain ⟨es, q, xs, rs, hrun, hi', h⟩ := runFrom_holds_of_noStaleSplit hi hs hasher hns
  have ha : allocPlain (k₁.length + 1 + v.length + 1) q.table.buffer =
      (guardedBuffer dbSize).alloc (k₁.length + 1 + v.length + 1) q.table.buffer := by
    rw [guardedBuffer_alloc, allocUnlessStale_eq (hput _ hrun)]
  obtain ⟨ok, t', hput⟩ : ∃ ok t', put (guardedBuffer dbSize) q.hasher q.table k₁ v = some (ok, t') := by
    rcases h.put q.hasher (guardedBuffer_lawful dbSize) hi' k₁ v with ⟨t', -, hput, -⟩ | ⟨t', r, -, hput, -⟩
    · exact ⟨false, t', hput⟩
    · exact ⟨true, t', hput⟩
  have hiff := h.keeps_other (guardedBuffer_lawful dbSize) hi' q.hasher hne v hput
  refine ⟨es, q, ok, t', hrun, ?_, ?_⟩
  · rw [plainBuffer_eq, put_withAlloc ha, hput]
  · simp only [plainBuffer_eq, get_withAlloc, getAfterReopen_withAlloc, withAlloc_alloc, ha]
    exact hiff

theorem put_keeps_other_of_one_put :
    ∃ es q ok t', runFrom (N := 266671) (plainBuffer 220) List.length (emptyFile 220 (by decide)) [.put [97] [1]] =
        some (es, q) ∧
      put (plainBuffer 220) q.hasher q.table [98] [1] = some (ok, t') ∧
      ConcurrentHashTable.get (plainBuffer 220) q.hasher t' [97] =
        ConcurrentHashTable.get (plainBuffer 220) q.hasher q.table [97] ∧
      ∀ hasher', getAfterReopen 266671 (plainBuffer 220) hasher' t'.buffer [97] =
        getAfterReopen 266671 (plainBuffer 220) hasher' q.table.buffer [97] := by
  obtain ⟨hi, hs⟩ := emptyFile_sound 220 (by decide) (by decide)
  obtain ⟨es, q, ok, t', hrun, hput, hiff⟩ := put_keeps_other_iff (N := 266671) hi hs List.length [.put [97] [1]]
    (show [98] ≠ [97] by decide) [1] (by decide +kernel)
  exact ⟨es, q, ok, t', hrun, hput, hiff.2 (Or.inr (Or.inl (by decide)))⟩

/-- After a `put` to the key `a`, `NUL`, `x` the next process finds the key `a`. -/
theorem put_changes_other : ∃ (es : List Event) (q : Process 266671 FileBackedBuffer)
    (t' : ConcurrentHashTable 266671 FileBackedBuffer),
    runFrom (plainBuffer 220) List.length (emptyFile 220 (by decide)) [] = some (es, q) ∧
      ConcurrentHashTable.put (plainBuffer 220) q.hasher q.table [97, 0, 120] [98] = some (true, t') ∧
      getAfterReopen 266671 (plainBuffer 220) List.length q.table.buffer [97] = some [] ∧
      getAfterReopen 266671 (plainBuffer 220) List.length t'.buffer [97] = some [98] := by
  have hrun : (runFrom (N := 266671) (plainBuffer 220) List.length (emptyFile 220 (by decide)) []).any fun r =>
      getAfterReopen 266671 (plainBuffer 220) List.length r.2.table.buffer [97] = some [] ∧
      (ConcurrentHashTable.put (plainBuffer 220) r.2.hasher r.2.table [97, 0, 120] [98]).any fun r' =>
        r'.1 = true ∧ getAfterReopen 266671 (plainBuffer 220) List.length r'.2.buffer [97] = some [98] := by
    decide +kernel
  obtain ⟨⟨es, q⟩, hq, h⟩ := (Option.any_eq_true _ _).1 hrun
  obtain ⟨hbefore, hput⟩ := of_decide_eq_true h
  obtain ⟨⟨ok, t'⟩, hput, hafter⟩ := (Option.any_eq_true _ _).1 hput
  obtain ⟨rfl, hafter⟩ := of_decide_eq_true hafter
  exact ⟨es, q, t', hq, hput, hbefore, hafter⟩

end KeyValueStore
