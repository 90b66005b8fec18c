import KeyValueStore.HashTable
import Mathlib.Data.List.Nodup
import Mathlib.Data.List.Pairwise

/-!
# Records in the used blocks

A record is a used block in which a key and a value are stored, one behind the other, each with its zero byte.
`FileHolds` says which blocks are used and which records are in them; it is kept by `alloc`, by stores into a block that
holds no record, and by freeing such a block, and copying a key and a value into a block adds a record.
-/

namespace KeyValueStore

open ByteMemory ConcurrentHashTable

structure Record where
  data : Nat
  size : Nat
  key : Bytes
  value : Bytes
  deriving DecidableEq, Repr

def Record.block (r : Record) : Payload := ⟨r.data, r.size⟩

/-- `<key> + '\0' + <value> + '\0'`, inside the block. -/
structure Record.StoredIn (m : Mem) (r : Record) : Prop where
  key : StringAt m r.data r.key
  value : StringAt m (r.data + r.key.length + 1) r.value
  fits : r.key.length + 1 + r.value.length + 1 ≤ r.size

/-- The used blocks are `bs`, and the records `rs` are stored in some of them. -/
structure FileHolds {σ : Type} (B : Buffer σ) (s : σ) (bs : List Payload) (rs : List Record) : Prop where
  used : B.usedBlocks s = bs
  apart : bs.Pairwise Payload.Apart
  inside : ∀ b ∈ bs, b.data + b.size ≤ B.dbSize
  block : ∀ r ∈ rs, r.block ∈ bs
  stored : ∀ r ∈ rs, r.StoredIn (B.base s)

/-- A record does not change with the bytes outside of its block. -/
theorem Record.StoredIn.congr {m m' : Mem} {r : Record} (h : r.StoredIn m)
    (hm : ∀ x, r.data ≤ x → x < r.data + r.size → m' x = m x) : r.StoredIn m' := by
  have hf := h.fits
  refine ⟨h.key.congr fun x h₁ h₂ => ?_, h.value.congr fun x h₁ h₂ => ?_, h.fits⟩
  · exact hm x h₁ (by omega)
  · exact hm x (by omega) (by omega)

theorem Record.StoredIn.two_le {m : Mem} {r : Record} (h : r.StoredIn m) : 2 ≤ r.size := by
  have := h.fits
  omega

variable {σ : Type} {B : Buffer σ} {Inv : σ → Prop} {s : σ} {bs : List Payload} {rs : List Record}

theorem fileHolds_empty (hs : B.usedBlocks s = []) : FileHolds B s [] [] :=
  ⟨hs, List.Pairwise.nil, by simp, by simp, by simp⟩

theorem FileHolds.sublist (h : FileHolds B s bs rs) {rs' : List Record} (hs : ∀ r ∈ rs', r ∈ rs) :
    FileHolds B s bs rs' :=
  ⟨h.used, h.apart, h.inside, fun r hr => h.block r (hs r hr), fun r hr => h.stored r (hs r hr)⟩

theorem FileHolds.string_key (h : FileHolds B s bs rs) {r : Record} (hr : r ∈ rs) : string B s r.data = some r.key := by
  have hst := h.stored r hr
  have hin := h.inside _ (h.block r hr)
  have hf := hst.fits
  simp only [Record.block] at hin
  exact cString_eq_some.2 ⟨hst.key, by omega⟩

theorem FileHolds.string_value (h : FileHolds B s bs rs) {r : Record} (hr : r ∈ rs) :
    string B s (r.data + r.key.length + 1) = some r.value := by
  have hst := h.stored r hr
  have hin := h.inside _ (h.block r hr)
  have hf := hst.fits
  simp only [Record.block] at hin
  exact cString_eq_some.2 ⟨hst.value, by omega⟩

private theorem FileHolds.eq_of_data (h : FileHolds B s bs rs) {r r' : Record} (hr : r ∈ rs) (hr' : r' ∈ rs)
    (hd : r.data = r'.data) : r = r' := by
  have hk : r.key = r'.key := by
    have := h.string_key hr
    rw [hd, h.string_key hr'] at this
    exact (Option.some.inj this).symm
  have hv : r.value = r'.value := by
    have := h.string_value hr
    rw [hd, hk, h.string_value hr'] at this
    exact (Option.some.inj this).symm
  have hs : r.block = r'.block := by
    by_contra hne
    have hap := h.apart.forall (h.block r hr) (h.block r' hr') hne
    have h₁ := (h.stored r hr).two_le
    have h₂ := (h.stored r' hr').two_le
    simp only [Payload.Apart, Record.block] at hap
    omega
  have hsize : r.size = r'.size := congrArg Payload.size hs
  obtain ⟨d, n, k, v⟩ := r
  obtain ⟨d', n', k', v'⟩ := r'
  simp_all

private theorem FileHolds.same (h : FileHolds B s bs rs) {s' : σ} (hu : B.usedBlocks s' = bs)
    (hm : SameBytes bs (B.base s) (B.base s')) : FileHolds B s' bs rs :=
  ⟨hu, h.apart, h.inside, h.block, fun r hr => (h.stored r hr).congr (hm _ (h.block r hr))⟩

theorem FileHolds.alloc_none (hB : B.Lawful Inv) (hi : Inv s) (h : FileHolds B s bs rs) {n : Nat} {s' : σ}
    (ha : B.alloc n s = (none, s')) : Inv s' ∧ FileHolds B s' bs rs := by
  obtain ⟨hi', hu, hm⟩ := hB.alloc_none hi ha
  rw [h.used] at hu hm
  exact ⟨hi', h.same hu hm⟩

theorem FileHolds.alloc_some (hB : B.Lawful Inv) (hi : Inv s) (h : FileHolds B s bs rs) {n p : Nat} {s' : σ}
    (ha : B.alloc n s = (some p, s')) :
    Inv s' ∧ ∃ size, n ≤ size ∧ FileHolds B s' (⟨p, size⟩ :: bs) rs ∧ ∀ b ∈ bs, b.Apart ⟨p, size⟩ := by
  obtain ⟨hi', size, hn, hin, hu, hap, hm⟩ := hB.alloc_some hi ha
  rw [h.used] at hu hm hap
  refine ⟨hi', size, hn, ⟨hu, ?_, ?_, ?_, ?_⟩, hap⟩
  · exact List.pairwise_cons.2 ⟨fun b hb => (hap b hb).symm, h.apart⟩
  · intro b hb
    rcases List.mem_cons.1 hb with rfl | hb
    · exact hin
    · exact h.inside b hb
  · exact fun r hr => List.mem_cons_of_mem _ (h.block r hr)
  · exact fun r hr => (h.stored r hr).congr (hm _ (h.block r hr))

/-- Freeing a block without record. -/
theorem FileHolds.free (hB : B.Lawful Inv) (hi : Inv s) (h : FileHolds B s bs rs) {b : Payload} (hb : b ∈ bs)
    (hrs : ∀ r ∈ rs, r.block ≠ b) :
    Inv (B.free b.data s) ∧ FileHolds B (B.free b.data s) (bs.erase b) rs := by
  obtain ⟨hi', hu, hm⟩ := hB.free_used hi (h.used ▸ hb)
  rw [h.used] at hu hm
  have hmem : ∀ r ∈ rs, r.block ∈ bs.erase b := fun r hr => (List.mem_erase_of_ne (hrs r hr)).2 (h.block r hr)
  refine ⟨hi', hu, h.apart.sublist List.erase_sublist, ?_, hmem, ?_⟩
  · exact fun c hc => h.inside c (List.mem_of_mem_erase hc)
  · exact fun r hr => (h.stored r hr).congr (hm _ (hmem r hr))

/-- A store into a block without record. -/
theorem FileHolds.write (hB : B.Lawful Inv) (hi : Inv s) (h : FileHolds B s bs rs) {b : Payload} (hb : b ∈ bs)
    (hrs : ∀ r ∈ rs, r.block ≠ b) {a : Nat} (xs : List UInt8) (ha : b.data ≤ a) (hxs : a + xs.length ≤ b.data + b.size) :
    Inv (B.write a xs s) ∧ FileHolds B (B.write a xs s) bs rs ∧
      B.base (B.write a xs s) = setBytes (B.base s) a xs := by
  obtain ⟨hi', hu, hm⟩ := hB.write_used hi (h.used ▸ hb) ha hxs
  refine ⟨hi', ⟨hu.trans h.used, h.apart, h.inside, h.block, fun r hr => ?_⟩, hm⟩
  apply (h.stored r hr).congr
  intro x h₁ h₂
  have hap := h.apart.forall (h.block r hr) hb (hrs r hr)
  simp only [Payload.Apart, Record.block] at hap
  rw [hm]
  apply setBytes_outside
  omega

/-- Copying the key. -/
theorem FileHolds.copyKey (hB : B.Lawful Inv) (hi : Inv s) (h : FileHolds B s bs rs) {b : Payload} (hb : b ∈ bs)
    (hrs : ∀ r ∈ rs, r.block ≠ b) {key : Bytes} (hkey : key.length + 1 ≤ b.size) :
    Inv (copyKey B b.data key s) ∧ FileHolds B (copyKey B b.data key s) bs rs ∧
      B.base (copyKey B b.data key s) = setBytes (B.base s) b.data (strncpyBytes key (key.length + 1)) ∧
      StringAt (B.base (copyKey B b.data key s)) b.data (cut key) := by
  obtain ⟨hi', h', hm⟩ := h.write hB hi hb hrs (strncpyBytes key (key.length + 1)) (Nat.le_refl _)
    (by rw [length_strncpyBytes]; omega)
  refine ⟨hi', h', hm, ?_⟩
  rw [ConcurrentHashTable.copyKey, hm, strncpyBytes_succ]
  exact stringAt_setBytes _ _ (zero_notMem_cut key)

/-- Copying the value, behind the key that is read in the block. -/
theorem FileHolds.copyValue (hB : B.Lawful Inv) (hi : Inv s) (h : FileHolds B s bs rs) {b : Payload} (hb : b ∈ bs)
    (hrs : ∀ r ∈ rs, r.block ≠ b) {key value : Bytes} (hat : StringAt (B.base s) b.data key)
    (hfit : key.length + 1 + value.length + 1 ≤ b.size) :
    ∃ s', copyValue B b.data value s = some s' ∧ Inv s' ∧
      FileHolds B s' bs (⟨b.data, b.size, key, cut value⟩ :: rs) := by
  have hin := h.inside b hb
  have hread : string B s b.data = some key := cString_eq_some.2 ⟨hat, by omega⟩
  obtain ⟨hi', h', hm⟩ := h.write hB hi hb hrs (a := b.data + key.length + 1)
    (strncpyBytes value (value.length + 1)) (by omega) (by rw [length_strncpyBytes]; omega)
  refine ⟨_, by simp only [ConcurrentHashTable.copyValue, hread]; rfl, hi', h'.used, h'.apart, h'.inside, ?_, ?_⟩
  · intro r hr
    rcases List.mem_cons.1 hr with rfl | hr
    · exact hb
    · exact h'.block r hr
  · intro r hr
    rcases List.mem_cons.1 hr with rfl | hr
    · have hcut := length_cut_le value
      refine ⟨?_, ?_, by simp only; omega⟩
      · apply hat.congr
        intro x h₁ h₂
        rw [hm]
        apply setBytes_outside
        omega
      · rw [hm, strncpyBytes_succ]
        exact stringAt_setBytes _ _ (zero_notMem_cut value)
    · exact h'.stored r hr

/-- No block lies where another one is, so the records behind other used blocks have different addresses. -/
theorem FileHolds.nodup_data {l : List Payload} (h : FileHolds B s (l ++ rs.map Record.block) rs) :
    (rs.map Record.data).Nodup := by
  have hsize : ∀ r ∈ rs, 2 ≤ r.size := fun r hr => (h.stored r hr).two_le
  have hap := List.pairwise_map.1 (List.pairwise_append.1 h.apart).2.1
  rw [List.Nodup, List.pairwise_map]
  apply hap.imp_of_mem
  intro a b ha hb hab
  have h₁ := hsize a ha
  have h₂ := hsize b hb
  simp only [Payload.Apart, Record.block] at hab
  omega

/-- Those other blocks are not the blocks of the records. -/
theorem FileHolds.block_notMem {l : List Payload} (h : FileHolds B s (l ++ rs.map Record.block) rs) {r : Record}
    (hr : r ∈ rs) : r.block ∉ l := by
  intro hl
  have hap := (List.pairwise_append.1 h.apart).2.2 _ hl _ (List.mem_map_of_mem hr)
  have hsize := (h.stored r hr).two_le
  simp only [Payload.Apart, Record.block] at hap
  omega

private theorem map_block_erase {r : Record} (h : ∀ r' ∈ rs, r'.block = r.block → r' = r) :
    (rs.map Record.block).erase r.block = (rs.erase r).map Record.block := by
  induction rs with
  | nil => rfl
  | cons a rs ih =>
    have ih := ih fun r' hr' => h r' (List.mem_cons_of_mem _ hr')
    by_cases ha : a = r
    · simp [ha]
    · have hb : a.block ≠ r.block := fun e => ha (h a (List.mem_cons_self ..) e)
      rw [List.map_cons, List.erase_cons_tail (by simpa using hb), List.erase_cons_tail (by simpa using ha), ih,
        List.map_cons]

/-- Freeing the block of a record. -/
theorem FileHolds.free_record {l : List Payload} (hB : B.Lawful Inv) (hi : Inv s)
    (h : FileHolds B s (l ++ rs.map Record.block) rs) {r : Record} (hr : r ∈ rs) :
    Inv (B.free r.data s) ∧ FileHolds B (B.free r.data s) (l ++ (rs.erase r).map Record.block) (rs.erase r) ∧
      SameBytes l (B.base s) (B.base (B.free r.data s)) := by
  have hrs : rs.Nodup := List.Nodup.of_map _ h.nodup_data
  have hne : ∀ r' ∈ rs.erase r, r'.block ≠ r.block := by
    intro r' hr' e
    obtain ⟨hne, hmem⟩ := hrs.mem_erase_iff.1 hr'
    exact hne (h.eq_of_data hmem hr (congrArg Payload.data e))
  have herase : (l ++ rs.map Record.block).erase r.block = l ++ (rs.erase r).map Record.block := by
    rw [List.erase_append_right _ (h.block_notMem hr),
      map_block_erase fun r' hr' e => h.eq_of_data hr' hr (congrArg Payload.data e)]
  obtain ⟨hi', hf⟩ := (h.sublist fun _ => List.mem_of_mem_erase).free hB hi (b := r.block) (h.block r hr) hne
  obtain ⟨-, -, hm⟩ := hB.free_used (b := r.block) hi (h.used ▸ h.block r hr)
  rw [herase] at hf
  rw [h.used, herase] at hm
  exact ⟨hi', hf, fun b hb => hm b (List.mem_append_left _ hb)⟩

/-- The same, when there is no other used block. -/
theorem FileHolds.free_only (hB : B.Lawful Inv) (hi : Inv s) (h : FileHolds B s (rs.map Record.block) rs) {r : Record}
    (hr : r ∈ rs) :
    Inv (B.free r.data s) ∧ FileHolds B (B.free r.data s) ((rs.erase r).map Record.block) (rs.erase r) :=
  have hfree : FileHolds B s ([] ++ rs.map Record.block) rs := h
  let ⟨hi', h', _⟩ := hfree.free_record hB hi hr
  ⟨hi', h'⟩

end KeyValueStore
