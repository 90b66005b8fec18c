import KeyValueStore.FileBackedBuffer
import Mathlib.Data.Set.Basic

/-!
# Execution on a set of block headers

The routines of the buffer read and write only header words.  `D` is a set of block offsets whose headers lie inside
the file and do not overlap (`Headers`); `F` gives the value of every header word.  `Exec D db F x a ws` says that from
every file whose words on `D` are those of `F`, the computation `x` returns `a` having made exactly the stores `ws`.
A computation is executed step by step with the lemmas `exec_load_bind`, `exec_store_bind`, …, and the words after
the stores `ws` are `F.after ws`.
-/

namespace KeyValueStore

open ByteMemory

/-- The field is a list head, or belongs to the header of a block of `D`. -/
def Field.On (D : Set Nat) : Field → Prop
  | nextFreeBlockOffset => True
  | nextUsedBlockOffset => True
  | prevBlockOffset b => b ∈ D
  | nextBlockOffset b => b ∈ D
  | dataSize b => b ∈ D

/-- The values of the header words. -/
abbrev Words := Field → Nat

/-- The words after a sequence of stores. -/
def Words.after (F : Words) (ws : List (Field × Nat)) : Words :=
  ws.foldl (fun F w => Function.update F w.1 w.2) F

@[simp] theorem Words.after_nil (F : Words) : F.after [] = F := rfl

@[simp] theorem Words.after_cons (F : Words) (w : Field × Nat) (ws : List (Field × Nat)) :
    F.after (w :: ws) = Words.after (Function.update F w.1 w.2) ws := rfl

theorem Words.after_append (F : Words) (ws ws' : List (Field × Nat)) :
    F.after (ws ++ ws') = (F.after ws).after ws' := by
  unfold Words.after; exact List.foldl_append

/-- A word that is not stored to keeps its value. -/
theorem Words.after_of_forall_ne (F : Words) {ws : List (Field × Nat)} {f : Field} (h : ∀ w ∈ ws, w.1 ≠ f) :
    F.after ws f = F f := by
  induction ws generalizing F with
  | nil => rfl
  | cons w ws ih =>
    rw [Words.after_cons, ih _ (fun w hw => h w (List.mem_cons_of_mem _ hw)),
      Function.update_of_ne (Ne.symm (h w (List.mem_cons_self ..)))]

/-- The stores act on each word alone. -/
theorem Words.after_congr {F G : Words} {f : Field} (h : F f = G f) (ws : List (Field × Nat)) :
    F.after ws f = G.after ws f := by
  induction ws generalizing F G with
  | nil => exact h
  | cons w ws ih =>
    rw [Words.after_cons, Words.after_cons]
    apply ih
    by_cases hf : f = w.1
    · rw [hf, Function.update_self, Function.update_self]
    · rw [Function.update_of_ne hf, Function.update_of_ne hf, h]

/-- The headers of `D` lie inside the file and do not overlap; the words on them are 64-bit words. -/
structure Headers (D : Set Nat) (db : Nat) (F : Words) : Prop where
  small : db < 2 ^ 31
  header : 16 ≤ db
  inside : ∀ b ∈ D, 16 ≤ b ∧ b + 24 ≤ db
  apart : ∀ b ∈ D, ∀ c ∈ D, b = c ∨ b + 24 ≤ c ∨ c + 24 ≤ b
  bounded : ∀ f, f.On D → F f < 2 ^ 64

/-- The stores go to words of `D` and store 64-bit words. -/
def StoresOn (D : Set Nat) (ws : List (Field × Nat)) : Prop := ∀ w ∈ ws, w.1.On D ∧ w.2 < 2 ^ 64

/-- The words of the file on `D` are those of `F`. -/
def Agrees (D : Set Nat) (F : Words) (s : FileBackedBuffer) : Prop := ∀ f, f.On D → s.field f = F f

theorem Headers.ne_null {D : Set Nat} {db : Nat} {F : Words} (h : Headers D db F) {b : Nat} (hb : b ∈ D) :
    b ≠ nullOffset := by
  have := (h.inside b hb).1
  unfold nullOffset; omega

theorem Headers.address_le {D : Set Nat} {db : Nat} {F : Words} (h : Headers D db F) {f : Field} (hf : f.On D) :
    f.address + 8 ≤ db := by
  have := h.header
  cases f with
  | nextFreeBlockOffset => simp only [Field.address]; omega
  | nextUsedBlockOffset => simp only [Field.address]; omega
  | prevBlockOffset b => have := h.inside b hf; simp only [Field.address]; omega
  | nextBlockOffset b => have := h.inside b hf; simp only [Field.address]; omega
  | dataSize b => have := h.inside b hf; simp only [Field.address]; omega

/-- Two different words on `D` do not overlap. -/
theorem Headers.address_apart {D : Set Nat} {db : Nat} {F : Words} (h : Headers D db F) {f g : Field}
    (hf : f.On D) (hg : g.On D) (hne : f ≠ g) : f.address + 8 ≤ g.address ∨ g.address + 8 ≤ f.address := by
  cases f <;> cases g <;> simp only [Field.address, ne_eq, not_true, reduceCtorEq, not_false_eq_true,
    Field.prevBlockOffset.injEq, Field.nextBlockOffset.injEq, Field.dataSize.injEq, Field.On] at hf hg hne ⊢
  all_goals first
    | omega
    | (have hb := h.inside _ hf; omega)
    | (have hb := h.inside _ hg; omega)
    | (rcases h.apart _ hf _ hg with e | e | e <;> omega)

theorem Headers.update {D : Set Nat} {db : Nat} {F : Words} (h : Headers D db F) {f : Field} {v : Nat}
    (hv : v < 2 ^ 64) : Headers D db (Function.update F f v) := by
  refine ⟨h.small, h.header, h.inside, h.apart, fun g hg => ?_⟩
  by_cases hgf : g = f
  · rw [hgf, Function.update_self]; exact hv
  · rw [Function.update_of_ne hgf]; exact h.bounded g hg

theorem Headers.after {D : Set Nat} {db : Nat} {F : Words} (h : Headers D db F) {ws : List (Field × Nat)}
    (hws : StoresOn D ws) : Headers D db (F.after ws) := by
  induction ws generalizing F with
  | nil => exact h
  | cons w ws ih =>
    exact ih (h.update (hws w (List.mem_cons_self ..)).2) (fun w hw => hws w (List.mem_cons_of_mem _ hw))

theorem FileBackedBuffer.after_append (s : FileBackedBuffer) (ws ws' : List (Field × Nat)) :
    s.after (ws ++ ws') = (s.after ws).after ws' := by
  simp [FileBackedBuffer.after, applyStores, List.foldl_append]

@[simp] theorem FileBackedBuffer.after_nil (s : FileBackedBuffer) : s.after [] = s := by
  simp [FileBackedBuffer.after, applyStores]

@[simp] theorem FileBackedBuffer.dbSize_after (s : FileBackedBuffer) (ws : List (Field × Nat)) :
    (s.after ws).dbSize = s.dbSize := rfl

private theorem agrees_store {D : Set Nat} {db : Nat} {F : Words} (h : Headers D db F) {s : FileBackedBuffer}
    (hs : Agrees D F s) {f : Field} {v : Nat} (hf : f.On D) (hv : v < 2 ^ 64) :
    Agrees D (Function.update F f v) (s.after [(f, v)]) := by
  intro g hg
  show word (setWord s.base f.address v) g.address = _
  by_cases hgf : g = f
  · subst hgf
    rw [Function.update_self, word_setWord_same _ _ hv]
  · rw [Function.update_of_ne hgf, word_setWord_apart _ _ (h.address_apart hg hf hgf)]
    exact hs g hg

/-- Words agree after the same stores. -/
theorem Agrees.after {D : Set Nat} {db : Nat} {F : Words} (h : Headers D db F) {s : FileBackedBuffer}
    (hs : Agrees D F s) {ws : List (Field × Nat)} (hws : StoresOn D ws) : Agrees D (F.after ws) (s.after ws) := by
  induction ws generalizing F s with
  | nil => simpa using hs
  | cons w ws ih =>
    have hw := hws w (List.mem_cons_self ..)
    have hws₁ : StoresOn D [w] := fun x hx => by rw [List.mem_singleton.1 hx]; exact hw
    rw [show w :: ws = [w] ++ ws from rfl, FileBackedBuffer.after_append, Words.after_append]
    exact ih (h.after hws₁) (agrees_store h hs hw.1 hw.2) (fun x hx => hws x (List.mem_cons_of_mem _ hx))

/-- From every file with the words `F` on `D`, the computation `x` returns `a` and makes the stores `ws`. -/
structure Exec {α : Type} (D : Set Nat) (db : Nat) (F : Words) (x : BufferM α) (a : α) (ws : List (Field × Nat)) :
    Prop where
  stores : StoresOn D ws
  run : ∀ s : FileBackedBuffer, s.dbSize = db → Agrees D F s → x s = some (a, s.after ws)

section

variable {α β : Type} {D : Set Nat} {db : Nat} {F : Words}

theorem exec_pure (a : α) : Exec D db F (pure a) a [] :=
  ⟨fun _ hw => (List.not_mem_nil hw).elim, fun s _ _ => by rw [FileBackedBuffer.after_nil]; rfl⟩

theorem exec_bind (h : Headers D db F) {x : BufferM α} {a : α} {ws : List (Field × Nat)} {k : α → BufferM β} {b : β}
    {ws' : List (Field × Nat)} (hx : Exec D db F x a ws) (hk : Exec D db (F.after ws) (k a) b ws') :
    Exec D db F (x >>= k) b (ws ++ ws') := by
  refine ⟨fun w hw => (List.mem_append.1 hw).elim (hx.stores w) (hk.stores w), fun s hs hF => ?_⟩
  have h₁ : x s = some (a, s.after ws) := hx.run s hs hF
  have h₂ : k a (s.after ws) = some (b, (s.after ws).after ws') := hk.run _ hs (hF.after h hx.stores)
  rw [FileBackedBuffer.after_append, ← h₂]
  show (x s).bind _ = _
  rw [h₁]; rfl

/-- A computation that stores nothing. -/
theorem exec_read_bind (h : Headers D db F) {x : BufferM α} {a : α} {k : α → BufferM β} {b : β}
    {ws : List (Field × Nat)} (hx : Exec D db F x a []) (hk : Exec D db F (k a) b ws) :
    Exec D db F (x >>= k) b ws :=
  exec_bind h hx hk

theorem exec_bind_pure (h : Headers D db F) {x : BufferM Unit} {ws : List (Field × Nat)}
    (hx : Exec D db F x () ws) (a : α) : Exec D db F (x >>= fun _ => pure a) a ws := by
  have := exec_bind (k := fun _ => pure a) h hx (exec_pure a)
  rwa [List.append_nil] at this

theorem exec_load_bind (h : Headers D db F) {f : Field} (hf : f.On D) {k : Nat → BufferM β} {b : β}
    {ws : List (Field × Nat)} (hk : Exec D db F (k (F f)) b ws) : Exec D db F (load f >>= k) b ws := by
  refine ⟨hk.stores, fun s hs hF => ?_⟩
  rw [← hk.run s hs hF]
  show (load f s).bind _ = _
  rw [load, if_pos (by rw [hs]; exact h.address_le hf), hF f hf]; rfl

theorem exec_store_bind (h : Headers D db F) {f : Field} {v : Nat} (hf : f.On D) (hv : v < 2 ^ 64)
    {k : Unit → BufferM β} {b : β} {ws : List (Field × Nat)}
    (hk : Exec D db (Function.update F f v) (k ()) b ws) : Exec D db F (store f v >>= k) b ((f, v) :: ws) := by
  have hw : StoresOn D [(f, v)] := fun w hw => by rw [List.mem_singleton.1 hw]; exact ⟨hf, hv⟩
  have hx : Exec D db F (store f v) () [(f, v)] :=
    ⟨hw, fun s hs _ => by rw [store, if_pos (by rw [hs]; exact h.address_le hf)]⟩
  exact exec_bind h hx hk

theorem exec_store (h : Headers D db F) {f : Field} {v : Nat} (hf : f.On D) (hv : v < 2 ^ 64) :
    Exec D db F (store f v) () [(f, v)] := by
  have := exec_store_bind h hf hv (k := pure) (exec_pure ())
  rwa [bind_pure] at this

theorem exec_get_bind (h : Headers D db F) {k : FileBackedBuffer → BufferM β} {b : β} {ws : List (Field × Nat)}
    (hk : ∀ s : FileBackedBuffer, s.dbSize = db → Exec D db F (k s) b ws) : Exec D db F (get >>= k) b ws := by
  refine ⟨(hk ⟨db, h.small, fun _ => 0, []⟩ rfl).stores, fun s hs hF => ?_⟩
  rw [← (hk s hs).run s hs hF]; rfl

theorem exec_assert_bind {c : Bool} (hc : c = true) {k : Unit → BufferM β} {b : β} {ws : List (Field × Nat)}
    (hk : Exec D db F (k ()) b ws) : Exec D db F (assert c >>= k) b ws := by
  refine ⟨hk.stores, fun s hs hF => ?_⟩
  rw [← hk.run s hs hF]
  show (assert c s).bind _ = _
  rw [assert, if_pos hc]; rfl

end

end KeyValueStore
