import KeyValueStore.Client

/-!
# The edits of the lists, killed in the middle

A file left behind by a kill after some of the stores of a call is `CrashConsistent` when its two lists are still doubly
linked lists of blocks that lie inside the file and share no byte; a block may be on no list.

A call is a sequence of edits: a block is unlinked from a list, linked into the free list or pushed on the used list, and
between these single words are stored.  An edit of a list has a wrong back link behind some of its stores if a block
follows the removed or the inserted one (`Edit.BadAt`).  `Judges` ties the stores of a call to its edits: the words hold a
sound layout behind exactly those prefixes that `SafeAt` names.
-/

namespace KeyValueStore

open ByteMemory DoublyLinked

/-- The lists read from the file are consistent. -/
def CrashConsistent (m : Mem) (db : Nat) : Prop :=
  ∃ L : Layout, L.Holds (fun f => word m f.address) ∧ L.Sound db

inductive Call where
  | alloc (n : Nat)
  | free (p : Nat)

/-- The file after a kill behind `k` of the stores of the call. -/
def Call.killedAfter (s : FileBackedBuffer) (k : Nat) : Call → Option Mem
  | .alloc n => KeyValueStore.killedAfter (KeyValueStore.alloc n) s k
  | .free p => KeyValueStore.killedAfter (KeyValueStore.free p) s k

/-- The steps of a call on the lists; `successor` tells whether a block follows the removed or the inserted one. -/
inductive Edit where
  | unlink (successor : Bool)
  | link (successor : Bool)
  | push (successor : Bool)
  | single
  deriving DecidableEq, Repr

/-- The number of stores. -/
def Edit.length : Edit → Nat
  | unlink successor => 3 + successor.toNat
  | link successor => 3 + successor.toNat
  | push successor => 3 + successor.toNat
  | single => 1

/-- Behind `j` of the stores the block that follows has a wrong back link. -/
def Edit.BadAt : Edit → Nat → Prop
  | unlink true, j => j = 1
  | link true, j => j = 3
  | push true, j => 1 ≤ j ∧ j ≤ 3
  | _, _ => False

/-- Behind `k` of the stores of the edits no edit is at a bad place. -/
def SafeAt : List Edit → Nat → Prop
  | [], _ => True
  | e :: es, k => ¬ e.BadAt k ∧ SafeAt es (k - e.length)

instance (e : Edit) (j : Nat) : Decidable (e.BadAt j) := by
  unfold Edit.BadAt
  split <;> infer_instance

instance decidableSafeAt : ∀ (es : List Edit) (k : Nat), Decidable (SafeAt es k)
  | [], _ => isTrue trivial
  | e :: es, k => @instDecidableAnd _ _ _ (decidableSafeAt es (k - e.length))

theorem Edit.BadAt.pos_lt {e : Edit} {j : Nat} (h : e.BadAt j) : 0 < j ∧ j < e.length := by
  cases e with
  | unlink successor => cases successor <;> simp_all [Edit.BadAt, Edit.length]
  | link successor => cases successor <;> simp_all [Edit.BadAt, Edit.length]
  | push successor =>
    cases successor with
    | false => exact h.elim
    | true => simp only [Edit.BadAt, Edit.length, Bool.toNat_true] at *; omega
  | single => exact h.elim

private theorem safeAt_zero (es : List Edit) : SafeAt es 0 := by
  induction es with
  | nil => trivial
  | cons e es ih => exact ⟨fun h => Nat.lt_irrefl 0 h.pos_lt.1, by rwa [Nat.zero_sub]⟩

private theorem safeAt_singleton {e : Edit} {k : Nat} : SafeAt [e] k ↔ ¬ e.BadAt k := by
  simp [SafeAt]

/-- The number of stores of a sequence of edits. -/
def stores (es : List Edit) : Nat := (es.map Edit.length).sum

private theorem safeAt_of_stores_le {es : List Edit} {k : Nat} (h : stores es ≤ k) : SafeAt es k := by
  induction es generalizing k with
  | nil => trivial
  | cons e es ih =>
    simp only [stores, List.map_cons, List.sum_cons] at h
    exact ⟨fun hb => by have := hb.pos_lt.2; omega, ih (by unfold stores; omega)⟩

private theorem safeAt_append {es es' : List Edit} {k : Nat} :
    SafeAt (es ++ es') k ↔ SafeAt es k ∧ SafeAt es' (k - stores es) := by
  induction es generalizing k with
  | nil => simp [SafeAt, stores]
  | cons e es ih =>
    have hk : k - e.length - stores es = k - stores (e :: es) := by
      simp only [stores, List.map_cons, List.sum_cons]; omega
    rw [List.cons_append, SafeAt, SafeAt, ih, hk, and_assoc]

/-! ### Words between two stores -/

/-- The words hold the sound layout, of blocks of `D`. -/
structure Layout.Stands (D : Set Nat) (db : Nat) (F : Words) (L : Layout) : Prop where
  holds : L.Holds F
  sound : L.Sound db
  mem : ∀ b ∈ L.blocks, b.offset ∈ D

def Consistent (D : Set Nat) (db : Nat) (F : Words) : Prop := ∃ L : Layout, L.Stands D db F

/-- No words that agree with `F` on `D` hold a sound layout. -/
def Inconsistent (D : Set Nat) (db : Nat) (F : Words) : Prop :=
  ∀ G : Words, (∀ f : Field, f.On D → G f = F f) → ∀ L' : Layout, L'.Sound db → ¬ L'.Holds G

/-- The words are consistent if `good` holds, and inconsistent otherwise. -/
structure Judged (D : Set Nat) (db : Nat) (F : Words) (good : Prop) : Prop where
  consistent : good → Consistent D db F
  inconsistent : ¬ good → Inconsistent D db F

/-- Each prefix of the stores is judged by the edits that they make. -/
structure Judges (D : Set Nat) (db : Nat) (F : Words) (ws : List (Field × Nat)) (es : List Edit) : Prop where
  length : ws.length = stores es
  judged : ∀ k < ws.length, Judged D db (F.after (ws.take k)) (SafeAt es k)

section

variable {D : Set Nat} {db : Nat} {F : Words} {L L' : Layout} {ws ws' : List (Field × Nat)} {es es' : List Edit}

theorem Layout.Stands.judged {good : Prop} (h : L.Stands D db F) (hg : good) : Judged D db F good :=
  ⟨fun _ => ⟨L, h⟩, fun hn => (hn hg).elim⟩

theorem Inconsistent.judged {good : Prop} (h : Inconsistent D db F) (hg : ¬ good) : Judged D db F good :=
  ⟨fun hg' => (hg hg').elim, fun _ => h⟩

private theorem judges_nil : Judges D db F [] [] := ⟨rfl, fun _ hk => (Nat.not_lt_zero _ hk).elim⟩

theorem Judges.append (h : Judges D db F ws es) (h' : Judges D db (F.after ws) ws' es') :
    Judges D db F (ws ++ ws') (es ++ es') := by
  have hlen := h.length
  refine ⟨?_, fun k hk => ?_⟩
  · rw [List.length_append, h.length, h'.length, stores, stores, stores, List.map_append, List.sum_append]
  · rw [List.take_append]
    rcases Nat.lt_or_ge k ws.length with hlt | hge
    · have hsafe : SafeAt (es ++ es') k ↔ SafeAt es k := by
        rw [safeAt_append, Nat.sub_eq_zero_of_le (by omega)]
        exact and_iff_left (safeAt_zero es')
      rw [Nat.sub_eq_zero_of_le (Nat.le_of_lt hlt), List.take_zero, List.append_nil]
      have := h.judged k hlt
      exact ⟨fun hg => this.consistent (hsafe.1 hg), fun hg => this.inconsistent fun hg' => hg (hsafe.2 hg')⟩
    · have hsafe : SafeAt (es ++ es') k ↔ SafeAt es' (k - ws.length) := by
        rw [safeAt_append, hlen]
        exact and_iff_right (safeAt_of_stores_le (by omega))
      rw [List.take_of_length_le hge, Words.after_append]
      rw [List.length_append] at hk
      have := h'.judged (k - ws.length) (by omega)
      exact ⟨fun hg => this.consistent (hsafe.1 hg), fun hg => this.inconsistent fun hg' => hg (hsafe.2 hg')⟩

/-- The prefixes of the stores of a call, the last one included. -/
theorem Judges.of_take (h : Judges D db F ws es) (hlast : Consistent D db (F.after ws)) (k : Nat) :
    Judged D db (F.after (ws.take k)) (SafeAt es k) := by
  rcases Nat.lt_or_ge k ws.length with hlt | hge
  · exact h.judged k hlt
  · obtain ⟨L, hL⟩ := hlast
    rw [List.take_of_length_le hge]
    exact hL.judged (safeAt_of_stores_le (by rw [← h.length]; exact hge))

/-- Stores to headers of blocks on no list change no list. -/
private theorem Layout.Holds.after_leaked (h : L.Holds F) (hws : ∀ w ∈ ws, ¬ w.1.On {x | x ∈ offsets L.blocks}) :
    L.Holds (F.after ws) := by
  have hmem : ∀ b ∈ L.blocks, b.offset ∈ {x | x ∈ offsets L.blocks} := fun b hb => List.mem_map_of_mem hb
  refine h.congr hmem fun f hf => Words.after_of_forall_ne F fun w hw e => ?_
  rw [← e] at hf
  exact hws w hw hf

private theorem Layout.Holds.of_after_leaked (h : L.Holds (F.after ws))
    (hws : ∀ w ∈ ws, ¬ w.1.On {x | x ∈ offsets L.blocks}) :
    L.Holds F := by
  have hmem : ∀ b ∈ L.blocks, b.offset ∈ {x | x ∈ offsets L.blocks} := fun b hb => List.mem_map_of_mem hb
  apply h.congr hmem
  intro f hf
  refine (Words.after_of_forall_ne F fun w hw e => ?_).symm
  rw [← e] at hf
  exact hws w hw hf

theorem Layout.Stands.leaked (h : L.Stands D db F) (hws : ∀ w ∈ ws, ¬ w.1.On {x | x ∈ offsets L.blocks}) :
    L.Stands D db (F.after ws) :=
  ⟨h.holds.after_leaked hws, h.sound, h.mem⟩

/-- Before the last stores, to a block on no list, the layout is already the one that is left. -/
private theorem Layout.Stands.of_leaked (h : L.Stands D db (F.after (ws ++ ws')))
    (hws : ∀ w ∈ ws', ¬ w.1.On {x | x ∈ offsets L.blocks}) : L.Stands D db (F.after ws) :=
  ⟨Layout.Holds.of_after_leaked (by rw [← Words.after_append]; exact h.holds) hws, h.sound, h.mem⟩

theorem Layout.Stands.sublist (h : L.Stands D db F) {G : Words} (hL' : L'.Holds G) (hf : L'.free.Sublist L.free)
    (hu : L'.used.Sublist L.used) : L'.Stands D db G :=
  ⟨hL', h.sound.sublist hf hu, fun b hb => h.mem b ((hf.append hu).subset hb)⟩

/-! ### One edit -/

/-- The back link of a node reached from the head is the node passed before it. -/
theorem IsList.prev_of_walk {G : Words} {listHead : Field} {l u : List Nat} {p y : Nat} {prev : Nat → Nat}
    (h : IsList G listHead l) (hu : Seg prev (fun b => G (.nextBlockOffset b)) p u y)
    (hh : G listHead = u.headD y) (h₀ : nullOffset ∉ u) (hy : y ≠ nullOffset) :
    G (.prevBlockOffset y) = u.getLastD nullOffset :=
  h.seg.prev_of_walk hu (h.head.symm.trans hh) h₀ hy

private theorem not_holds_of_prev {G : Words} {c h : Nat} (hhead : G .nextUsedBlockOffset = h)
    (hprev : G (.prevBlockOffset h) = c) (hc : c ≠ nullOffset) (hh : h ≠ nullOffset) {L' : Layout} : ¬ L'.Holds G := by
  intro hL'
  have := hL'.used.prev_head (by rw [hhead]; exact hh)
  rw [hhead, hprev] at this
  exact hc this

/-- After the first store of a removal the block behind still has the removed one for predecessor. -/
private theorem not_isList_unlink {listHead : Field} {l₁ l₂ : List Nat} {b h : Nat} (hh : listHead.IsHead)
    (hlist : IsList F listHead (l₁ ++ b :: h :: l₂)) (hl : (l₁ ++ b :: h :: l₂).Nodup)
    (h₀ : nullOffset ∉ l₁ ++ b :: h :: l₂) (hD : ∀ x ∈ l₁ ++ b :: h :: l₂, x ∈ D)
    (hG : ∀ f : Field, f.On D → G f = F.after ((unlinkStores listHead l₁ b (h :: l₂)).take 1) f) {l : List Nat} :
    ¬ IsList G listHead l := by
  intro hl'
  have hfirst : (unlinkStores listHead l₁ b (h :: l₂)).take 1 =
      [(if l₁ = [] then listHead else .nextBlockOffset (l₁.getLastD nullOffset), h)] := rfl
  rw [hfirst] at hG
  have hb : b ∉ l₁ := fun hm => (List.nodup_cons.1 (List.nodup_middle.1 hl)).1 (List.mem_append_left _ hm)
  have h₀₁ : nullOffset ∉ l₁ := fun hm => h₀ (List.mem_append_left _ hm)
  have hseg := (seg_append.1 hlist.seg).1
  have hprev : G (.prevBlockOffset h) = b := by
    have hprevF : F (.prevBlockOffset h) = b := (seg_append.1 hlist.seg).2.2.2.1
    rw [hG (.prevBlockOffset h) (hD h (by simp)), Words.after_cons, Words.after_nil,
      Function.update_of_ne (by rcases hh with rfl | rfl <;> split <;> simp), hprevF]
  have hhead : G listHead = l₁.headD h := by
    rw [hG listHead (hh.on D), Words.after_cons, Words.after_nil]
    by_cases he : l₁ = []
    · simp [he]
    · rw [if_neg he, Function.update_of_ne (by rcases hh with rfl | rfl <;> simp), hlist.head, headD_append]
      cases l₁ with
      | nil => exact absurd rfl he
      | cons => rfl
  have hwalk : Seg (fun x => F (.prevBlockOffset x)) (fun x => G (.nextBlockOffset x)) nullOffset l₁ h := by
    refine hseg.retie_right (List.nodup_append.1 hl).1 (fun _ _ => rfl) (fun y hy hne => ?_) (fun he => ?_)
    · rw [hG (.nextBlockOffset y) (hD y (List.mem_append_left _ hy)), Words.after_cons, Words.after_nil,
        if_neg (List.ne_nil_of_mem hy), Function.update_of_ne (fun e => hne (Field.nextBlockOffset.inj e))]
    · rw [hG (.nextBlockOffset _) (hD _ (List.mem_append_left _ (getLastD_mem he _))), Words.after_cons,
        Words.after_nil, if_neg he, Function.update_self]
  have hy : h ≠ nullOffset := fun e => h₀ (e ▸ by simp)
  have hlast := hprev.symm.trans (hl'.prev_of_walk hwalk hhead h₀₁ hy)
  by_cases he : l₁ = []
  · subst he
    exact h₀ (hlast ▸ by simp)
  · exact hb (hlast ▸ getLastD_mem he _)

/-- After the third store of an insertion into the free list the block behind still has the old predecessor. -/
private theorem not_isList_link {l₁ l₂ : List Nat} {b h : Nat}
    (hlist : IsList F .nextFreeBlockOffset (l₁ ++ h :: l₂)) (hl : (l₁ ++ b :: h :: l₂).Nodup)
    (h₀ : nullOffset ∉ l₁ ++ b :: h :: l₂) (hD : ∀ x ∈ l₁ ++ b :: h :: l₂, x ∈ D)
    (hG : ∀ f : Field, f.On D → G f = F.after ((linkStores l₁ b (h :: l₂)).take 3) f) {l : List Nat} :
    ¬ IsList G .nextFreeBlockOffset l := by
  intro hl'
  have hfirst : (linkStores l₁ b (h :: l₂)).take 3 = [(.prevBlockOffset b, l₁.getLastD nullOffset),
      (.nextBlockOffset b, h), (if l₁ = [] then .nextFreeBlockOffset else .nextBlockOffset (l₁.getLastD nullOffset), b)] :=
    rfl
  rw [hfirst] at hG
  have hmid := List.nodup_cons.1 (List.nodup_middle.1 hl)
  have hb : b ∉ l₁ := fun hm => hmid.1 (List.mem_append_left _ hm)
  have hbh : h ≠ b := fun e => hmid.1 (e ▸ by simp)
  have hseg := (seg_append.1 hlist.seg).1
  have hlastb : l₁ ≠ [] → l₁.getLastD nullOffset ≠ b := fun e e' => hb (e' ▸ getLastD_mem e _)
  -- `h` still names its old predecessor, and the walk from the head comes to it through `b`
  have hprev : G (.prevBlockOffset h) = l₁.getLastD nullOffset := by
    have hprevF : F (.prevBlockOffset h) = l₁.getLastD nullOffset := (seg_append.1 hlist.seg).2.1
    rw [hG (.prevBlockOffset h) (hD h (by simp)), Words.after_cons, Words.after_cons, Words.after_cons,
      Words.after_nil, Function.update_of_ne (by split <;> simp), Function.update_of_ne (by simp),
      Function.update_of_ne (by simpa using hbh), hprevF]
  have hbn : G (.nextBlockOffset b) = h := by
    rw [hG (.nextBlockOffset b) (hD b (by simp)), Words.after_cons, Words.after_cons, Words.after_cons,
      Words.after_nil]
    by_cases he : l₁ = []
    · simp [he]
    · rw [if_neg he, Function.update_of_ne (by simpa using Ne.symm (hlastb he)), Function.update_self]
  have hhead : G .nextFreeBlockOffset = (l₁ ++ [b]).headD h := by
    rw [hG .nextFreeBlockOffset trivial, Words.after_cons, Words.after_cons, Words.after_cons, Words.after_nil]
    by_cases he : l₁ = []
    · simp [he]
    · rw [if_neg he, Function.update_of_ne (by simp), Function.update_of_ne (by simp),
        Function.update_of_ne (by simp), hlist.head, headD_append, headD_append]
      cases l₁ with
      | nil => exact absurd rfl he
      | cons => rfl
  have hnext : ∀ y ∈ l₁, y ≠ l₁.getLastD nullOffset → G (.nextBlockOffset y) = F (.nextBlockOffset y) := by
    intro y hy hne
    have hyb : y ≠ b := fun e => hb (e ▸ hy)
    rw [hG (.nextBlockOffset y) (hD y (List.mem_append_left _ hy)), Words.after_cons, Words.after_cons,
      Words.after_cons, Words.after_nil, if_neg (List.ne_nil_of_mem hy),
      Function.update_of_ne (fun e => hne (Field.nextBlockOffset.inj e)),
      Function.update_of_ne (by simpa using hyb), Function.update_of_ne (by simp)]
  have hwalk₁ : Seg (fun x => F (.prevBlockOffset x)) (fun x => G (.nextBlockOffset x)) nullOffset l₁ b := by
    refine hseg.retie_right (List.nodup_append.1 hl).1 (fun _ _ => rfl) hnext (fun he => ?_)
    rw [hG (.nextBlockOffset _) (hD _ (List.mem_append_left _ (getLastD_mem he _))), Words.after_cons,
      Words.after_cons, Words.after_cons, Words.after_nil, if_neg he, Function.update_self]
  let prev := Function.update (fun x => F (.prevBlockOffset x)) b (l₁.getLastD nullOffset)
  have hwalk : Seg prev (fun x => G (.nextBlockOffset x)) nullOffset (l₁ ++ [b]) h := by
    refine seg_append.2 ⟨hwalk₁.congr (fun x hx => ?_) (fun _ _ => rfl), ?_, hbn, trivial⟩
    · exact Function.update_of_ne (fun e : x = b => hb (e ▸ hx)) ..
    · exact Function.update_self ..
  have hnull : nullOffset ∉ l₁ ++ [b] := by
    intro hm
    apply h₀
    simp only [List.mem_append, List.mem_cons] at hm ⊢
    tauto
  -- in a list the two would be one
  have hlast := hprev.symm.trans (hl'.prev_of_walk hwalk hhead hnull (fun e => h₀ (e ▸ by simp)))
  rw [List.getLastD_concat] at hlast
  by_cases he : l₁ = []
  · subst he
    exact h₀ (by rw [show nullOffset = b from hlast]; simp)
  · exact hlastb he hlast

/-- Unlinking a block; behind the store to its predecessor the block that follows is at a wrong place. -/
private theorem judges_unlink {listHead : Field} {l₁ l₂ : List Nat} {b : Nat} (hh : listHead.IsHead)
    (hL : L.Stands D db F) (hlist : IsList F listHead (l₁ ++ b :: l₂)) (hl : (l₁ ++ b :: l₂).Nodup)
    (hmem : ∀ x ∈ l₁ ++ b :: l₂, x ∈ offsets L.blocks)
    (hL' : L'.Stands D db (F.after (unlinkStores listHead l₁ b l₂))) (hb : b ∉ offsets L'.blocks) :
    Judges D db F (unlinkStores listHead l₁ b l₂) [.unlink !l₂.isEmpty] := by
  have h₀ : nullOffset ∉ l₁ ++ b :: l₂ := fun hm => hL.sound.distinct.ne_null (hmem _ hm)
  have hD : ∀ x ∈ l₁ ++ b :: l₂, x ∈ D := fun x hx => by
    obtain ⟨c, hc, rfl⟩ := List.mem_map.1 (hmem x hx)
    exact hL.mem c hc
  -- the last stores go to the header of the block that is on no list any more
  have hleak : ∀ k, (∀ w ∈ (unlinkStores listHead l₁ b l₂).drop k,
      w.1 = .prevBlockOffset b ∨ w.1 = .nextBlockOffset b) →
      L'.Stands D db (F.after ((unlinkStores listHead l₁ b l₂).take k)) := by
    intro k hk
    have hall : L'.Stands D db (F.after ((unlinkStores listHead l₁ b l₂).take k ++ (unlinkStores listHead l₁ b l₂).drop k)) := by
      rwa [List.take_append_drop]
    refine hall.of_leaked fun w hw => ?_
    rcases hk w hw with e | e <;> rw [e] <;> exact hb
  cases l₂ with
  | nil =>
    refine ⟨rfl, fun k hk => ?_⟩
    have hgood : SafeAt [.unlink false] k := safeAt_singleton.2 id
    rcases k with _ | k
    · exact hL.judged hgood
    · refine (hleak (k + 1) fun w hw => ?_).judged hgood
      have hw' := List.mem_of_mem_drop (show w ∈ List.drop k [(Field.prevBlockOffset b, nullOffset),
        (.nextBlockOffset b, nullOffset)] from hw)
      simp only [List.mem_cons, List.not_mem_nil, or_false] at hw'
      rcases hw' with rfl | rfl <;> simp
  | cons h l₂ =>
    refine ⟨rfl, fun k hk => ?_⟩
    rcases k with _ | _ | k
    · exact hL.judged (safeAt_zero _)
    · refine Inconsistent.judged (fun G hG L'' _ hL'' => ?_) (fun hg => safeAt_singleton.1 hg rfl)
      rcases hh with rfl | rfl
      · exact not_isList_unlink (Or.inl rfl) hlist hl h₀ hD hG hL''.free
      · exact not_isList_unlink (Or.inr rfl) hlist hl h₀ hD hG hL''.used
    · refine (hleak (k + 2) fun w hw => ?_).judged (safeAt_singleton.2 fun hbad => ?_)
      · have hw' := List.mem_of_mem_drop (show w ∈ List.drop k [(Field.prevBlockOffset b, nullOffset),
          (.nextBlockOffset b, nullOffset)] from hw)
        simp only [List.mem_cons, List.not_mem_nil, or_false] at hw'
        rcases hw' with rfl | rfl <;> simp
      · exact absurd (show k + 2 = 1 from hbad) (by omega)

theorem judges_unlinkFree {l₁ l₂ u : List Block} {b : Block} (h : Layout.Stands D db F ⟨l₁ ++ b :: l₂, u⟩) :
    Judges D db F (unlinkStores .nextFreeBlockOffset (offsets l₁) b.offset (offsets l₂)) [.unlink !l₂.isEmpty] ∧
      Layout.Stands D db (F.after (unlinkStores .nextFreeBlockOffset (offsets l₁) b.offset (offsets l₂)))
        ⟨l₁ ++ l₂, u⟩ := by
  have hd := h.sound.distinct
  have hlist := h.holds.free
  have hnd := hd.nodup
  have hnf := hd.free_nodup
  simp only [Layout.blocks, offsets, List.append_assoc, List.cons_append, List.map_append, List.map_cons] at hlist hnd hnf
  have hs := h.sublist (h.holds.unlinkFree hd) (List.Sublist.append_left (List.sublist_cons_self b l₂) l₁)
    (List.Sublist.refl u)
  have hj := judges_unlink (Or.inl rfl) h hlist hnf (fun x hx => ?_) hs (fun hm => ?_)
  · rw [show (offsets l₂).isEmpty = l₂.isEmpty from List.isEmpty_map] at hj
    exact ⟨hj, hs⟩
  · simp only [offsets, Layout.blocks, List.map_append, List.map_cons, List.mem_append, List.mem_cons] at hx ⊢
    tauto
  · simp only [offsets, Layout.blocks, List.append_assoc, List.map_append] at hm
    exact (List.nodup_cons.1 (List.nodup_middle.1 hnd)).1 hm

theorem judges_unlinkUsed {l u₁ u₂ : List Block} {b : Block} (h : Layout.Stands D db F ⟨l, u₁ ++ b :: u₂⟩) :
    Judges D db F (unlinkStores .nextUsedBlockOffset (offsets u₁) b.offset (offsets u₂)) [.unlink !u₂.isEmpty] ∧
      Layout.Stands D db (F.after (unlinkStores .nextUsedBlockOffset (offsets u₁) b.offset (offsets u₂)))
        ⟨l, u₁ ++ u₂⟩ := by
  have hd := h.sound.distinct
  have hlist := h.holds.used
  have hnd := hd.nodup
  have hnu := hd.used_nodup
  simp only [Layout.blocks, offsets, List.map_append, List.map_cons] at hlist hnd hnu
  rw [← List.append_assoc] at hnd
  have hs := h.sublist (h.holds.unlinkUsed hd) (List.Sublist.refl l)
    (List.Sublist.append_left (List.sublist_cons_self b u₂) u₁)
  have hj := judges_unlink (Or.inr rfl) h hlist hnu (fun x hx => ?_) hs (fun hm => ?_)
  · rw [show (offsets u₂).isEmpty = u₂.isEmpty from List.isEmpty_map] at hj
    exact ⟨hj, hs⟩
  · simp only [offsets, Layout.blocks, List.map_append, List.map_cons, List.mem_append, List.mem_cons] at hx ⊢
    tauto
  · simp only [offsets, Layout.blocks, List.map_append] at hm
    rw [← List.append_assoc] at hm
    exact (List.nodup_cons.1 (List.nodup_middle.1 hnd)).1 hm

/-- Linking a block into the free list; behind the store to its predecessor the block that follows is at a wrong place. -/
theorem judges_link {l₁ l₂ u : List Block} {b : Block} (h : Layout.Stands D db F ⟨l₁ ++ l₂, u⟩)
    (hs : Layout.Sound ⟨l₁ ++ b :: l₂, u⟩ db) (hb : b.offset ∈ D) (hsize : F (.dataSize b.offset) = b.dataSize) :
    Judges D db F (linkStores (offsets l₁) b.offset (offsets l₂)) [.link !l₂.isEmpty] ∧
      Layout.Stands D db (F.after (linkStores (offsets l₁) b.offset (offsets l₂))) ⟨l₁ ++ b :: l₂, u⟩ := by
  have hd := hs.distinct
  have hnd := hd.nodup
  have hnf := hd.free_nodup
  have h₀ := hd.free_ne_null
  have hlist := h.holds.free
  simp only [Layout.blocks, offsets, List.append_assoc, List.cons_append, List.map_append, List.map_cons] at hnd hnf h₀ hlist
  have hout : b.offset ∉ offsets (Layout.blocks ⟨l₁ ++ l₂, u⟩) := by
    simp only [offsets, Layout.blocks, List.append_assoc, List.map_append]
    exact (List.nodup_cons.1 (List.nodup_middle.1 hnd)).1
  have hD : ∀ x ∈ offsets l₁ ++ b.offset :: offsets l₂, x ∈ D := by
    intro x hx
    simp only [List.mem_append, List.mem_cons, List.mem_map] at hx
    rcases hx with ⟨c, hc, rfl⟩ | rfl | ⟨c, hc, rfl⟩
    · exact h.mem c (by simp [Layout.blocks, hc])
    · exact hb
    · exact h.mem c (by simp [Layout.blocks, hc])
  -- the first two stores go to the header of the block that is on no list yet
  have hleak : ∀ k ≤ 2, Layout.Stands D db (F.after ((linkStores (offsets l₁) b.offset (offsets l₂)).take k))
      ⟨l₁ ++ l₂, u⟩ := by
    intro k hk
    refine h.leaked fun w hw => ?_
    have hw' : w ∈ (linkStores (offsets l₁) b.offset (offsets l₂)).take 2 := (List.take_subset_take_left _ hk) hw
    simp only [linkStores, List.take_succ_cons, List.take_zero, List.mem_cons, List.not_mem_nil, or_false] at hw'
    rcases hw' with rfl | rfl <;> exact hout
  refine ⟨?_, h.holds.link hd hsize, hs, ?_⟩
  · cases l₂ with
    | nil =>
      refine ⟨rfl, fun k hk => (hleak k ?_).judged (safeAt_singleton.2 id)⟩
      exact Nat.le_of_lt_succ hk
    | cons n l₂ =>
      refine ⟨rfl, fun k hk => ?_⟩
      have hk' : k < 4 := hk
      rcases Nat.lt_or_ge k 3 with hlt | hge
      · refine (hleak k (by omega)).judged (safeAt_singleton.2 fun hbad => ?_)
        exact absurd (show k = 3 from hbad) (by omega)
      · obtain rfl : k = 3 := by omega
        refine Inconsistent.judged (fun G hG L' _ hL' => ?_) (fun hg => safeAt_singleton.1 hg rfl)
        exact not_isList_link hlist hnf h₀ hD hG hL'.free
  · intro c hc
    have hc' : c = b ∨ c ∈ Layout.blocks ⟨l₁ ++ l₂, u⟩ := by
      simp only [Layout.blocks, List.mem_append, List.mem_cons] at hc ⊢
      tauto
    rcases hc' with rfl | hc'
    · exact hb
    · exact h.mem c hc'

/-- Behind the first store of an insertion into the used list, and until the last one, its head has a predecessor. -/
theorem inconsistent_push {b c : Nat} {u : List Nat} (hhead : F .nextUsedBlockOffset = c) (hc : c ∈ D) (hcb : c ≠ b)
    (hb₀ : b ≠ nullOffset) (hc₀ : c ≠ nullOffset) {k : Nat} (h₁ : 1 ≤ k) (h₃ : k ≤ 3) :
    Inconsistent D db (F.after ((pushStores b (c :: u)).take k)) := by
  intro G hG L' _
  have hcD : (Field.prevBlockOffset c).On D := hc
  refine not_holds_of_prev (c := b) (h := c) ?_ ?_ hb₀ hc₀
  · rw [hG .nextUsedBlockOffset trivial]
    obtain rfl | rfl | rfl : k = 1 ∨ k = 2 ∨ k = 3 := by omega
    all_goals simp [pushStores, hhead]
  · rw [hG (.prevBlockOffset c) hcD]
    obtain rfl | rfl | rfl : k = 1 ∨ k = 2 ∨ k = 3 := by omega
    all_goals simp [pushStores, hcb]

theorem judges_push {l u : List Block} {b : Block} (h : Layout.Stands D db F ⟨l, u⟩)
    (hs : Layout.Sound ⟨l, b :: u⟩ db) :
    Judges D db F (pushStores b.offset (offsets u)) [.push !u.isEmpty] := by
  have hd := hs.distinct
  have hnd := hd.nodup
  have h₀ := hd.used_ne_null
  simp only [Layout.blocks, offsets, List.map_append, List.map_cons] at hnd h₀
  have hout : b.offset ∉ offsets (Layout.blocks ⟨l, u⟩) := by
    simp only [offsets, Layout.blocks, List.map_append]
    exact (List.nodup_cons.1 (List.nodup_middle.1 hnd)).1
  cases u with
  | nil =>
    refine ⟨rfl, fun k hk => (h.leaked fun w hw => ?_).judged (safeAt_singleton.2 id)⟩
    have hw' : w ∈ (pushStores b.offset []).take 2 := (List.take_subset_take_left _ (Nat.le_of_lt_succ hk)) hw
    simp only [pushStores, if_true, List.nil_append, List.take_succ_cons, List.take_zero, List.mem_cons,
      List.not_mem_nil, or_false] at hw'
    rcases hw' with rfl | rfl <;> exact hout
  | cons c u =>
    refine ⟨rfl, fun k hk => ?_⟩
    have hk' : k < 4 := hk
    rcases k with _ | k
    · exact h.judged (safeAt_zero _)
    · have hcb : c.offset ≠ b.offset := fun e => hout (e ▸ List.mem_map_of_mem (by simp [Layout.blocks]))
      have hbad : (Edit.push true).BadAt (k + 1) := ⟨by omega, by omega⟩
      have hhead : F .nextUsedBlockOffset = c.offset := h.holds.used.head
      exact (inconsistent_push hhead (h.mem c (by simp [Layout.blocks])) hcb (fun e => h₀ (by simp [e]))
        (fun e => h₀ (by simp [e])) hbad.1 hbad.2).judged (fun hg => safeAt_singleton.1 hg hbad)

theorem judges_single (h : Consistent D db F) (w : Field × Nat) : Judges D db F [w] [.single] := by
  obtain ⟨L, hL⟩ := h
  refine ⟨rfl, fun k hk => ?_⟩
  obtain rfl : k = 0 := Nat.lt_one_iff.1 hk
  exact hL.judged (safeAt_zero _)

/-! ### Insertion into the free list -/

/-- The edits of the merging part of `insert_block_to_free_list`. -/
def mergeEdits (l₁ : List Block) (b : Block) (l₂ : List Block) : List Edit :=
  match l₁.getLast?.filter (fun p => p.stop = b.offset), l₂.head?.filter (fun n => b.stop = n.offset) with
  | some _, some _ => [.unlink true, .unlink !l₂.tail.isEmpty, .single]
  | some _, none => [.unlink !l₂.isEmpty, .single]
  | none, some _ => [.unlink !l₂.tail.isEmpty, .single]
  | none, none => []

/-- The edits of `insert_block_to_free_list` for a block between `l₁` and `l₂`. -/
def insertEdits (l₁ : List Block) (b : Block) (l₂ : List Block) : List Edit :=
  if l₁ ++ l₂ = [] then [.single] else .link (!l₂.isEmpty) :: mergeEdits l₁ b l₂

private theorem judges_mergeStores {l₁ l₂ u : List Block} {b : Block} (h : Layout.Stands D db F ⟨l₁ ++ b :: l₂, u⟩) :
    Judges D db F (mergeStores l₁ b l₂) (mergeEdits l₁ b l₂) := by
  obtain ⟨hj, hun⟩ := judges_unlinkFree h
  unfold mergeStores mergeEdits
  rcases hp : l₁.getLast?.filter (fun p => p.stop = b.offset) with _ | p <;>
    rcases hn : l₂.head?.filter (fun n => b.stop = n.offset) with _ | n <;>
    simp only [hp, hn]
  · exact judges_nil
  · obtain ⟨r, rfl, -⟩ := head?_filter_eq_some hn
    have h' : Layout.Stands D db F ⟨(l₁ ++ [b]) ++ n :: r, u⟩ := by simpa using h
    obtain ⟨hj, hun⟩ := judges_unlinkFree h'
    exact hj.append (judges_single ⟨_, hun⟩ _)
  · exact hj.append (judges_single ⟨_, hun⟩ _)
  · obtain ⟨r, rfl, -⟩ := head?_filter_eq_some hn
    obtain ⟨hj₂, hun₂⟩ := judges_unlinkFree hun
    exact hj.append (hj₂.append (judges_single ⟨_, hun₂⟩ _))

theorem judges_insertStores {l₁ l₂ u : List Block} {b : Block} (h : Layout.Stands D db F ⟨l₁ ++ l₂, u⟩)
    (hs : Layout.Sound ⟨l₁ ++ b :: l₂, u⟩ db) (hb : b.offset ∈ D) (hsize : F (.dataSize b.offset) = b.dataSize) :
    Judges D db F (insertStores l₁ b l₂) (insertEdits l₁ b l₂) := by
  unfold insertStores insertEdits
  split
  · exact judges_single ⟨_, h⟩ _
  · obtain ⟨hj, hL⟩ := judges_link h hs hb hsize
    exact hj.append (judges_mergeStores hL)

end

end KeyValueStore
