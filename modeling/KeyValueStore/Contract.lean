import KeyValueStore.CString

/-!
# What the hash table relies on of the buffer

The table uses a buffer through `alloc`, `free`, the walk over the used blocks and stores into the payloads it was given.
`Buffer` is that interface, over any type of file states; `Buffer.Lawful` is what is assumed of it: `alloc` returns
`nullptr` with nothing changed or pushes a large enough block that overlaps no used one on the front of the used list,
`free` removes its block from the used list, and both leave the payloads of the other used blocks alone.
-/

namespace KeyValueStore

open ByteMemory

/-- The payload of a used block. -/
structure Payload where
  data : Nat
  size : Nat
  deriving DecidableEq, Repr

/-- No byte belongs to both payloads. -/
def Payload.Apart (b c : Payload) : Prop := b.data + b.size ≤ c.data ∨ c.data + c.size ≤ b.data

theorem Payload.Apart.symm {b c : Payload} (h : b.Apart c) : c.Apart b := Or.symm h

instance : Std.Symm Payload.Apart := ⟨fun _ _ => Payload.Apart.symm⟩

/-- The bytes of the payloads `bs` are the same in both memories. -/
def SameBytes (bs : List Payload) (m m' : Mem) : Prop := ∀ b ∈ bs, ∀ x, b.data ≤ x → x < b.data + b.size → m' x = m x

/-- The operations of a buffer on a file of type `σ`. -/
structure Buffer (σ : Type) where
  dbSize : Nat
  base : σ → Mem
  usedBlocks : σ → List Payload
  alloc : Nat → σ → Option Nat × σ
  free : Nat → σ → σ
  write : Nat → List UInt8 → σ → σ

/-- What is assumed of a buffer, in the files for which `Inv` holds. -/
structure Buffer.Lawful {σ : Type} (B : Buffer σ) (Inv : σ → Prop) : Prop where
  alloc_none : ∀ {s s' : σ} {n : Nat}, Inv s → B.alloc n s = (none, s') →
    Inv s' ∧ B.usedBlocks s' = B.usedBlocks s ∧ SameBytes (B.usedBlocks s) (B.base s) (B.base s')
  alloc_some : ∀ {s s' : σ} {n p : Nat}, Inv s → B.alloc n s = (some p, s') →
    Inv s' ∧ ∃ size, n ≤ size ∧ p + size ≤ B.dbSize ∧ B.usedBlocks s' = ⟨p, size⟩ :: B.usedBlocks s ∧
      (∀ b ∈ B.usedBlocks s, b.Apart ⟨p, size⟩) ∧ SameBytes (B.usedBlocks s) (B.base s) (B.base s')
  free_used : ∀ {s : σ} {b : Payload}, Inv s → b ∈ B.usedBlocks s →
    Inv (B.free b.data s) ∧ B.usedBlocks (B.free b.data s) = (B.usedBlocks s).erase b ∧
      SameBytes ((B.usedBlocks s).erase b) (B.base s) (B.base (B.free b.data s))
  write_used : ∀ {s : σ} {b : Payload} {a : Nat} {bs : List UInt8}, Inv s → b ∈ B.usedBlocks s → b.data ≤ a →
    a + bs.length ≤ b.data + b.size →
    Inv (B.write a bs s) ∧ B.usedBlocks (B.write a bs s) = B.usedBlocks s ∧
      B.base (B.write a bs s) = setBytes (B.base s) a bs

end KeyValueStore
