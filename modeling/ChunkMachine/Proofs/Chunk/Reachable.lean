import ChunkMachine.Assembly
import ChunkMachine.Proofs.Image.Reading

set_option relaxedAutoImplicit false
set_option autoImplicit false

/-!
# Chunks that can come about

A chunk starts empty, comes out of a text or comes out of an image, and is then changed by appending
and clearing in any order. All chunks that can come about so are well formed: no change breaks the
invariant, and neither do the assembler and the decoder.

## Main definitions

* `Chunk.Edit`, `Chunk.apply` — the changes of a chunk, and their effect.
* `Chunk.Reachable` — the chunks that can come about.

## Main results

* `Chunk.WellFormed.apply` — one change keeps the invariant.
* `Chunk.Reachable.wellFormed` — all chunks that can come about are well formed.
-/

namespace ChunkMachine.Chunk

/-- A change of a chunk. Bytes may be pushed one by one, so that a chunk need not hold whole
instructions. -/
inductive Edit where
  /-- Appends a byte and its line. -/
  | push (byte : UInt8) (line : UInt32)
  /-- Appends the byte of an opcode and its line. -/
  | pushOpcode (op : Opcode) (line : UInt32)
  /-- Appends a constant to the pool. -/
  | pushConstant (value : Value)
  /-- Appends a constant to the pool and its load to the code. -/
  | pushLoad (value : Value) (line : UInt32)
  /-- Takes everything away. -/
  | clear
  deriving DecidableEq, Repr

/-- The chunk that an attempt to append a constant leaves: a refusal changes nothing. -/
def settle (c : Chunk) : Except PoolFull (UInt8 × Chunk) → Chunk
  | .ok (_, c') => c'
  | .error _ => c

/-- The chunk after a change. A constant that is refused leaves the chunk as it is. -/
def apply (c : Chunk) : Edit → Chunk
  | .push byte line => c.push byte line
  | .pushOpcode op line => c.pushOpcode op line
  | .pushConstant v => c.settle (c.pushConstant v)
  | .pushLoad v line => c.settle (c.pushLoad v line)
  | .clear => empty

/-- The chunks that can come about: the empty one, those of texts and of images, and what changes
make of them. -/
inductive Reachable : Chunk → Prop where
  /-- The empty chunk, with which building starts. -/
  | empty : Reachable .empty
  /-- The chunk of a text. -/
  | assembled {text : String} {c : Chunk} (h : Assembly.assemble text = .ok c) : Reachable c
  /-- The chunk of an image, be it defective or not. -/
  | decoded {image : List UInt8} {c : Chunk} (h : Image.decode image = .ok c) : Reachable c
  /-- What a change makes of any of them. -/
  | edited {c : Chunk} (h : Reachable c) (e : Edit) : Reachable (c.apply e)

/-! ## Changes -/

/-- A constant, an opcode byte and an index byte are appended, each of them in order. -/
theorem WellFormed.pushLoad {c c' : Chunk} {v : Value} {line : UInt32} {index : UInt8}
    (h : c.WellFormed) (ha : c.pushLoad v line = .ok (index, c')) : c'.WellFormed := by
  unfold Chunk.pushLoad at ha
  split at ha
  · cases ha
    exact ((h.pushConstant ‹_›).push _ _).push _ _
  · contradiction

/-- An attempt keeps the invariant if its success does, as nothing changes if it fails. -/
theorem WellFormed.settle {c : Chunk} {attempt : Except PoolFull (UInt8 × Chunk)}
    (h : c.WellFormed) (ha : ∀ index c', attempt = .ok (index, c') → c'.WellFormed) :
    (c.settle attempt).WellFormed := by
  cases attempt with
  | ok p => exact ha p.1 p.2 rfl
  | error e => exact h

/-- One change keeps the invariant, whichever it is. -/
theorem WellFormed.apply {c : Chunk} (h : c.WellFormed) (e : Edit) : (c.apply e).WellFormed := by
  cases e with
  | push byte line => exact h.push byte line
  | pushOpcode op line => exact h.push op.toByte line
  | pushConstant v => exact h.settle fun _ _ ha => h.pushConstant ha
  | pushLoad v line => exact h.settle fun _ _ ha => h.pushLoad ha
  | clear => exact WellFormed.empty

/-! ## Texts -/

/-- Appending an instruction keeps the invariant, by the laws for its bytes and its constant. -/
theorem WellFormed.emit {c c' : Chunk} {line : UInt32} {i : Instruction} (h : c.WellFormed)
    (he : c.emit line i = .ok c') : c'.WellFormed := by
  cases i with
  | load v =>
    simp only [Chunk.emit] at he
    cases ha : c.pushLoad v line with
    | ok p =>
      rw [ha] at he
      cases he
      exact h.pushLoad ha
    | error e =>
      rw [ha] at he
      contradiction
  | binary op => cases he; exact h.push _ _
  | negate => cases he; exact h.push _ _
  | ret => cases he; exact h.push _ _

/-- Assembling more lines keeps the invariant.

**Proof sketch.** Induction on the lines. A line is blank and changes nothing, or it appends one
instruction; in every other case there is no chunk. -/
theorem WellFormed.assembleLines {lines : List (List Char)} {c c' : Chunk} {index : Nat}
    (h : c.WellFormed) (ha : Assembly.assembleLines c index lines = .ok c') : c'.WellFormed := by
  induction lines generalizing c index with
  | nil => cases ha; exact h
  | cons line rest ih =>
    unfold Assembly.assembleLines at ha
    split at ha
    · contradiction
    · exact ih h ha
    · split at ha
      · contradiction
      · exact ih (h.emit ‹_›) ha

/-! ## All chunks -/

/-- All chunks that can come about are well formed. Images are checked when they are read: they have
a line for each code byte by their layout, and no more constants than the pool can hold. -/
theorem Reachable.wellFormed {c : Chunk} (h : c.Reachable) : c.WellFormed := by
  induction h with
  | empty => exact WellFormed.empty
  | assembled h => exact WellFormed.empty.assembleLines h
  | decoded h => exact (Image.decode_eq_ok_iff.1 h).1
  | edited _ e ih => exact ih.apply e

end ChunkMachine.Chunk
