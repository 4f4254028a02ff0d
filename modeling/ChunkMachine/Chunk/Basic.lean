import ChunkMachine.Opcode
import ChunkMachine.Value

set_option relaxedAutoImplicit false
set_option autoImplicit false

/-!
# Chunks

A chunk is a program for the machine: its code bytes, one source line for every code byte, and a
pool of constants that the code indexes by single bytes. Chunks grow by appending, and the only
other change is to clear them.

## Main definitions

* `Chunk` — code, lines and constants.
* `Chunk.push`, `Chunk.pushOpcode`, `Chunk.pushConstant`, `Chunk.pushLoad` — appending.
* `Chunk.WellFormed` — the invariant that appending keeps.
* `Instruction`, `Chunk.emit` — whole instructions, and their code.

## Main results

* `Chunk.WellFormed.push`, `Chunk.WellFormed.pushConstant` — appending keeps the invariant.
* `Chunk.pushConstant_eq_error_iff` — a constant is refused exactly if the pool is full.
-/

namespace ChunkMachine

/-- A program: code bytes, the source line of each of them, and a pool of constants. Chunks grow by
appending, and nothing that was appended is changed later. -/
structure Chunk where
  /-- The code bytes: opcodes, each followed by its operand if it has one. -/
  code : Array UInt8
  /-- The source line of each code byte, operands included. -/
  lines : Array UInt32
  /-- The constants that loads refer to by their index. -/
  constants : Array Value
  deriving DecidableEq, Repr

/-- The pool of a chunk holds as many constants as a byte can index. -/
inductive PoolFull where
  /-- The pool has no room for one more constant. -/
  | full
  deriving DecidableEq, Repr

/-- A whole instruction, a constant load being named by its value. Which index the value has in a
pool is not said, so the same instruction can be appended to any chunk. -/
inductive Instruction where
  /-- Push a value. -/
  | load (value : Value)
  /-- Replace the two topmost values by the result of an operation on them. -/
  | binary (op : BinaryOp)
  /-- Replace the topmost value by its negation. -/
  | negate
  /-- Take the topmost value, write it and stop. -/
  | ret
  deriving DecidableEq, Repr

namespace Chunk

/-- How many constants a pool can hold: each needs an index of one byte. -/
def maxConstants : Nat := 256

/-- The chunk without code and constants, from which every text is assembled. -/
def empty : Chunk := ⟨#[], #[], #[]⟩

/-- What every chunk satisfies that was built by appending: a line for every code byte, and a pool
within its limit. -/
structure WellFormed (c : Chunk) : Prop where
  /-- There is one line for each code byte. -/
  size_lines : c.lines.size = c.code.size
  /-- There are no more constants than can be indexed. -/
  size_constants : c.constants.size ≤ maxConstants

/-- The source line of the code byte at an offset. Behind the code there is none. -/
def lineAt? (c : Chunk) (offset : Nat) : Option UInt32 := c.lines[offset]?

/-! ## Appending -/

/-- Appends a code byte and the line it stems from. -/
def push (c : Chunk) (byte : UInt8) (line : UInt32) : Chunk :=
  { c with code := c.code.push byte, lines := c.lines.push line }

/-- Appends an opcode byte. An operand is appended apart, on the same line or on another one. -/
def pushOpcode (c : Chunk) (op : Opcode) (line : UInt32) : Chunk := c.push op.toByte line

/-- Appends a constant to the pool, unless it is full, and returns its index. A constant that is
there already is appended once more. -/
def pushConstant (c : Chunk) (v : Value) : Except PoolFull (UInt8 × Chunk) :=
  if c.constants.size < maxConstants then
    .ok (UInt8.ofNat c.constants.size, { c with constants := c.constants.push v })
  else .error .full

/-- Appends a constant to the pool and its load to the code, and returns its index. If the pool is
full neither of the two is done. -/
def pushLoad (c : Chunk) (v : Value) (line : UInt32) : Except PoolFull (UInt8 × Chunk) :=
  match c.pushConstant v with
  | .ok (index, c) => .ok (index, (c.pushOpcode .constant line).push index line)
  | .error e => .error e

/-- Appends a whole instruction, all of its bytes on one line. Only a load can be refused. -/
def emit (c : Chunk) (line : UInt32) : Instruction → Except PoolFull Chunk
  | .load v => (c.pushLoad v line).map Prod.snd
  | .binary op => .ok (c.pushOpcode (.binary op) line)
  | .negate => .ok (c.pushOpcode .negate line)
  | .ret => .ok (c.pushOpcode .ret line)

/-! ## The invariant -/

/-- The empty chunk has no code bytes and no lines. -/
theorem WellFormed.empty : WellFormed empty := ⟨rfl, by decide⟩

/-- A byte is appended together with its line, so there stay as many of the one as of the other. -/
theorem WellFormed.push {c : Chunk} (h : c.WellFormed) (byte : UInt8) (line : UInt32) :
    (c.push byte line).WellFormed :=
  ⟨by simp [Chunk.push, h.size_lines], h.size_constants⟩

/-- A constant is refused exactly if the pool is full. -/
theorem pushConstant_eq_error_iff {c : Chunk} {v : Value} {e : PoolFull} :
    c.pushConstant v = .error e ↔ maxConstants ≤ c.constants.size := by
  unfold pushConstant
  split
  · exact ⟨fun h => (nomatch h), fun h => absurd h (by omega)⟩
  · exact ⟨fun _ => by omega, fun _ => by cases e; rfl⟩

/-- A constant is appended only if there is room for it. -/
theorem WellFormed.pushConstant {c c' : Chunk} {v : Value} {index : UInt8} (h : c.WellFormed)
    (ha : c.pushConstant v = .ok (index, c')) : c'.WellFormed := by
  unfold Chunk.pushConstant at ha
  split at ha
  · cases ha
    exact ⟨h.size_lines, by simp; omega⟩
  · contradiction

end Chunk

end ChunkMachine
