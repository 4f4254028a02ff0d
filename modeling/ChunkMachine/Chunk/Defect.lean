import ChunkMachine.Chunk.Basic

set_option relaxedAutoImplicit false
set_option autoImplicit false

/-!
# Defects of chunks

The code of a chunk is walked instruction by instruction. A byte that is no opcode counts as an
instruction of one byte, so the walk always goes on to the end. A chunk from outside is checked
before it runs, and the first defect found on that walk is reported.

## Main definitions

* `Chunk.offsets` — where instructions start.
* `Defect` — what can be wrong with a chunk.
* `Chunk.defect?` — the first defect of a chunk.
-/

namespace ChunkMachine

/-- What can be wrong with a chunk. -/
inductive Defect where
  /-- Code and line table differ in length. -/
  | lineCount
  /-- No opcode has this byte. -/
  | unknownOpcode (byte : UInt8) (offset : Nat)
  /-- The code ends before the operand of this instruction. -/
  | missingOperand (op : Opcode) (offset : Nat)
  /-- A constant load indexes beyond the pool. -/
  | danglingConstant (offset index poolSize : Nat)
  deriving DecidableEq, Repr

/-- The text that describes a defect. But for the line table it names the offset of the instruction
that is wrong. -/
def Defect.message : Defect → String
  | lineCount => "corrupted chunk: line/code length mismatch"
  | unknownOpcode byte offset => s!"corrupted chunk: unknown opcode {byte} at {offset}"
  | missingOperand op offset =>
    s!"corrupted chunk: {op.mnemonic} at {offset} is missing its operand"
  | danglingConstant offset index poolSize =>
    s!"corrupted chunk: op {offset} references const {index} but pool size is {poolSize}"

namespace Chunk

/-- The width of the instruction that starts with a byte; a byte that is no opcode stands alone. So
every byte has a width, and code of any bytes can be cut into pieces. -/
def widthOf (byte : UInt8) : Nat := ((Opcode.ofByte? byte).map Opcode.width).getD 1

/-- No instruction is empty, so that cutting code into instructions comes to an end. -/
theorem widthOf_pos (byte : UInt8) : 0 < widthOf byte := by
  unfold widthOf
  cases Opcode.ofByte? byte with
  | none => exact Nat.one_pos
  | some op => exact op.width_pos

/-- The starts of the instructions from an offset on. Each of them is behind the instruction before;
the last one may lack its operand. -/
def offsetsFrom (c : Chunk) (offset : Nat) : List Nat :=
  if h : offset < c.code.size then offset :: c.offsetsFrom (offset + widthOf c.code[offset]) else []
termination_by c.code.size - offset
decreasing_by
  have := widthOf_pos c.code[offset]
  omega

/-- The offsets at which instructions start, from the first one of the code on. -/
def offsets (c : Chunk) : List Nat := c.offsetsFrom 0

/-- What is wrong with the instruction at an offset, if anything. -/
def defectAt? (c : Chunk) (offset : Nat) : Option Defect :=
  match c.code[offset]? with
  | none => none
  | some byte =>
    match Opcode.ofByte? byte with
    | none => some (.unknownOpcode byte offset)
    | some op =>
      if c.code.size < offset + op.width then some (.missingOperand op offset)
      else if op = .constant then
        match c.code[offset + 1]? with
        | some index =>
          if index.toNat < c.constants.size then none
          else some (.danglingConstant offset index.toNat c.constants.size)
        | none => none
      else none

/-- The first defect of a chunk: a line table of another length than the code, or the defect of
the first instruction that has one. -/
def defect? (c : Chunk) : Option Defect :=
  if c.code.size ≠ c.lines.size then some .lineCount else c.offsets.findSome? c.defectAt?

end Chunk

end ChunkMachine
