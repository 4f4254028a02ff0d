import ChunkMachine.Chunk.Basic
import ChunkMachine.Numeric.Literal
import ChunkMachine.Text.Split

set_option relaxedAutoImplicit false
set_option autoImplicit false

/-!
# Assembly text

Programs written by hand, one instruction a line:

```
; -((1.2 + 3.4) / 5.6)
CONSTANT 1.2
CONSTANT 3.4
ADD
CONSTANT 5.6
DIVIDE
NEGATE
RETURN
```

A semicolon starts a comment. The number of a text line becomes the source line of every byte that
the line emits.

## Main definitions

* `Assembly.readLine` — the instruction on a line, if any.
* `Assembly.assemble` — the chunk of a text.
-/

namespace ChunkMachine.Assembly

/-- What can be wrong with a line. -/
inductive Fault where
  /-- A third word. -/
  | unexpectedToken (word : List Char)
  /-- The first word names no instruction. -/
  | unknownInstruction (word : List Char)
  /-- A constant load without its number. -/
  | missingNumber
  /-- The operand of a constant load is no number. -/
  | invalidNumber (word : List Char)
  /-- An operand after an instruction that has none. -/
  | unexpectedOperand (op : Opcode) (word : List Char)
  deriving DecidableEq, Repr

/-- Why a text is not assembled. -/
inductive Error where
  /-- The text loads more constants than a pool holds. -/
  | tooManyConstants
  /-- The first line that is wrong, and how. -/
  | badLine (line : UInt32) (fault : Fault)
  deriving DecidableEq, Repr

/-- The text of a line's fault. -/
def Fault.message : Fault → String
  | unexpectedToken word => s!"unexpected token `{String.ofList word}`"
  | unknownInstruction word => s!"unknown instruction `{String.ofList word}`"
  | missingNumber => "CONSTANT expects a number"
  | invalidNumber word => s!"invalid number `{String.ofList word}`"
  | unexpectedOperand op word => s!"{op.mnemonic} takes no operand, got `{String.ofList word}`"

/-- The text of a full pool. -/
def poolFullMessage : String :=
  s!"too many constants in one chunk (limit {Chunk.maxConstants})"

/-- The text of a refusal. -/
def Error.message : Error → String
  | tooManyConstants => poolFullMessage
  | badLine line fault => s!"[line {line}] assembly error: {fault.message}"

/-! ## Lines -/

/-- A line without its comment. -/
def withoutComment (line : List Char) : List Char := line.takeWhile (· ≠ ';')

/-- The words of a line that are not in its comment. -/
def lineWords (line : List Char) : List (List Char) := Text.words (withoutComment line)

/-- The instruction that a mnemonic and an optional operand denote. -/
def readInstruction (name : List Char) (operand : Option (List Char)) : Except Fault Instruction :=
  match Opcode.ofMnemonic? name, operand with
  | none, _ => .error (.unknownInstruction name)
  | some .constant, none => .error .missingNumber
  | some .constant, some word =>
    match Literal.read? word with
    | some v => .ok (.load v)
    | none => .error (.invalidNumber word)
  | some op, some word => .error (.unexpectedOperand op word)
  | some (.binary op), none => .ok (.binary op)
  | some .negate, none => .ok .negate
  | some .ret, none => .ok .ret

/-- The instruction on a line; a line without words has none. A word too many is noticed before
anything else. -/
def readLine (line : List Char) : Except Fault (Option Instruction) :=
  match lineWords line with
  | [] => .ok none
  | [name] => (readInstruction name none).map some
  | [name, operand] => (readInstruction name (some operand)).map some
  | _ :: _ :: extra :: _ => .error (.unexpectedToken extra)

/-- The number of the line at an index. Numbers start at one and stop at the greatest word. -/
def lineNumber (index : Nat) : UInt32 := UInt32.ofNat (min (index + 1) (2 ^ 32 - 1))

/-! ## Texts -/

/-- Appends the instructions of the lines from an index on. -/
def assembleLines (c : Chunk) (index : Nat) : List (List Char) → Except Error Chunk
  | [] => .ok c
  | line :: rest =>
    match readLine line with
    | .error fault => .error (.badLine (lineNumber index) fault)
    | .ok none => assembleLines c (index + 1) rest
    | .ok (some instruction) =>
      match c.emit (lineNumber index) instruction with
      | .error _ => .error .tooManyConstants
      | .ok c => assembleLines c (index + 1) rest

/-- The chunk of a text, or the error of its first wrong line. -/
def assemble (text : String) : Except Error Chunk :=
  assembleLines .empty 0 (Text.lines text.toList)

end ChunkMachine.Assembly
