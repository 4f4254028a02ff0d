import ChunkMachine.Machine.Sink
import ChunkMachine.Token.Scanner

set_option relaxedAutoImplicit false
set_option autoImplicit false

/-!
# Faults

What ends a run other than the return instruction, and how it is told.

## Main definitions

* `Fault` — what can go wrong while a chunk runs.
* `RuntimeError` — a fault with the source line of the instruction at fault.
* `CallError` — what a machine remembers of its last call.
-/

namespace ChunkMachine

/-- What can go wrong while a chunk runs. -/
inductive Fault where
  /-- No opcode has this byte. -/
  | unknownOpcode (byte : UInt8)
  /-- An operand is missing on the stack. -/
  | stackUnderflow
  /-- The stack already holds as many values as it can. -/
  | stackOverflow (capacity : Nat)
  /-- A constant load indexes beyond the pool. -/
  | constantOutOfRange (index : UInt8) (poolSize : Nat)
  /-- The code is exhausted. -/
  | endOfCode
  /-- The result could not be written. -/
  | output (cause : SinkFault)
  deriving DecidableEq, Repr

/-- The text of a fault, a sentence of its own. -/
def Fault.message : Fault → String
  | unknownOpcode byte => s!"Unknown opcode {byte}."
  | stackUnderflow => "Stack underflow."
  | stackOverflow capacity => s!"Stack overflow (capacity {capacity})."
  | constantOutOfRange index poolSize =>
    s!"Constant index {index} out of range (pool has {poolSize})."
  | endOfCode => "Unexpected end of bytecode."
  | output cause => "output error: " ++ cause.message

/-- A fault, and the source line of the instruction at fault. -/
structure RuntimeError where
  /-- What went wrong. -/
  fault : Fault
  /-- The line of the instruction, or the last line of the chunk if the code was exhausted. -/
  line : UInt32
  deriving DecidableEq, Repr

/-- The text of a runtime error: that of the fault, and the line below it. -/
def RuntimeError.message (e : RuntimeError) : String :=
  s!"{e.fault.message}\n[line {e.line}] in script"

/-- What a machine remembers of a call that failed. -/
inductive CallError where
  /-- The source text has lexical errors. -/
  | compile (errors : List LexicalError)
  /-- The chunk faulted. -/
  | runtime (error : RuntimeError)
  deriving DecidableEq, Repr

/-- The text of a failed call: one line for every lexical error. -/
def CallError.message : CallError → String
  | compile errors => String.intercalate "\n" (errors.map LexicalError.message)
  | runtime error => error.message

end ChunkMachine
