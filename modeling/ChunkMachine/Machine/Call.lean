import ChunkMachine.Machine.Basic

set_option relaxedAutoImplicit false
set_option autoImplicit false

/-!
# Calls

What a machine is asked to do. Every call starts from an empty stack; values that it leaves behind
can be looked at until the next call.

## Main definitions

* `Machine.evaluate` — runs a chunk and gives its value or its error.
* `Machine.call` — runs a chunk and remembers its error.
* `Machine.scanSource` — scans source text and remembers its errors.
* `Verdict` — how an interpreting call ends.
-/

namespace ChunkMachine

/-- How an interpreting call ends. The error itself is kept on the machine. -/
inductive Verdict where
  /-- It went well. -/
  | ok
  /-- The text is wrong, and nothing was run. -/
  | compileError
  /-- The chunk faulted. -/
  | runtimeError
  deriving DecidableEq, Repr

/-- The exit code of a program that ends so. The two errors have the customary codes of wrong data
and of an internal error. -/
def Verdict.exitCode : Verdict → Nat
  | ok => 0
  | compileError => 65
  | runtimeError => 70

/-- Whether a call went well. -/
def Verdict.isOk (v : Verdict) : Bool := v = .ok

namespace Machine

variable {W : Type}

/-- The machine before a call: nothing on the stack, and at the start of the code. Records and the
error of the last call are kept. -/
def reset (m : Machine W) : Machine W :=
  { m with stack := .empty m.config.capacity, ip := 0, current := 0 }

/-- The source line of the instruction that starts at an offset. At the end of the code it is the
last line, and in a chunk without lines it is zero. -/
def lineOf (c : Chunk) (offset : Nat) : UInt32 :=
  ((c.lineAt? offset).or c.lines.back?).getD 0

/-- Runs a chunk from its start, with an empty stack. What it leaves on the stack stays there. The
error is not remembered, nor is that there was none. -/
def evaluate [Output W] (m : Machine W) (c : Chunk) : Except RuntimeError Value × Machine W :=
  match m.reset.run c with
  | (.ok v, m) => (.ok v, m)
  | (.error fault, m) => (.error ⟨fault, lineOf c m.current⟩, m)

/-- Runs a chunk, and remembers its error or that there was none. An error is recorded as well. -/
def call [Output W] (m : Machine W) (c : Chunk) : Verdict × Machine W :=
  match m.evaluate c with
  | (.ok _, m) => (.ok, { m with failure := none })
  | (.error e, m) =>
    let m := m.note .debug "lox_vm::vm" s!"runtime error: {e.fault.message} line={e.line}"
    (.runtimeError, { m with failure := some (.runtime e) })

/-- Records scanned tokens, one record each. -/
def noteTokens (m : Machine W) (tokens : List Token) : Machine W :=
  { m with log := m.log ++ tokens.map Token.record }

/-- Scans source text, and remembers its errors or that there were none. Nothing is executed. -/
def scanSource (m : Machine W) (text : String) : Verdict × Machine W :=
  let tokens := tokenize text
  let m := m.reset.noteTokens tokens
  match checkTokens tokens with
  | .ok tokens =>
    let m := m.note .debug "lox_vm::vm" s!"source scanned tokens={tokens.length}"
    (.ok, { m with failure := none })
  | .error errors => (.compileError, { m with failure := some (.compile errors) })

end Machine

end ChunkMachine
