import ChunkMachine.Shell.Arguments
import ChunkMachine.Shell.Repl

set_option relaxedAutoImplicit false
set_option autoImplicit false

/-!
# The program

The whole program, from its arguments, its environment and its input to its exit code and what it
writes.

## Main definitions

* `Environment` — the variables that the program looks at.
* `Program.usesColor`, `Program.filterOf` — how diagnostics and records are shown.
* `Program.Result`, `Program.run` — a whole run.
-/

namespace ChunkMachine

/-- The variables of the environment that the program looks at. -/
structure Environment where
  /-- Asks for colours where they would not be used. -/
  forceColor : Option String
  /-- A log filter. -/
  logFilter : Option String
  deriving DecidableEq, Repr

namespace Program

/-- What the program prints for its version: its name and a number. -/
def versionText : String := "lox 0.1.0"

/-- The exit code for arguments that are wrong. It is another one than that for too many scripts,
which are each in order. -/
def invalidCode : Nat := 2

/-- The exit code for more scripts than one. It is the customary one for a command that is used
wrongly. -/
def usageCode : Nat := 64

/-- Whether tags are coloured. What the arguments say wins over the environment; without either
there are no colours, since diagnostics are not written to a terminal. -/
def usesColor (choice : Option ColorChoice) (env : Environment) : Bool :=
  match choice with
  | some .always => true
  | some .never => false
  | _ =>
    match env.forceColor with
    | some value => value ≠ "0"
    | none => false

/-- The filter of a run, and warnings about the one in the environment. Records of instructions are
shown whenever they are asked for. -/
def filterOf (a : Arguments) (env : Environment) : LogFilter × List String :=
  let (f, warnings) :=
    match env.logFilter with
    | some spec => LogFilter.parse spec
    | none => (LogFilter.upTo a.level, [])
  (if a.trace then f.insert ⟨some "lox_vm::exec".toList, LogFilter.maxRank⟩ else f, warnings)

/-- The text of a notice, unless the filter hides it. Diagnostics are never hidden. -/
def noticeText? (f : LogFilter) : Notice → Option String
  | .diagnostic text => some text
  | .record r => if f.allows r then some r.render else none

/-- What a run writes for its notices, each on its own line, in the order in which they were
told. -/
def noticesText (f : LogFilter) (notices : List Notice) : String :=
  Listing.unlines (notices.filterMap (noticeText? f))

/-- The exit code of a run, its output, and its diagnostics. -/
structure Result where
  /-- The exit code. -/
  code : Nat
  /-- The bytes written to the output. -/
  output : List UInt8
  /-- The text written beside it. -/
  diagnostics : String

/-- The diagnostic that ends a run whose files could not be written. It stands behind all other
diagnostics. -/
def failureText (e : WriteError) : String := "error: " ++ e.message

/-- What is left of a shell: a failure to write a file is told at the end. -/
def conclude (f : LogFilter) (warnings : List String) (outcome : Outcome Nat) : Result :=
  let (shell, code) :=
    match outcome with
    | (s, .ok code) => (s, code)
    | (s, .error e) => (s.tell (failureText e), Shell.ioErrorCode)
  ⟨code, shell.machine.sink.content,
    Listing.unlines warnings ++ noticesText f shell.notices.toList⟩

section

variable {m : Type → Type} [Monad m]

/-- Does what the arguments ask for: reads programs at a prompt, runs a file, or tells how the
program is used. A prompt that comes to the end of its input has gone well, whatever its programs
gave. -/
def runArguments (fs : FileSystem m) (a : Arguments) (env : Environment) (input : List UInt8) :
    m Result := do
  let shell := Shell.new a.shellOptions (usesColor a.color env)
  let (f, warnings) := filterOf a env
  match Command.ofScripts a.scripts with
  | .usage => pure (conclude f warnings (shell.tell usageText, .ok usageCode))
  | .run path => do return conclude f warnings (← shell.openFile fs path)
  | .prompt text =>
    let (r, result) ← (Repl.new text shell).run fs input
    pure (conclude f warnings (r.shell, result.map fun () => Verdict.ok.exitCode))

/-- Runs the program. Arguments that are wrong give the exit code alone; how they are told is left
to the caller. -/
def run (fs : FileSystem m) (args : List String) (env : Environment) (input : List UInt8) :
    m Result :=
  match Arguments.read args with
  | .error .invalid => pure ⟨invalidCode, [], ""⟩
  | .error .version => pure ⟨Verdict.ok.exitCode, Sink.textBytes (versionText ++ "\n"), ""⟩
  | .ok a => runArguments fs a env input

end

end Program

end ChunkMachine
