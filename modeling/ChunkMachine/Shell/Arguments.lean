import ChunkMachine.Log.Filter
import ChunkMachine.Shell.Basic

set_option relaxedAutoImplicit false
set_option autoImplicit false

/-!
# Arguments of the command line

Arguments are read from left to right. Options and scripts mix freely; after a double dash all
arguments are scripts. Only the verbose flag may be repeated. The first argument that is wrong, or
that asks for the version, decides.

## Main definitions

* `Arguments` — what the arguments ask for.
* `Arguments.read` — reads them.
* `Command` — what is to be done, by the number of scripts.
-/

namespace ChunkMachine

/-- When tags are coloured. -/
inductive ColorChoice where
  /-- As the environment has it. -/
  | auto
  /-- Always. -/
  | always
  /-- Never. -/
  | never
  deriving DecidableEq, Repr

/-- What the arguments ask for. -/
structure Arguments where
  /-- How often the verbose flag is given. -/
  verbosity : Nat
  /-- Whether the quiet flag is given. -/
  quiet : Bool
  /-- When tags are to be coloured, if that is said. -/
  color : Option ColorChoice
  /-- Whether texts are assembly. -/
  assembly : Bool
  /-- The path for an image, if one is to be written. -/
  emit : Option String
  /-- Whether chunks are listed. -/
  listing : Bool
  /-- In which form tokens are dumped, if they are. -/
  tokens : Option TokenFormat
  /-- Whether instructions are recorded. -/
  trace : Bool
  /-- The scripts, in their order. -/
  scripts : List String
  deriving DecidableEq, Repr

/-- Why the arguments do not lead to a run. -/
inductive ArgumentStop where
  /-- An argument is wrong. -/
  | invalid
  /-- The version is asked for. -/
  | version
  deriving DecidableEq, Repr

namespace Arguments

/-- No arguments: nothing is asked for. -/
def none : Arguments := ⟨0, false, .none, false, .none, false, .none, false, []⟩

/-- Sets a flag that may be given once. If it was given before, that is wrong. -/
def once (given : Bool) (a : Arguments) : Except ArgumentStop Arguments :=
  if given then .error .invalid else .ok a

/-- Reads the value of the colour option, which must be one of three words and may be given once. -/
def setColor (a : Arguments) (value : List Char) : Except ArgumentStop Arguments :=
  if a.color.isSome then .error .invalid
  else
    match String.ofList value with
    | "auto" => .ok { a with color := some .auto }
    | "always" => .ok { a with color := some .always }
    | "never" => .ok { a with color := some .never }
    | _ => .error .invalid

/-- Reads the value of the emission option. It must not be empty, and may be given once. -/
def setEmit (a : Arguments) (value : List Char) : Except ArgumentStop Arguments :=
  if a.emit.isSome ∨ value = [] then .error .invalid
  else .ok { a with emit := some (String.ofList value) }

/-- Reads the value of the token option; without one the tokens are shown as a table. It may be
given once, with a value or without. -/
def setTokens (a : Arguments) (value : Option (List Char)) : Except ArgumentStop Arguments :=
  if a.tokens.isSome then .error .invalid
  else
    match value.map String.ofList with
    | .none => .ok { a with tokens := some .table }
    | some "text" => .ok { a with tokens := some .table }
    | some "json" => .ok { a with tokens := some .json }
    | some _ => .error .invalid

/-- Sets a long flag, or answers a request for the version. -/
def setFlag (a : Arguments) (name : String) : Except ArgumentStop Arguments :=
  match name with
  | "verbose" => .ok { a with verbosity := a.verbosity + 1 }
  | "quiet" => once a.quiet { a with quiet := true }
  | "asm" => once a.assembly { a with assembly := true }
  | "disasm" => once a.listing { a with listing := true }
  | "trace" => once a.trace { a with trace := true }
  | "tokens" => a.setTokens .none
  | "version" => .error .version
  | _ => .error .invalid

/-- Sets a long option with a value behind an equals sign. -/
def setLong (a : Arguments) (name : String) (value : List Char) : Except ArgumentStop Arguments :=
  match name with
  | "color" => a.setColor value
  | "emit" => a.setEmit value
  | "tokens" => a.setTokens (some value)
  | _ => .error .invalid

/-- Sets the short flags of one argument, one after another. A request for the version decides,
whatever stands behind it. -/
def setShort (a : Arguments) : List Char → Except ArgumentStop Arguments
  | [] => .ok a
  | 'v' :: rest => { a with verbosity := a.verbosity + 1 }.setShort rest
  | 'q' :: rest => if a.quiet then .error .invalid else { a with quiet := true }.setShort rest
  | 'V' :: _ => .error .version
  | _ => .error .invalid

/-- Adds a script, which must not be empty. A lone dash is a script like any other. -/
def addScript (a : Arguments) (script : List Char) : Except ArgumentStop Arguments :=
  if script = [] then .error .invalid
  else .ok { a with scripts := a.scripts ++ [String.ofList script] }

/-- Adds scripts, whatever they begin with. -/
def addScripts (a : Arguments) : List (List Char) → Except ArgumentStop Arguments
  | [] => .ok a
  | script :: rest =>
    match a.addScript script with
    | .ok a => a.addScripts rest
    | .error e => .error e

/-- Whether an argument can be the value of the option before it: a lone dash can, any other
argument with a dash in front cannot. -/
def isValue : List Char → Bool
  | ['-'] => true
  | '-' :: _ => false
  | _ => true

/-- Reads arguments after those that were read. A long option takes its value from behind an equals
sign, or else from the next argument; the token option takes it from behind an equals sign only. -/
def readFrom (a : Arguments) : List (List Char) → Except ArgumentStop Arguments
  | [] => .ok a
  | arg :: rest =>
    match arg with
    | ['-', '-'] => a.addScripts rest
    | '-' :: '-' :: long =>
      let name := String.ofList (long.takeWhile (· ≠ '='))
      match long.dropWhile (· ≠ '=') with
      | _ :: value =>
        match a.setLong name value with
        | .ok a => a.readFrom rest
        | .error e => .error e
      | [] =>
        if name = "color" ∨ name = "emit" then
          match rest with
          | [] => .error .invalid
          | value :: rest =>
            if isValue value then
              match a.setLong name value with
              | .ok a => a.readFrom rest
              | .error e => .error e
            else .error .invalid
        else
          match a.setFlag name with
          | .ok a => a.readFrom rest
          | .error e => .error e
    | '-' :: c :: short =>
      match a.setShort (c :: short) with
      | .ok a => a.readFrom rest
      | .error e => .error e
    | script =>
      match a.addScript script with
      | .ok a => a.readFrom rest
      | .error e => .error e

/-- Reads the arguments of the command line, from the left. -/
def read (args : List String) : Except ArgumentStop Arguments :=
  none.readFrom (args.map String.toList)

/-- The options of the shell that the arguments ask for. -/
def shellOptions (a : Arguments) : ShellOptions where
  assembly := a.assembly
  tokens := a.tokens
  listing := a.listing
  verbose := 0 < a.verbosity
  trace := a.trace
  emit := a.emit

/-- The level up to which records are shown, if nothing else says so. The quiet flag wins over the
verbose one. -/
def level (a : Arguments) : LogLevel :=
  if a.quiet then .error
  else
    match a.verbosity with
    | 0 => .warn
    | 1 => .info
    | 2 => .debug
    | _ => .trace

end Arguments

/-! ## Commands -/

/-- What is to be done. -/
inductive Command where
  /-- Read programs at a prompt. -/
  | prompt (text : String)
  /-- Run a file. -/
  | run (path : String)
  /-- Tell how the program is used. -/
  | usage
  deriving DecidableEq, Repr

/-- How the program is used. It takes one script at most. -/
def usageText : String := "Usage: lox [script]"

/-- What is to be done with scripts: one is run, and without any programs are read at a prompt. -/
def Command.ofScripts : List String → Command
  | [] => .prompt "> "
  | [path] => .run path
  | _ => .usage

end ChunkMachine
