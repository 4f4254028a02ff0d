import ChunkMachine.Text.Quoted
import ChunkMachine.Token.Scanner

set_option relaxedAutoImplicit false
set_option autoImplicit false

/-!
# Log records

What the program tells about its own work: a level, the part of the program that speaks, and a
message.

## Main definitions

* `LogLevel`, `LogRecord` — levels and records.
* `Token.record` — the record of a scanned token.
-/

namespace ChunkMachine

/-- The levels of records, from the gravest to the most talkative. -/
inductive LogLevel where
  /-- Something failed. -/
  | error
  /-- Something may be wrong. -/
  | warn
  /-- What is going on. -/
  | info
  /-- How a call ended. -/
  | debug
  /-- Every token, and every instruction. -/
  | trace
  deriving DecidableEq, Repr

namespace LogLevel

/-- How talkative a level is; no level at all counts as zero, so that a limit of zero shows
nothing. -/
def rank : LogLevel → Nat
  | error => 1
  | warn => 2
  | info => 3
  | debug => 4
  | trace => 5

/-- The name of a level, as it stands in front of a message. -/
def name : LogLevel → String
  | error => "ERROR"
  | warn => "WARN"
  | info => "INFO"
  | debug => "DEBUG"
  | trace => "TRACE"

end LogLevel

/-- A record: its level, the part of the program that speaks, and a message. -/
structure LogRecord where
  /-- How important it is. -/
  level : LogLevel
  /-- The part of the program that speaks. -/
  target : String
  /-- What it says. There may be several lines of it. -/
  message : String
  deriving DecidableEq, Repr

/-- The record of a scanned token: its kind, its lexeme in quotes, and its line. All of these are
traces. -/
def Token.record (t : Token) : LogRecord :=
  ⟨.trace, "lox_lexer", s!"token {t.kind.name} {Text.quoted t.lexeme} @{t.line}"⟩

end ChunkMachine
