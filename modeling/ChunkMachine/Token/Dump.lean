import ChunkMachine.Text.Column
import ChunkMachine.Text.Quoted
import ChunkMachine.Token.Scanner

set_option relaxedAutoImplicit false
set_option autoImplicit false

/-!
# Dumps of tokens

Two ways to show the tokens of a text: a table with a row for every token, and a JSON array.

## Main definitions

* `TokenDump.table` — the rows, each with a line number where it differs from the row before.
* `TokenDump.json` — the array.
-/

namespace ChunkMachine.TokenDump

/-- The first column of a row: the line, or a bar if it is that of the row before. -/
def lineColumn (last : Option UInt32) (line : UInt32) : String :=
  if last = some line then "   | " else Text.number 4 ' ' line.toNat ++ " "

/-- A row, without its line: the name of the kind in a column, and the lexeme between quotes. -/
def row (t : Token) : String :=
  s!"{Text.padRight 13 t.kind.name} '{String.ofList t.lexeme}'\n"

/-- The rows of tokens, after the text `dump` whose last row has the line `last`. -/
def tableFrom (dump : String) (last : Option UInt32) : List Token → String
  | [] => dump
  | t :: rest => tableFrom (dump ++ lineColumn last t.line ++ row t) (some t.line) rest

/-- The table of tokens, one row each. A row shows its line only if it is another one than that of
the row before. -/
def table (tokens : List Token) : String := tableFrom "" none tokens

/-- A token as a JSON object, with its kind, its lexeme and its line. -/
def jsonObject (t : Token) : String :=
  "  \x7b\n    \"kind\": \"" ++ t.kind.tag ++ "\",\n    \"lexeme\": " ++
    Text.jsonString t.lexeme ++ ",\n    \"line\": " ++ toString t.line ++ "\n  \x7d"

/-- The JSON array of tokens, on indented lines. Without tokens it is written on one line. -/
def json (tokens : List Token) : String :=
  if tokens.isEmpty then "[]"
  else "[\n" ++ String.intercalate ",\n" (tokens.map jsonObject) ++ "\n]"

end ChunkMachine.TokenDump
