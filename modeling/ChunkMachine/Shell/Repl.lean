import ChunkMachine.Shell.Basic

set_option relaxedAutoImplicit false
set_option autoImplicit false

/-!
# The prompt

The prompt reads a line at a time. Source text is scanned line by line. Lines of assembly pile up
until one holds a return instruction, and then run together; what is left at the end of the input
runs too, unless no line of it holds a word.

## Main definitions

* `Repl` — a shell and the lines that wait.
* `Repl.feed`, `Repl.finish` — a line, and the end of the input.
* `Repl.run` — a whole input.
-/

namespace ChunkMachine

/-- The lines of some bytes, each with the line feed that ends it, after the reversed start of the
first one. -/
def byteLinesFrom (current : List UInt8) : List UInt8 → List (List UInt8)
  | [] => if current = [] then [] else [current.reverse]
  | byte :: rest =>
    if byte = 10 then (byte :: current).reverse :: byteLinesFrom [] rest
    else byteLinesFrom (byte :: current) rest

/-- The lines of some bytes, each with the line feed that ends it. The last one may lack its line
feed, and then it is not empty. -/
def byteLines (bytes : List UInt8) : List (List UInt8) := byteLinesFrom [] bytes

/-- A shell at the prompt, and the assembly text that waits for its return instruction. -/
structure Repl where
  /-- What is shown before a line is taken. -/
  prompt : String
  /-- The shell that programs are run in, one for the whole session. -/
  shell : Shell
  /-- The lines of assembly since the last return. -/
  pending : String

namespace Repl

/-- A fresh prompt, with nothing waiting. -/
def new (prompt : String) (shell : Shell) : Repl := ⟨prompt, shell, ""⟩

/-- The name under which input is run. Listings show it in their headings. -/
def inputName : String := "repl"

/-- Whether the instruction on a line is a return. The mnemonic alone decides: a return that is
followed by something is wrong, and still ends the program, which then is not assembled. -/
def endsProgram (line : List Char) : Bool :=
  (Assembly.lineWords line).head?.bind Opcode.ofMnemonic? = some .ret

/-- Whether any line of a text holds a word. A text of blanks and comments is no program. -/
def hasWords (text : String) : Bool :=
  (Text.lines text.toList).any fun line => Assembly.lineWords line ≠ []

/-- Shows the prompt. It is output, and not a diagnostic. -/
def ask (r : Repl) : Repl := { r with shell := r.shell.print r.prompt }

section

variable {m : Type → Type} [Monad m]

/-- Runs a text. Whatever its verdict is, the session goes on; it ends if an image cannot be
written. -/
def submit (fs : FileSystem m) (r : Repl) (text : String) : m (Repl × Except WriteError Unit) := do
  let (shell, verdict) ← r.shell.submit fs text inputName
  pure ({ r with shell }, verdict.map fun _ => ())

/-- Takes a line. Source text is run line by line. Assembly waits for the line with its return
instruction, and then is run as a whole. -/
def feed (fs : FileSystem m) (r : Repl) (line : List Char) : m (Repl × Except WriteError Unit) := do
  if r.shell.options.assembly then
    let pending := r.pending ++ String.ofList line
    if endsProgram line then Repl.submit fs { r with pending := "" } pending
    else pure ({ r with pending }, .ok ())
  else r.submit fs (String.ofList line)

/-- Ends the input. Assembly that still waits is run as well, unless it holds no word. -/
def finish (fs : FileSystem m) (r : Repl) : m (Repl × Except WriteError Unit) := do
  if hasWords r.pending then r.submit fs r.pending else pure (r, .ok ())

/-- Takes lines, asking before each of them and before the end. -/
def runLines (fs : FileSystem m) (r : Repl) : List (List UInt8) → m (Repl × Except WriteError Unit)
  | [] => r.ask.finish fs
  | line :: rest => do
    match ← r.ask.feed fs (Text.decodeUtf8 line) with
    | (r, .error e) => pure (r, .error e)
    | (r, .ok ()) => r.runLines fs rest

/-- Takes a whole input, line by line, and its end. -/
def run (fs : FileSystem m) (r : Repl) (input : List UInt8) : m (Repl × Except WriteError Unit) :=
  r.runLines fs (byteLines input)

end

end Repl

end ChunkMachine
