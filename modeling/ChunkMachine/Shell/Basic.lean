import ChunkMachine.Assembly
import ChunkMachine.Image
import ChunkMachine.Machine.Call
import ChunkMachine.Storage.AtomicWrite
import ChunkMachine.Text.Utf8
import ChunkMachine.Token.Dump

set_option relaxedAutoImplicit false
set_option autoImplicit false

/-!
# The shell

A shell runs texts and images on one machine. Results, listings and dumps go to the machine's sink,
which for a shell never fails; diagnostics and log records are kept apart from it, in order.

## Main definitions

* `ShellOptions`, `TokenFormat` — what a shell shows and does besides running.
* `Notice` — a diagnostic or a log record.
* `Shell` — a machine with options and notices.
* `Shell.launch`, `Shell.submit`, `Shell.openFile` — running a chunk, a text and a file.
-/

namespace ChunkMachine

/-- The forms of token dumps. -/
inductive TokenFormat where
  /-- One row for each token. -/
  | table
  /-- An array of objects. -/
  | json
  deriving DecidableEq, Repr

/-- What a shell does with what it runs. Some options only show something, see `ShellOptions.trace`
and those above it; the others say what is done. -/
structure ShellOptions where
  /-- Texts are assembly, and not lox source. -/
  assembly : Bool
  /-- The tokens of a text are dumped before it is run. -/
  tokens : Option TokenFormat
  /-- A chunk is listed before it is run. -/
  listing : Bool
  /-- Listings show the pool. -/
  verbose : Bool
  /-- The machine records every instruction. -/
  trace : Bool
  /-- The image of a chunk is written to this path before it is run. -/
  emit : Option String
  deriving DecidableEq, Repr

/-- Source text is scanned, and nothing is shown besides. This is what a program without arguments
does. -/
def ShellOptions.plain : ShellOptions := ⟨false, none, false, false, false, none⟩

/-- What is told beside the output: a diagnostic, or a log record. -/
inductive Notice where
  /-- A line that is meant for the user. -/
  | diagnostic (text : String)
  /-- A record of the machine, which the user may not want to see. -/
  | record (record : LogRecord)
  deriving DecidableEq, Repr

/-- The text of a notice that is a diagnostic. Records have none. -/
def Notice.diagnostic? : Notice → Option String
  | diagnostic text => some text
  | record _ => none

/-- A machine, what is to be done besides running, whether tags are coloured, and what was told so
far. -/
structure Shell where
  /-- What is done with what is run. -/
  options : ShellOptions
  /-- Whether tags are coloured. -/
  color : Bool
  /-- The machine, which stays the same for all that is run. -/
  machine : Machine
  /-- What was told so far, diagnostics and records in the order in which they were made. -/
  notices : Array Notice

/-- The shell after some work, and what the work gave, unless a file could not be written. The shell
is left in either case, as it may have told something. -/
abbrev Outcome (α : Type) := Shell × Except WriteError α

/-- The colours of tags: one for what was written, and one for what was read. -/
inductive TagColor where
  /-- For an image that was written. -/
  | green
  /-- For an image that was loaded. -/
  | blue
  deriving DecidableEq, Repr

/-- A tag, in bold letters of a colour if colours are on. -/
def tagText (color : Bool) (hue : TagColor) (tag : String) : String :=
  let code :=
    match hue with
    | .green => "32"
    | .blue => "34"
  if color then "\x1b[" ++ code ++ ";1m" ++ tag ++ "\x1b[0m" else tag

namespace Shell

/-- A fresh shell: a fresh machine that is traced if the options say so, and nothing told. Its sink
never fails. -/
def new (options : ShellOptions) (color : Bool) : Shell :=
  ⟨options, color, .new { MachineConfig.standard with trace := options.trace } .unlimited, #[]⟩

/-- Adds a diagnostic, behind what was told before. -/
def tell (s : Shell) (text : String) : Shell :=
  { s with notices := s.notices.push (.diagnostic text) }

/-- Adds a status line: a tag, a path and a size. It is a diagnostic like any other. -/
def tellStatus (s : Shell) (hue : TagColor) (tag path : String) (size : Nat) : Shell :=
  s.tell s!"{tagText s.color hue tag} {path} ({size} bytes)"

/-- Writes a text to the sink. As the sink never fails, there is no answer to be looked at. -/
def print (s : Shell) (text : String) : Shell :=
  { s with machine := { s.machine with sink := (s.machine.sink.write (Sink.textBytes text)).2 } }

/-- The shell with its machine after a call; the machine's records become notices. So between two
texts there are no records on the machine. -/
def resume (s : Shell) (m : Machine) : Shell :=
  { s with machine := { m with log := #[] }, notices := s.notices ++ m.log.map Notice.record }

/-- Tells the error of the machine's last call, if there was one. Behind a call that went well there
is none, whatever the calls before gave. -/
def tellFailure (s : Shell) : Shell :=
  match s.machine.failure with
  | none => s
  | some e => s.tell e.message

/-! ## Texts and chunks -/

/-- Dumps the tokens of a text, if that is asked for. The text is scanned for this alone, and its
tokens are recorded; running it scans it once more. -/
def showTokens (s : Shell) (text : String) : Shell :=
  match s.options.tokens with
  | none => s
  | some format =>
    let tokens := tokenize text
    let s := s.resume (s.machine.noteTokens tokens)
    match format with
    | .table => s.print (TokenDump.table tokens)
    | .json => s.print (TokenDump.json tokens ++ "\n")

/-- Scans source text and tells its errors. It gives no chunk, so there is nothing to be written,
and that is told if an image is asked for. -/
def checkSource (s : Shell) (text : String) : Verdict × Shell :=
  let s :=
    if s.options.emit.isSome then
      s.tell "warning: --emit ignored, lox source produces no chunk yet"
    else s
  let (verdict, m) := s.machine.scanSource text
  (verdict, (s.resume m).tellFailure)

/-- Lists a chunk, if that is asked for, with its constants or without. -/
def showListing (s : Shell) (c : Chunk) (name : String) : Shell :=
  if s.options.listing then
    s.print (if s.options.verbose then Listing.renderFull c name else Listing.render c name)
  else s

/-- Lists a chunk, runs it on the machine and tells its error. The listing comes first, so it is
there whatever the run does. -/
def call (s : Shell) (c : Chunk) (name : String) : Verdict × Shell :=
  let s := s.showListing c name
  let (verdict, m) := s.machine.call c
  (verdict, (s.resume m).tellFailure)

section

variable {m : Type → Type} [Monad m]

/-- Writes the image of a chunk, if that is asked for, and tells so if it went well. -/
def writeImage (fs : FileSystem m) (s : Shell) (c : Chunk) : m (Outcome Unit) := do
  match s.options.emit with
  | none => pure (s, .ok ())
  | some path =>
    let image := Image.encode c
    match ← replaceFile fs path image with
    | .error e => pure (s, .error e)
    | .ok () => pure (s.tellStatus .green "emit" path image.length, .ok ())

/-- Runs a chunk under a name. A chunk whose image cannot be written is neither listed nor run. -/
def launch (fs : FileSystem m) (s : Shell) (c : Chunk) (name : String) :
    m (Outcome Verdict) := do
  match ← s.writeImage fs c with
  | (s, .error e) => pure (s, .error e)
  | (s, .ok ()) =>
    let (verdict, s) := s.call c name
    pure (s, .ok verdict)

/-- Runs a text under a name, as assembly or as source. An error of the assembly is told, and gives
no chunk. -/
def submit (fs : FileSystem m) (s : Shell) (text name : String) : m (Outcome Verdict) := do
  let s := s.showTokens text
  if s.options.assembly then
    match Assembly.assemble text with
    | .error e => pure (s.tell e.message, .ok .compileError)
    | .ok c => s.launch fs c name
  else
    let (verdict, s) := s.checkSource text
    pure (s, .ok verdict)

/-! ## Files -/

/-- The extension of files that hold images. All other files are taken for text. -/
def imageExtension : List Char := "loxc".toList

/-- The exit code for a file that cannot be read or written. It is the customary one for such an
error. -/
def ioErrorCode : Nat := 74

/-- The name under which the content of a file is run: that of the file, without its directory and
its extension. A path that names no file has a name of its own. -/
def nameOf (path : String) : String :=
  match Path.stem? path with
  | some stem => String.ofList stem
  | none => "script"

/-- Runs an image that was read from a path. One that cannot be loaded is told about, with the path,
and nothing is run. -/
def openImage (fs : FileSystem m) (s : Shell) (path : String) (image : List UInt8) :
    m (Outcome Verdict) := do
  match Image.load image with
  | .error e => pure (s.tell s!"{path}: {e.message}", .ok .compileError)
  | .ok c => (s.tellStatus .blue "load" path image.length).launch fs c (nameOf path)

/-- Runs a file, as an image or as text, and gives an exit code. What it is taken for is told by its
name alone. Text may be of any bytes. -/
def openFile (fs : FileSystem m) (s : Shell) (path : String) : m (Outcome Nat) := do
  match ← fs.read path with
  | .error e => pure (s.tell s!"Could not read file \"{path}\": {e.message}", .ok ioErrorCode)
  | .ok bytes =>
    let (s, verdict) ←
      if Path.extension? path = some imageExtension then s.openImage fs path bytes
      else s.submit fs (String.ofList (Text.decodeUtf8 bytes)) (nameOf path)
    pure (s, verdict.map Verdict.exitCode)

end

end Shell

end ChunkMachine
