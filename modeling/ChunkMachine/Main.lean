import ChunkMachine.Shell.Program

set_option relaxedAutoImplicit false
set_option autoImplicit false

/-!
# The command line

The program on the real file system and the standard streams. Everything it decides is decided by
`ChunkMachine.Program` and `ChunkMachine.Repl`; at the prompt, output appears line by line.
-/

namespace ChunkMachine.CommandLine

/-- The error of the operating system behind a failure of the runtime. -/
def osError : IO.Error → OsError
  | .noFileOrDirectory _ code reason => ⟨some code.toNat, reason⟩
  | .alreadyExists _ code reason => ⟨some code.toNat, reason⟩
  | .otherError code reason => ⟨some code.toNat, reason⟩
  | .resourceBusy code reason => ⟨some code.toNat, reason⟩
  | .unsupportedOperation code reason => ⟨some code.toNat, reason⟩
  | .hardwareFault code reason => ⟨some code.toNat, reason⟩
  | .illegalOperation code reason => ⟨some code.toNat, reason⟩
  | .invalidArgument _ code reason => ⟨some code.toNat, reason⟩
  | .permissionDenied _ code reason => ⟨some code.toNat, reason⟩
  | .resourceExhausted _ code reason => ⟨some code.toNat, reason⟩
  | .inappropriateType _ code reason => ⟨some code.toNat, reason⟩
  | .noSuchThing _ code reason => ⟨some code.toNat, reason⟩
  | e => ⟨none, toString e⟩

/-- Runs an action that may fail, and gives its failure as a reason. With this the real files have
the same interface as a disk. -/
def attempt {α : Type} (action : IO α) : IO (Except OsError α) := do
  try pure (.ok (← action)) catch e => pure (.error (osError e))

/-- The bytes of a file, all at once. -/
def readBytes (path : String) : IO (List UInt8) := do
  let handle ← IO.FS.Handle.mk path .read
  return (← handle.readBinToEnd).toList

/-- Gives a file its content. The file is made if it is not there. -/
def writeBytes (path : String) (content : List UInt8) : IO Unit :=
  IO.FS.writeBinFile path ⟨content.toArray⟩

/-- The real file system. Whether there is a file is found out by opening it. -/
def fileSystem : FileSystem IO where
  isPresent path := do return (← attempt (IO.FS.Handle.mk path .read)).isOk
  read path := attempt (readBytes path)
  create path := attempt (writeBytes path [])
  write path content := attempt (writeBytes path content)
  remove path := attempt (IO.FS.removeFile path)
  rename source target := attempt (IO.FS.rename source target)
  copy source target := attempt do writeBytes target (← readBytes source)

/-- Writes bytes and a text to the two output streams, the bytes first. -/
def display (output : List UInt8) (diagnostics : String) : IO Unit := do
  let out ← IO.getStdout
  out.write ⟨output.toArray⟩
  out.flush
  IO.eprint diagnostics

/-- Shows what a shell has written and told, and forgets it. Values and the error of the last call
stay on the machine. -/
def showShell (f : LogFilter) (s : Shell) : IO Shell := do
  display s.machine.sink.content (Program.noticesText f s.notices.toList)
  return { s with machine := s.machine.collected, notices := #[] }

/-- Reads bytes up to and with a line feed, after the reversed ones that were read. -/
partial def readLine (input : IO.FS.Stream) (bytes : List UInt8) : IO (List UInt8) := do
  match (← input.read 1).toList with
  | [] => return bytes.reverse
  | byte :: _ =>
    if byte = 10 then return (byte :: bytes).reverse else readLine input (byte :: bytes)

/-- Takes lines from the standard input until it ends. -/
partial def promptLoop (f : LogFilter) (input : IO.FS.Stream) (r : Repl) : IO UInt32 := do
  let r := { r with shell := (← showShell f r.ask.shell) }
  let line ← readLine input []
  let (r, result) ←
    if line.isEmpty then r.finish fileSystem else r.feed fileSystem (Text.decodeUtf8 line)
  let r := { r with shell := (← showShell f r.shell) }
  match result with
  | .error e =>
    IO.eprintln (Program.failureText e)
    return Shell.ioErrorCode.toUInt32
  | .ok () => if line.isEmpty then return 0 else promptLoop f input r

/-- Runs the program with arguments that were understood. -/
def runArguments (a : Arguments) (env : Environment) : IO UInt32 := do
  match Command.ofScripts a.scripts with
  | .prompt text =>
    let (f, warnings) := Program.filterOf a env
    IO.eprint (Listing.unlines warnings)
    let s := Shell.new a.shellOptions (Program.usesColor a.color env)
    promptLoop f (← IO.getStdin) (.new text s)
  | _ =>
    let r ← Program.runArguments fileSystem a env []
    display r.output r.diagnostics
    return r.code.toUInt32

end ChunkMachine.CommandLine

/-- Runs the program. -/
def main (args : List String) : IO UInt32 := do
  let env : ChunkMachine.Environment := ⟨← IO.getEnv "CLICOLOR_FORCE", ← IO.getEnv "RUST_LOG"⟩
  match ChunkMachine.Arguments.read args with
  | .ok a => ChunkMachine.CommandLine.runArguments a env
  | .error _ =>
    let r ← ChunkMachine.Program.run ChunkMachine.CommandLine.fileSystem args env []
    ChunkMachine.CommandLine.display r.output r.diagnostics
    if r.code ≠ 0 then IO.eprintln ChunkMachine.usageText
    return r.code.toUInt32
