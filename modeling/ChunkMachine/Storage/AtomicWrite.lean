import ChunkMachine.Numeric.Power
import ChunkMachine.Storage.FileSystem
import ChunkMachine.Storage.Path

set_option relaxedAutoImplicit false
set_option autoImplicit false

/-!
# Replacing a file

New content is written to a temporary file beside its target, which then takes the place of the
target. No other file is touched: the temporary file has a name that is still free.

## Main definitions

* `WriteError` — why a file was not replaced.
* `temporary` — the names of temporary files.
* `replaceFile` — writes new content to a path.
-/

namespace ChunkMachine

/-- Why a file was not replaced. -/
inductive WriteError where
  /-- The path names no file. -/
  | noFileName (path : String)
  /-- All names of temporary files are taken. -/
  | noFreeName (path : String)
  /-- The temporary file could not be made. -/
  | create (temporary : String) (cause : OsError)
  /-- Another operation failed. -/
  | system (cause : OsError)
  deriving DecidableEq, Repr

/-- The text of a write error. An error of the operating system speaks for itself, and for a
temporary file its path is told. -/
def WriteError.message : WriteError → String
  | noFileName path => "chemin de sortie sans nom: " ++ path
  | noFreeName path => "aucun nom temporaire libre: " ++ path
  | create temporary cause => s!"création: {temporary}: {cause.message}"
  | system cause => cause.message

/-- The temporary file with a given number for the file of a given name at a path. It is in the same
directory, so that it can be moved in place of the file. -/
def temporary (path : String) (name : List Char) (i : Nat) : String :=
  Path.sibling path (name ++ ".tmp".toList ++ (toString i).toList)

/-- How many temporary files are tried. The numbers are words of 32 bits. -/
def temporaryLimit : Nat := 2 ^ 32

section

variable {m : Type → Type} [Monad m]

/-- The first free one of `n` temporary files, from number `i` on. A name is free if there is
neither a file nor a directory. -/
def freeTemporary (fs : FileSystem m) (path : String) (name : List Char) :
    Nat → Nat → m (Option String)
  | _, 0 => pure none
  | i, n + 1 => do
    if (← fs.isPresent (temporary path name i)) then freeTemporary fs path name (i + 1) n
    else pure (some (temporary path name i))

/-- Puts a temporary file in the place of its target. A file that is there is removed first, and if
the temporary file cannot be moved, it is copied and removed. -/
def install (fs : FileSystem m) (source target : String) : m (Except OsError Unit) := do
  if (← fs.isPresent target) then
    let _ ← fs.remove target
  match ← fs.rename source target with
  | .ok () => pure (.ok ())
  | .error _ =>
    match ← fs.copy source target with
    | .ok () => fs.remove source
    | .error e => pure (.error e)

/-- Writes new content to a path, by way of a temporary file beside it. If anything fails before the
content is in the temporary file, the target was not touched. -/
def replaceFile (fs : FileSystem m) (path : String) (content : List UInt8) :
    m (Except WriteError Unit) := do
  match Path.fileName? path with
  | none => pure (.error (.noFileName path))
  | some name =>
    match ← freeTemporary fs path name 0 temporaryLimit with
    | none => pure (.error (.noFreeName path))
    | some source =>
      match ← fs.create source with
      | .error e => pure (.error (.create source e))
      | .ok () =>
        match ← fs.write source content with
        | .error e => pure (.error (.system e))
        | .ok () => do return (← install fs source path).mapError .system

end

end ChunkMachine
