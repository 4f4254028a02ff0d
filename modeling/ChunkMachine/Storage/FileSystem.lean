set_option relaxedAutoImplicit false
set_option autoImplicit false

/-!
# File systems

The operations on files that the program needs, over any monad in which they take place: a pure one
over trees of files, or the real one.

## Main definitions

* `OsError` — why an operation fails.
* `FileSystem` — the operations.
-/

namespace ChunkMachine

/-- Why an operation on files fails: the number by which the operating system knows the reason, if
it was asked at all, and the reason. -/
structure OsError where
  /-- The number of the reason. -/
  code : Option Nat
  /-- The reason in words. -/
  reason : String
  deriving DecidableEq, Repr

namespace OsError

/-- Something on the way, or at its end, is not there. -/
def notFound : OsError := ⟨some 2, "No such file or directory"⟩

/-- The root or the working directory would be replaced. -/
def busy : OsError := ⟨some 16, "Device or resource busy"⟩

/-- Something that should be a directory is a file. -/
def notDirectory : OsError := ⟨some 20, "Not a directory"⟩

/-- Something that should be a file is a directory. -/
def isDirectory : OsError := ⟨some 21, "Is a directory"⟩

/-- A name, or the whole path, has more bytes than it may have. -/
def nameTooLong : OsError := ⟨some 36, "File name too long"⟩

/-- The path has a character that no path can have, so the operating system was not asked. -/
def nulInName : OsError := ⟨none, "file name contained an unexpected NUL byte"⟩

/-- The text of an error. If the operating system was asked, its number stands behind the reason. -/
def message (e : OsError) : String :=
  match e.code with
  | some code => s!"{e.reason} (os error {code})"
  | none => e.reason

end OsError

/-- The operations on files, each on a path. -/
structure FileSystem (m : Type → Type) where
  /-- Whether there is a file or a directory. -/
  isPresent : String → m Bool
  /-- The content of a file. -/
  read : String → m (Except OsError (List UInt8))
  /-- Makes a file without content, or empties the one that is there. -/
  create : String → m (Except OsError Unit)
  /-- Gives a file that was created its content. -/
  write : String → List UInt8 → m (Except OsError Unit)
  /-- Removes a file. -/
  remove : String → m (Except OsError Unit)
  /-- Moves a file from the first path to the second, in place of a file that is there. -/
  rename : String → String → m (Except OsError Unit)
  /-- Copies the content of the file at the first path to the second. -/
  copy : String → String → m (Except OsError Unit)

end ChunkMachine
