import ChunkMachine.Text.Split

set_option relaxedAutoImplicit false
set_option autoImplicit false

/-!
# Paths

A path is a text whose pieces stand between slashes. Empty pieces and single dots say nothing, apart
from a dot or an empty piece in front. The last piece that says something is the name of the file,
unless it is a pair of dots.

## Main definitions

* `Path.fileName?` — the name of the file.
* `Path.stem?`, `Path.extension?` — that name up to, and behind, its last dot.
* `Path.directory` — the path of the directory that holds the file.
* `Path.sibling` — another file in that directory.
-/

namespace ChunkMachine.Path

/-- The pieces of a path, between its slashes. A slash in front gives an empty first piece, and one
at the end an empty last piece. -/
def pieces (path : String) : List (List Char) := Text.splitOn '/' path.toList

/-- Whether a piece says nothing: it is empty or a single dot. A path leads to the same place
without it, unless it is the first one. -/
def isVoid (piece : List Char) : Bool := piece = [] || piece = ['.']

/-- Reversed pieces without the void ones at the end; the first piece always stays. -/
def trimEnd : List (List Char) → List (List Char)
  | [] => []
  | [first] => [first]
  | piece :: rest => if isVoid piece then trimEnd rest else piece :: rest

/-- The reversed pieces of a path without the void ones at the end. So the last piece that says
something comes first. -/
def reversedPieces (path : String) : List (List Char) := trimEnd (pieces path).reverse

/-- The name of the file at a path, if its last piece is a name. A pair of dots names no file. -/
def fileName? (path : String) : Option (List Char) :=
  match reversedPieces path with
  | [] => none
  | last :: _ => if isVoid last ∨ last = ['.', '.'] then none else some last

/-- A file name in two parts, at its last dot. A dot in front belongs to the name. -/
def splitExtension (name : List Char) : List Char × Option (List Char) :=
  match name.reverse.dropWhile (· ≠ '.') with
  | _ :: last :: before =>
    ((last :: before).reverse, some (name.reverse.takeWhile (· ≠ '.')).reverse)
  | _ => (name, none)

/-- The name of the file at a path without its extension, if the path names a file. -/
def stem? (path : String) : Option (List Char) := (fileName? path).map fun n => (splitExtension n).1

/-- The extension of the file at a path, if it names a file and the name has one. -/
def extension? (path : String) : Option (List Char) :=
  (fileName? path).bind fun n => (splitExtension n).2

/-- A path of pieces, with slashes between them. -/
def ofPieces (ps : List (List Char)) : String := String.ofList (List.intercalate ['/'] ps)

/-- The path of the directory that holds the file at a path: what is before the name, and the
current directory if that is nothing. -/
def directory (path : String) : String :=
  match trimEnd (reversedPieces path).tail with
  | [] => "."
  | [[]] => "/"
  | ps => ofPieces ps.reverse

/-- A file in a directory. Behind the root no other slash is needed. -/
def join (directory : String) (name : List Char) : String :=
  if directory = "/" then String.ofList ('/' :: name)
  else directory ++ String.ofList ('/' :: name)

/-- The file of another name in the directory of the file at a path. Temporary files are named
so. -/
def sibling (path : String) (name : List Char) : String := join (directory path) name

end ChunkMachine.Path
