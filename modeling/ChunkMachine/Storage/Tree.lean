import ChunkMachine.Storage.FileSystem
import ChunkMachine.Storage.Path

set_option relaxedAutoImplicit false
set_option autoImplicit false

/-!
# Trees of files

A file system of regular files and directories as a value. Every entry has an address: the names on
the way to it from the root. Paths are followed as the operating system follows them, from the
working directory on.

The working directory has a name that no path can spell, so that whatever lies outside of it is an
otherwise empty tree.

## Main definitions

* `Entry`, `Tree` — files and directories, by address.
* `Tree.resolve` — where a path leads.
* `Tree.read`, `Tree.create`, `Tree.write`, `Tree.remove`, `Tree.rename`, `Tree.copy` — the
  operations.
* `Disk` — a tree together with the trees that were there before each change.
* `Disk.fileSystem` — the operations as a file system.
-/

namespace ChunkMachine

/-- A regular file with its content, or a directory. -/
inductive Entry where
  /-- A regular file. -/
  | file (content : List UInt8)
  /-- A directory. What is in it has an address of its own. -/
  | directory
  deriving DecidableEq, Repr

/-- The names on the way from the root to an entry. The root itself has no names. -/
abbrev Address := List (List Char)

/-- Files and directories by address. Nothing demands that the directory of an entry is there; an
entry without it is never found, as paths are followed from the root. -/
structure Tree where
  /-- The entries, each with its address; the first one of an address counts. -/
  entries : List (Address × Entry)
  deriving DecidableEq, Repr

namespace Tree

/-- The address of the working directory. A path never leads through a single dot as a name, so this
is the address of nothing else. -/
def workingDirectory : Address := [['.']]

/-- A tree with nothing but the working directory, and the root. -/
def empty : Tree := ⟨[]⟩

/-- The entry at an address. The root and the working directory are always there. -/
def get? (t : Tree) (a : Address) : Option Entry :=
  if a = [] ∨ a = workingDirectory then some .directory else t.entries.lookup a

/-- The tree without the entry at an address. All others stay, also those below it. -/
def erase (t : Tree) (a : Address) : Tree := ⟨t.entries.filter fun e => e.1 ≠ a⟩

/-- The tree with an entry at an address, in place of one that is there. -/
def put (t : Tree) (a : Address) (e : Entry) : Tree := ⟨(a, e) :: (t.erase a).entries⟩

/-! ## Following paths -/

/-- Where a path leads. -/
inductive Place where
  /-- To a directory, by a last piece that names nothing. -/
  | directory (address : Address)
  /-- To a name in a directory, perhaps with a slash behind it. -/
  | named (parent : Address) (name : List Char) (slash : Bool)
  deriving DecidableEq, Repr

/-- The pair of dots that leads to the directory above. Above the root there is the root. -/
def up : List Char := ['.', '.']

/-- How many bytes a name may have, as its characters are encoded. -/
def nameLimit : Nat := 255

/-- How many bytes a path may have, the slashes included. -/
def pathLimit : Nat := 4095

/-- The entry of a name in a directory, if there is one. A name that is too long is not looked
for. -/
def lookup (t : Tree) (parent : Address) (name : List Char) : Except OsError (Option Entry) :=
  if nameLimit < (String.ofList name).utf8ByteSize then .error .nameTooLong
  else .ok (t.get? (parent ++ [name]))

/-- The directory to which a piece of a path leads from a directory. An empty piece and a single dot
lead nowhere else. -/
def enter (t : Tree) (a : Address) (piece : List Char) : Except OsError Address :=
  if Path.isVoid piece then .ok a
  else if piece = up then .ok a.dropLast
  else
    match t.lookup a piece with
    | .error e => .error e
    | .ok none => .error .notFound
    | .ok (some (.file _)) => .error .notDirectory
    | .ok (some .directory) => .ok (a ++ [piece])

/-- Follows the pieces of a path from a directory on. Only the last one may lead to something that
is no directory, or that is not there. -/
def follow (t : Tree) (a : Address) (slash : Bool) : List (List Char) → Except OsError Place
  | [] => .ok (.directory a)
  | [last] =>
    if Path.isVoid last ∨ last = up then (t.enter a last).map .directory
    else .ok (.named a last slash)
  | piece :: rest =>
    match t.enter a piece with
    | .ok a => t.follow a slash rest
    | .error e => .error e

/-- Where a path leads. Slashes at the end are told apart from the last name. A path with a NUL is
none, and one that is too long is not followed. -/
def resolve (t : Tree) (path : String) : Except OsError Place :=
  if '\x00' ∈ path.toList then .error .nulInName
  else if pathLimit < path.utf8ByteSize then .error .nameTooLong
  else if path = "" then .error .notFound
  else
    let pieces := Path.pieces path
    let start := if pieces.head? = some [] then [] else workingDirectory
    t.follow start (pieces.getLast? = some []) (pieces.filter (· ≠ []))

/-- The entry to which a path leads. A slash behind the name asks for a directory, and a file is
refused then. -/
def stat (t : Tree) (path : String) : Except OsError Entry :=
  match t.resolve path with
  | .error e => .error e
  | .ok (.directory _) => .ok .directory
  | .ok (.named parent name slash) =>
    match t.lookup parent name with
    | .error e => .error e
    | .ok none => .error .notFound
    | .ok (some (.file content)) => if slash then .error .notDirectory else .ok (.file content)
    | .ok (some .directory) => .ok .directory

/-- The address of the file that writing to a path would make or change. A directory cannot be
written to, and a file that is not there yet has an address all the same. -/
def target (t : Tree) (path : String) : Except OsError Address :=
  match t.resolve path with
  | .error e => .error e
  | .ok (.directory _) => .error .isDirectory
  | .ok (.named parent name slash) =>
    if slash then .error .isDirectory
    else
      match t.lookup parent name with
      | .error e => .error e
      | .ok (some .directory) => .error .isDirectory
      | .ok _ => .ok (parent ++ [name])

/-- The address and the content of the file to which a path leads. The file has to be there. -/
def fileAt (t : Tree) (path : String) : Except OsError (Address × List UInt8) :=
  match t.resolve path with
  | .error e => .error e
  | .ok (.directory _) => .error .isDirectory
  | .ok (.named parent name slash) =>
    match t.lookup parent name with
    | .error e => .error e
    | .ok none => .error .notFound
    | .ok (some .directory) => .error .isDirectory
    | .ok (some (.file content)) =>
      if slash then .error .notDirectory else .ok (parent ++ [name], content)

/-! ## Operations -/

/-- The content of a file, if there is one and the path leads to it. -/
def read (t : Tree) (path : String) : Except OsError (List UInt8) := (t.fileAt path).map Prod.snd

/-- The tree with a new or changed file. Nothing else changes. -/
def write (t : Tree) (path : String) (content : List UInt8) : Except OsError Tree :=
  (t.target path).map fun a => t.put a (.file content)

/-- The tree with an empty file. A file that is there loses its content. -/
def create (t : Tree) (path : String) : Except OsError Tree := t.write path []

/-- The tree without a file. A directory cannot be removed so. -/
def remove (t : Tree) (path : String) : Except OsError Tree :=
  (t.fileAt path).map fun (a, _) => t.erase a

/-- The tree with a file moved, in place of a file that was there. A directory is neither moved nor
replaced. -/
def rename (t : Tree) (source target : String) : Except OsError Tree :=
  match t.fileAt source with
  | .error e => .error e
  | .ok (a, content) =>
    match t.resolve target with
    | .error e => .error e
    | .ok (.directory _) => .error .busy
    | .ok (.named parent name slash) =>
      match t.lookup parent name with
      | .error e => .error e
      | .ok entry =>
        if slash then .error .notDirectory
        else if entry = some .directory then .error .isDirectory
        else .ok ((t.erase a).put (parent ++ [name]) (.file content))

/-- The tree with the content of a file copied. Where it is copied to, a file is made or changed as
by writing. -/
def copy (t : Tree) (source target : String) : Except OsError Tree :=
  match t.read source with
  | .error e => .error e
  | .ok content => t.write target content

/-- The tree with a directory, and with those on the way to it. An entry that is there already is
replaced by a directory. -/
def makeDirectories (t : Tree) (a : Address) : List (List Char) → Tree
  | [] => t
  | name :: rest => (t.put (a ++ [name]) .directory).makeDirectories (a ++ [name]) rest

/-- The names on the way from the working directory to an entry below it. -/
def inside? : Address → Option Address
  | first :: rest => if [first] = workingDirectory then some rest else none
  | [] => none

/-- The entries below the working directory, each with the names that lead to it from there. -/
def listing (t : Tree) : List (Address × Entry) :=
  t.entries.filterMap fun (a, e) => (inside? a).map fun names => (names, e)

end Tree

/-! ## Disks -/

/-- A tree, and the trees that were there before each change, the latest first. -/
structure Disk where
  /-- What is on it now. -/
  tree : Tree
  /-- What was on it before each change, the latest first. -/
  past : List Tree
  deriving DecidableEq, Repr

namespace Disk

/-- Makes a change, if it is possible, and remembers the tree as it was. If it is not possible
nothing is remembered. -/
def change (f : Tree → Except OsError Tree) : StateM Disk (Except OsError Unit) := fun d =>
  match f d.tree with
  | .ok t => (.ok (), ⟨t, d.tree :: d.past⟩)
  | .error e => (.error e, d)

/-- The operations on a tree, as a file system. Looking and reading leave the disk as it is; every
other operation is one change. -/
def fileSystem : FileSystem (StateM Disk) where
  isPresent path := fun d => ((d.tree.stat path).isOk, d)
  read path := fun d => (d.tree.read path, d)
  create path := change fun t => t.create path
  write path content := change fun t => t.write path content
  remove path := change fun t => t.remove path
  rename source target := change fun t => t.rename source target
  copy source target := change fun t => t.copy source target

end Disk

end ChunkMachine
