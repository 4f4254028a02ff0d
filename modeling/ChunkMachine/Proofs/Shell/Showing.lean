import ChunkMachine.Proofs.Machine.Comparison
import ChunkMachine.Shell.Basic

set_option relaxedAutoImplicit false
set_option autoImplicit false

/-!
# What a shell shows besides

A shell can be asked to dump tokens, to list chunks and to record instructions. All of that is
showing, and the options without it are the quiet form of the options. The dump and the listing are
written before anything is run, so that what is shown for a text or for a file can be told without
running it. What is told is diagnostics and the records of the machine, of which some are traces.

Two shells are compared as their machines are: either with the same options, and then both show the
same; or the first one with the quiet form of the options, and then only the second one shows
anything.

## Main definitions

* `ShellOptions.quiet` — the options of a shell that shows nothing besides.
* `ShellOptions.dump`, `ShellOptions.listed` — what another one shows for a text and for a chunk.
* `Shell.shownForText`, `Shell.shownForFile` — what it writes before it runs a text or a file.
* `Shell.told` — what was told, traces aside.
* `Comparison.options`, `Comparison.shown` — the options of the first of two shells, and what only
  the second one shows.
* `Shell.counted` — what was told of that which counts in a comparison.
-/

namespace ChunkMachine

namespace ShellOptions

/-- The same options, but for those that only show: no dump, no listing and no traces. Whether the
chunk is assembled, and whether its image is written, stays as it is. -/
def quiet (o : ShellOptions) : ShellOptions :=
  { o with tokens := none, listing := false, verbose := false, trace := false }

/-- The dump of the tokens of a text, if it is asked for. A table ends its own lines, and a line
feed is added to the other form. -/
def dump (o : ShellOptions) (text : String) : String :=
  match o.tokens with
  | none => ""
  | some .table => TokenDump.table (tokenize text)
  | some .json => TokenDump.json (tokenize text) ++ "\n"

/-- The listing of a chunk under a name, if it is asked for. The verbose one has the constants and
the lines as well. -/
def listingText (o : ShellOptions) (c : Chunk) (name : String) : String :=
  if o.listing then
    if o.verbose then Listing.renderFull c name else Listing.render c name
  else ""

section Files

variable {σ : Type} (fs : FileSystem (StateM σ)) (o : ShellOptions)

/-- Whether the image of a chunk is written, if that is asked for. A chunk whose image is not
written is neither listed nor run. -/
def emits (c : Chunk) (d : σ) : Bool :=
  match o.emit with
  | none => true
  | some path => (replaceFile fs path (Image.encode c) d).1.isOk

/-- The listing that is shown if there is a chunk: none, if its image should be written and is not.
Then the chunk is not run, either. -/
def listed (chunk : Option Chunk) (name : String) (d : σ) : String :=
  match chunk with
  | none => ""
  | some c => if o.emits fs c d then o.listingText c name else ""

end Files

end ShellOptions

/-- Whether a notice is a record, and a trace. Such notices are set aside where a shell that shows
more is compared with one that shows less. -/
def Notice.isTrace : Notice → Bool
  | diagnostic _ => false
  | record r => r.isTrace

namespace Shell

/-- What was told, traces aside. It is for whoever uses the program, and has to be the same for a
quiet shell. -/
def told (s : Shell) : List Notice := s.notices.toList.filter fun n => !n.isTrace

section Files

variable {σ : Type} (fs : FileSystem (StateM σ)) (o : ShellOptions)

/-- What is written before a text is run under a name: the dump of its tokens, and the listing of
its chunk if it is assembled. -/
def shownForText (text name : String) (d : σ) : List UInt8 :=
  let chunk := if o.assembly then (Assembly.assemble text).toOption else none
  Sink.textBytes (o.dump text) ++ Sink.textBytes (o.listed fs chunk name d)

/-- What is written before a file is run, if it can be read: for an image the listing of its chunk,
and for any other file what is written before its text. -/
def shownForFile (path : String) (d : σ) : List UInt8 :=
  match fs.read path d with
  | (.error _, _) => []
  | (.ok bytes, d) =>
    if Path.extension? path = some imageExtension then
      Sink.textBytes (o.listed fs (Image.load bytes).toOption (nameOf path) d)
    else shownForText fs o (String.ofList (Text.decodeUtf8 bytes)) (nameOf path) d

end Files

end Shell

/-! ## Two shells -/

namespace Comparison

/-- The options of the first of two shells, by those of the second one. If traces are set aside, the
first one is quiet. -/
def options : Comparison → ShellOptions → ShellOptions
  | same, o => o
  | muted, o => o.quiet

/-- Of what the second of two shells shows, what the first one does not show: nothing if both show
everything. -/
def shown : Comparison → List UInt8 → List UInt8
  | same, _ => []
  | muted, bytes => bytes

/-- Where nothing is shown, nothing is missing, whatever the comparison is. -/
@[simp]
theorem shown_nil (k : Comparison) : k.shown [] = [] := by cases k <;> rfl

/-- What is missing of two things that are shown is what is missing of each. With this, the dump and
the listing can be shown one after the other. -/
theorem shown_append (k : Comparison) (bytes more : List UInt8) :
    k.shown (bytes ++ more) = k.shown bytes ++ k.shown more := by cases k <;> rfl

/-- The empty text shows nothing. It is what a dump or a listing is that was not asked for. -/
@[simp]
theorem shown_empty (k : Comparison) : k.shown (Sink.textBytes "") = [] := by
  simp [Sink.textBytes]

/-- Whether text is assembled does not depend on what is shown. -/
@[simp]
theorem assembly_options (k : Comparison) (o : ShellOptions) :
    (k.options o).assembly = o.assembly := by cases k <;> rfl

/-- Nor does it whether an image is written, and at which path. -/
@[simp]
theorem emit_options (k : Comparison) (o : ShellOptions) : (k.options o).emit = o.emit := by
  cases k <;> rfl

/-- Whether a notice counts in a comparison. Diagnostics always do, and records as on a machine. -/
def tells (k : Comparison) : Notice → Bool
  | .diagnostic _ => true
  | .record r => k.counts r

end Comparison

namespace Shell

/-- What was told of that which counts in a comparison, in order. This is how shells are compared,
as their machines are by their records. -/
def counted (k : Comparison) (s : Shell) : List Notice := s.notices.toList.filter k.tells

/-- Between shells with the same options all notices count, the traces included. -/
theorem counted_same (s : Shell) : s.counted .same = s.notices.toList :=
  List.filter_eq_self.2 fun n _ => by cases n <;> rfl

/-- If one of the shells is quiet, all notices but traces count. -/
theorem counted_muted (s : Shell) : s.counted .muted = s.told :=
  List.filter_congr fun n _ => by cases n <;> rfl

/-- A diagnostic counts in every comparison, and stands behind what was told before. -/
theorem counted_tell (k : Comparison) (s : Shell) (text : String) :
    (s.tell text).counted k = s.counted k ++ [.diagnostic text] := by
  simp [counted, tell, Comparison.tells]

/-- Of the records that a machine comes back with, those count that count on the machine. They are
told behind what was told before. -/
theorem counted_resume (k : Comparison) (s : Shell) (m : Machine) :
    (s.resume m).counted k = s.counted k ++ (m.counted k).map Notice.record := by
  have hrecords : (m.log.toList.map Notice.record).filter k.tells =
      (m.counted k).map Notice.record := by
    rw [List.filter_map]
    rfl
  rw [counted, resume, Array.toList_append, List.filter_append, Array.toList_map, hrecords]
  rfl

end Shell

end ChunkMachine
