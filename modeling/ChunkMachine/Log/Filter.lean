import ChunkMachine.Log.Record
import ChunkMachine.Text.Split

set_option relaxedAutoImplicit false
set_option autoImplicit false

/-!
# Filters of log records

A filter says up to which level records are shown. It is written as directives between commas, each
of which holds for the targets that start with its name, or, without a name, for all. Of the
directives that hold for a record the one with the longest name decides; a filter without any shows
errors only. Behind a slash there may be a text which the message of a record must hold as well.

## Main definitions

* `LogFilter` — directives, in the order in which they were given, and a text to look for.
* `LogFilter.parse` — reads a filter, and warns of what it does not understand.
* `LogFilter.allows` — whether a record is shown.
-/

namespace ChunkMachine

/-- The records of targets that start with `name` are shown up to the rank `limit`; rank zero shows
none. A directive without a name is for all targets. -/
structure LogDirective where
  /-- The front of the targets that it is for. -/
  name : Option (List Char)
  /-- The highest rank that it shows of them. -/
  limit : Nat
  deriving DecidableEq, Repr

namespace LogDirective

/-- Whether a directive is for a target. A name is for every target that begins with it. -/
def covers (d : LogDirective) (target : List Char) : Bool :=
  match d.name with
  | none => true
  | some name => name.isPrefixOf target

/-- The number of characters that a directive asks for. Of the directives for a target, the one that
asks for most decides. -/
def nameLength (d : LogDirective) : Nat :=
  match d.name with
  | none => 0
  | some name => name.length

end LogDirective

/-- Directives, in the order in which they were given, and a text that messages must hold. -/
structure LogFilter where
  /-- The directives, one for each name. -/
  directives : List LogDirective
  /-- The text that a message must hold to be shown. -/
  needle : List Char
  deriving DecidableEq, Repr

namespace LogFilter

/-- The filter that was given no directives. It shows errors only, see `limitFor`. -/
def empty : LogFilter := ⟨[], []⟩

/-- The words for ranks, in order. The first one shows nothing at all. -/
def rankWords : List String := ["off", "error", "warn", "info", "debug", "trace"]

/-- The rank of the most talkative level. -/
def maxRank : Nat := LogLevel.trace.rank

/-- The rank that a word names, in any case. -/
def rank? (word : List Char) : Option Nat :=
  let word := String.ofList (word.map Char.toLower)
  (rankWords.zipIdx.find? fun w => w.1 = word).map Prod.snd

/-- A text without the blanks around it. Blanks inside stay. -/
def trim (cs : List Char) : List Char :=
  ((cs.dropWhile Text.isBlank).reverse.dropWhile Text.isBlank).reverse

/-- A directive, or the part of it that cannot be understood. A lone word is a level, or else a
target that is shown in full. -/
def readDirective (spec : List Char) : Except (List Char) LogDirective :=
  match Text.splitOn '=' spec with
  | [word] =>
    match rank? word with
    | some limit => .ok ⟨none, limit⟩
    | none => .ok ⟨some word, maxRank⟩
  | [name, level] =>
    let level := trim level
    if level = [] then .ok ⟨some name, maxRank⟩
    else
      match rank? level with
      | some limit => .ok ⟨some name, limit⟩
      | none => .error level
  | _ => .error spec

/-- The warning about a part of a filter. The other parts are still read. -/
def warning (part : List Char) : String :=
  s!"warning: invalid logging spec '{String.ofList part}', ignoring it"

/-- The warning about a filter with more slashes than one. Of such a filter nothing is read. -/
def slashWarning (spec : String) : String :=
  s!"warning: invalid logging spec '{spec}' (too many '/'s), ignoring it"

/-- The filter with a directive, in the place of the one of the same name or else at the end. A
directive without a name takes the place of one without a name. -/
def insert (f : LogFilter) (d : LogDirective) : LogFilter :=
  { f with directives :=
      if f.directives.any (fun e => e.name = d.name) then
        f.directives.map fun e => if e.name = d.name then d else e
      else f.directives ++ [d] }

/-- Reads the directives of a filter one after another. One that cannot be read is left out, with a
warning. -/
def parseParts (f : LogFilter) (warnings : List String) :
    List (List Char) → LogFilter × List String
  | [] => (f, warnings)
  | part :: rest =>
    match readDirective part with
    | .ok d => parseParts (f.insert d) warnings rest
    | .error bad => parseParts f (warnings ++ [warning bad]) rest

/-- Reads directives between commas. Blank parts are skipped without a warning. -/
def parseDirectives (f : LogFilter) (spec : List Char) : LogFilter × List String :=
  f.parseParts [] (((Text.splitOn ',' spec).map trim).filter (· ≠ []))

/-- Reads a filter, and tells what was not understood. Behind a slash stands the text that messages
must hold. -/
def parse (spec : String) : LogFilter × List String :=
  match Text.splitOn '/' spec.toList with
  | [directives] => empty.parseDirectives directives
  | [directives, needle] => LogFilter.parseDirectives ⟨[], needle⟩ directives
  | _ => (empty, [slashWarning spec])

/-- The filter that shows all targets up to a level. -/
def upTo (level : LogLevel) : LogFilter := ⟨[⟨none, level.rank⟩], []⟩

/-- The directive with the longest name of those that are for a target; of two as long, the later
one. -/
def decisive? (ds : List LogDirective) (target : String) : Option LogDirective :=
  (ds.filter fun d => d.covers target.toList).foldl (fun best d =>
    match best with
    | none => some d
    | some b => if b.nameLength ≤ d.nameLength then some d else some b) none

/-- The highest rank that a filter shows of a target. Without any directives this is that of errors,
for all targets; otherwise a target that no directive is for is not shown. -/
def limitFor (f : LogFilter) (target : String) : Nat :=
  if f.directives = [] then LogLevel.error.rank
  else
    match decisive? f.directives target with
    | none => 0
    | some d => d.limit

/-- Whether a filter shows a record: its level must be within the limit of its target, and its
message must hold the text that is asked for. -/
def allows (f : LogFilter) (r : LogRecord) : Bool :=
  r.level.rank ≤ f.limitFor r.target ∧ r.message.contains (String.ofList f.needle)

end LogFilter

/-- A record as a log line: its level and its message, the further lines of which are indented. -/
def LogRecord.render (r : LogRecord) : String :=
  let message := r.message.toList.flatMap fun c => if c = '\n' then "\n    ".toList else [c]
  s!"[{r.level.name}] {String.ofList message}"

end ChunkMachine
