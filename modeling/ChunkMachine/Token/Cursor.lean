import ChunkMachine.Token.Scanner

set_option relaxedAutoImplicit false
set_option autoImplicit false

/-!
# The scanner on bytes

A text is stored as the bytes of its UTF-8 form, and this is where a scanner works: it looks at one
byte or two, moves over bytes, and cuts its tokens out of the text between two byte positions. Such
a cut is possible only where both positions lie between characters.

## Main definitions

* `Text.slice?` — the part of a text between two byte positions.
* `TokenKind.ofLetters` — tells reserved words from identifiers by their first letters.
* `Cursor` — a position in a text, with the start of the token under construction.
* `Cursor.scan` — the next token.
* `Cursor.lexeme?` — what that token shows.
-/

namespace ChunkMachine

/-- The part of a text between two byte positions, if both lie between characters and in order. A
text can be cut there and nowhere else. -/
def Text.slice? (text : String) (start stop : Nat) : Option (List Char) :=
  if h : (⟨start⟩ : String.Pos.Raw).IsValid text ∧ (⟨stop⟩ : String.Pos.Raw).IsValid text ∧
      start ≤ stop then
    some (text.extract ⟨⟨start⟩, h.1⟩ ⟨⟨stop⟩, h.2.1⟩).toList
  else none

/-- The kind of a word. One letter or two leave at most one reserved word, and what follows them
is compared with the rest of it. -/
def TokenKind.ofLetters (cs : List Char) : TokenKind :=
  let reserved (skipped : Nat) (rest : String) (word : Keyword) : TokenKind :=
    if cs.drop skipped = rest.toList then keyword word else identifier
  match cs with
  | 'a' :: _ => reserved 1 "nd" .and
  | 'c' :: _ => reserved 1 "lass" .class
  | 'e' :: _ => reserved 1 "lse" .else
  | 'f' :: 'a' :: _ => reserved 2 "lse" .false
  | 'f' :: 'o' :: _ => reserved 2 "r" .for
  | 'f' :: 'u' :: _ => reserved 2 "n" .fun
  | 'i' :: _ => reserved 1 "f" .if
  | 'n' :: _ => reserved 1 "il" .nil
  | 'o' :: _ => reserved 1 "r" .or
  | 'p' :: _ => reserved 1 "rint" .print
  | 'r' :: _ => reserved 1 "eturn" .return
  | 's' :: _ => reserved 1 "uper" .super
  | 't' :: 'h' :: _ => reserved 2 "is" .this
  | 't' :: 'r' :: _ => reserved 2 "ue" .true
  | 'v' :: _ => reserved 1 "ar" .var
  | 'w' :: _ => reserved 1 "hile" .while
  | _ => identifier

/-- Whether a byte continues a character that an earlier byte has started. In a text such bytes
stand nowhere else. -/
def isContinuation (b : UInt8) : Bool := b &&& 0xC0 = 0x80

/-- A position in a text. The token under construction starts at the byte `start` and on the line
`startLine`; the next byte to look at is the byte `current`, on the line `line`. -/
structure Cursor where
  /-- The whole text, which does not change. -/
  text : String
  /-- The byte at which the token under construction starts. -/
  start : Nat
  /-- The next byte to look at. -/
  current : Nat
  /-- The line of that byte. -/
  line : UInt32
  /-- The line on which the token starts. -/
  startLine : UInt32

namespace Cursor

/-- The cursor at the start of a text, on the first line. -/
def ofString (text : String) : Cursor := ⟨text, 0, 0, 1, 1⟩

/-- The bytes of the text, as its characters are encoded. -/
def bytes (c : Cursor) : Array UInt8 := c.text.toUTF8.data

/-- The byte ahead, if any. At the end of the text there is none. -/
def peek (c : Cursor) : Option UInt8 := c.bytes[c.current]?

/-- The byte behind the byte ahead, if any. No more than two bytes are ever looked at ahead. -/
def peekNext (c : Cursor) : Option UInt8 := c.bytes[c.current + 1]?

/-- Behind the byte `b`, which is the byte ahead. Line feeds are counted here and nowhere else. -/
def pass (c : Cursor) (b : UInt8) : Cursor :=
  { c with current := c.current + 1, line := if b = '\n'.toUInt8 then c.line + 1 else c.line }

/-- Takes the byte ahead, whatever it is. At the end of the text there is nothing to take. -/
def advance (c : Cursor) : Option (UInt8 × Cursor) := c.peek.map fun b => (b, c.pass b)

/-- Takes the byte ahead if it is the expected one, and otherwise leaves it. -/
def eat (c : Cursor) (expected : UInt8) : Option Cursor :=
  if c.peek = some expected then some (c.pass expected) else none

/-- The next token starts here, behind all that was passed. -/
def mark (c : Cursor) : Cursor := { c with start := c.current, startLine := c.line }

/-- The number of bytes ahead. It bounds what a call of the scanner can still pass, and it never
grows. -/
def left (c : Cursor) : Nat := c.bytes.size - c.current

/-- A byte that is passed takes the cursor nearer to the end, which is why passing a class of bytes
ends. -/
theorem left_pass_lt {c : Cursor} {b : UInt8} (h : c.peek = some b) : (c.pass b).left < c.left := by
  obtain ⟨hlt, -⟩ := Array.getElem?_eq_some_iff.1 h
  simp only [left, pass, bytes] at hlt ⊢
  omega

/-- Passes all bytes of a class, up to the first one that is not of it. -/
def skipWhile (p : UInt8 → Bool) (c : Cursor) : Cursor :=
  match _h : c.peek with
  | some b => if p b then (c.pass b).skipWhile p else c
  | none => c
termination_by c.left
decreasing_by exact left_pass_lt _h

/-- Passing bytes never takes the cursor back. -/
theorem left_skipWhile_le (p : UInt8 → Bool) (c : Cursor) : (c.skipWhile p).left ≤ c.left := by
  fun_induction skipWhile p c with
  | case1 c b hpeek hb ih => exact Nat.le_trans ih (Nat.le_of_lt (left_pass_lt hpeek))
  | case2 => exact Nat.le_refl _
  | case3 => exact Nat.le_refl _

/-- Taking a byte takes the cursor nearer to the end. -/
theorem left_lt_of_advance {c behind : Cursor} {b : UInt8} (h : c.advance = some (b, behind)) :
    behind.left < c.left := by
  obtain ⟨b, hpeek, heq⟩ := Option.map_eq_some_iff.1 h
  cases heq
  exact left_pass_lt hpeek

/-- So does taking an expected byte. -/
theorem left_lt_of_eat {c behind : Cursor} {b : UInt8} (h : c.eat b = some behind) :
    behind.left < c.left := by
  unfold eat at h
  split at h
  · rename_i hpeek
    cases h
    exact left_pass_lt hpeek
  · contradiction

/-- The characters of the token under construction, as far as they are ASCII. A word consists of
nothing else. -/
def letters (c : Cursor) : List Char :=
  (c.bytes.extract c.start c.current).toList.map Char.ofUInt8

/-- A word, behind its first letter: all letters and digits ahead belong to it. Whether it is
reserved is looked up when it is complete. -/
def word (c : Cursor) : TokenKind × Cursor :=
  let c := c.skipWhile (isWordChar ∘ Char.ofUInt8)
  (.ofLetters c.letters, c)

/-- A number, behind its first digit. A point belongs to it only if a digit follows, so both are
looked at before the point is passed. -/
def number (c : Cursor) : TokenKind × Cursor :=
  let isDigit := Char.isDigit ∘ Char.ofUInt8
  let c := c.skipWhile isDigit
  if c.peek = some '.'.toUInt8 ∧ c.peekNext.any isDigit then
    (.number, (c.pass '.'.toUInt8).skipWhile isDigit)
  else (.number, c)

/-- A string, behind its opening quote: everything up to the next quote, or up to the end of the
text if there is none. -/
def string (c : Cursor) : TokenKind × Cursor :=
  let c := c.skipWhile (· ≠ '"'.toUInt8)
  match c.eat '"'.toUInt8 with
  | some c => (.string, c)
  | none => (.error .unterminatedString, c)

/-- A mark, behind its first character. If it becomes another mark with an equals sign, and there is
one ahead, the two are taken together. -/
def punctuation (mark : Punctuation) (c : Cursor) : TokenKind × Cursor :=
  match mark.withEqual?, c.eat '='.toUInt8 with
  | some longer, some c => (.punctuation longer, c)
  | _, _ => (.punctuation mark, c)

/-- A character that starts no token, behind its first byte `b`. Its other bytes are passed, so that
the next token starts between characters again. -/
def unexpected (b : UInt8) (c : Cursor) : TokenKind × Cursor :=
  (.error .unexpectedCharacter, if b < 0x80 then c else c.skipWhile isContinuation)

/-- The token that starts with the byte `b`, the cursor standing behind it. A byte that is not ASCII
starts none. -/
def token (b : UInt8) (c : Cursor) : TokenKind × Cursor :=
  let first := Char.ofUInt8 b
  if isWordStart first then c.word
  else if first.isDigit then c.number
  else if first = '"' then c.string
  else
    match Punctuation.ofChar? first with
    | some mark => c.punctuation mark
    | none => c.unexpected b

/-- The kind of the next token, and the cursor with that token under construction, behind it. Blanks
and comments in front are passed first; at the end of the text the token is empty. -/
def scan (c : Cursor) : TokenKind × Cursor :=
  match _h : (c.skipWhile (isGapChar ∘ Char.ofUInt8)).mark.advance with
  | none => (.eof, (c.skipWhile (isGapChar ∘ Char.ofUInt8)).mark)
  | some (b, behind) =>
    if b = '/'.toUInt8 then
      match _h' : behind.eat '/'.toUInt8 with
      | some comment => (comment.skipWhile (· ≠ '\n'.toUInt8)).scan
      | none => behind.token b
    else behind.token b
termination_by c.left
decreasing_by
  have hgap := left_skipWhile_le (isGapChar ∘ Char.ofUInt8) c
  have hfirst := left_lt_of_advance _h
  have hsecond := left_lt_of_eat _h'
  have hcomment := left_skipWhile_le (· ≠ '\n'.toUInt8) comment
  exact Nat.lt_of_le_of_lt hcomment
    (Nat.lt_trans hsecond (Nat.lt_of_lt_of_le hfirst hgap))

/-- What a token shows: the message of an error, and otherwise the part of the text that it covers.
There is nothing to show where that part cannot be cut out. -/
def lexeme? (c : Cursor) (kind : TokenKind) : Option (List Char) :=
  match kind with
  | .error fault => some fault.message.toList
  | _ => Text.slice? c.text c.start c.current

/-- The cursor after some calls of `Cursor.scan`. -/
def after (c : Cursor) : Nat → Cursor
  | 0 => c
  | n + 1 => (c.after n).scan.2

end Cursor

end ChunkMachine
