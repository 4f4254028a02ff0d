import ChunkMachine.Token.Kind

set_option relaxedAutoImplicit false
set_option autoImplicit false

/-!
# The scanner

A scanner cuts lox source text into tokens, one at a time and without ever going back. Before every
token there may be a gap of blanks and comments. A token is the longest one that starts at its
place, and keeps exactly the characters that it covers.

Lines are counted by line feeds, wherever they stand: between tokens, in comments and in strings.

## Main definitions

* `Token` — a kind, the characters covered, and the line on which they start.
* `Lexeme.ofChars` — the token at the front of a text.
* `splitGap` — the gap at the front of a text.
* `Scanner`, `Scanner.scan`, `Scanner.next?`, `Scanner.drain` — the scanner and its ways to advance.
* `tokenize` — all tokens of a text.
* `LexicalError`, `checkTokens` — the lexical errors of a text.

## Main results

* `Lexeme.span_append_rest` — a token and the rest of the text are the text.
* `splitGap_append` — so are a gap and the rest.
* `Scanner.length_rest_lt` — every token but the last takes characters away.
-/

namespace ChunkMachine

/-- A piece of source text: its kind, the characters it covers, and the line it starts on. -/
structure Token where
  /-- What it is. -/
  kind : TokenKind
  /-- The characters that it covers, which for an error are not what it shows. -/
  span : List Char
  /-- The line on which its first character stands. -/
  line : UInt32
  deriving DecidableEq, Repr

/-- What a token shows: the message of an error, and otherwise the characters it covers. -/
def Token.lexeme (t : Token) : List Char :=
  match t.kind with
  | .error fault => fault.message.toList
  | _ => t.span

/-! ## Character classes -/

/-- Blanks between tokens. Other blanks of Unicode are none here, and start no token either. -/
def isGapChar (c : Char) : Bool := c = ' ' || c = '\r' || c = '\t' || c = '\n'

/-- Letters of a word: ASCII letters and the underscore. -/
def isWordStart (c : Char) : Bool := c.isAlpha || c = '_'

/-- Further characters of a word: letters and ASCII digits. A word cannot begin with a digit. -/
def isWordChar (c : Char) : Bool := isWordStart c || c.isDigit

/-! ## Gaps -/

/-- Splits a text after its gap, the reversed start of the gap being known. A comment ends before
the line feed, which is itself part of the gap. -/
def splitGapFrom (inComment : Bool) (gap : List Char) : List Char → List Char × List Char
  | [] => (gap.reverse, [])
  | c :: rest =>
    if inComment then splitGapFrom (c ≠ '\n') (c :: gap) rest
    else if isGapChar c then splitGapFrom false (c :: gap) rest
    else if c = '/' ∧ rest.head? = some '/' then splitGapFrom true (c :: gap) rest
    else (gap.reverse, c :: rest)

/-- The gap at the front of a text, and what follows it. A gap is any number of blanks and comments,
and may be empty. -/
def splitGap (cs : List Char) : List Char × List Char := splitGapFrom false [] cs

/-- Whether in a comment or not, nothing is lost: the gap so far, what is added to it and what is
left are the text. -/
theorem splitGapFrom_append (inComment : Bool) (gap cs : List Char) :
    (splitGapFrom inComment gap cs).1 ++ (splitGapFrom inComment gap cs).2 = gap.reverse ++ cs := by
  induction cs generalizing inComment gap with
  | nil => simp [splitGapFrom]
  | cons c rest ih =>
    unfold splitGapFrom
    split
    · simp [ih]
    · split
      · simp [ih]
      · split
        · simp [ih]
        · rfl

/-- A gap and the rest of the text are the text. So what was scanned can be put together again. -/
theorem splitGap_append (cs : List Char) : (splitGap cs).1 ++ (splitGap cs).2 = cs := by
  simpa [splitGap] using splitGapFrom_append false [] cs

/-! ## Lexemes -/

/-- The first token of a text without a gap, and the rest of the text. It is not known yet on which
line the token stands. -/
structure Lexeme where
  /-- The kind of the token. -/
  kind : TokenKind
  /-- The characters that it covers. -/
  span : List Char
  /-- The text behind it. -/
  rest : List Char
  deriving DecidableEq, Repr

namespace Lexeme

/-- A word, from its first letter on: as many letters and digits as there are. Its kind is told by
the whole word, so a reserved word in front of more letters is not reserved. -/
def word (c : Char) (cs : List Char) : Lexeme :=
  let span := c :: cs.takeWhile isWordChar
  ⟨.ofWord span, span, cs.dropWhile isWordChar⟩

/-- A number, from its first digit on: digits, and after a point more of them. A point without a
digit after it does not belong to the number. -/
def number (c : Char) (cs : List Char) : Lexeme :=
  let whole := c :: cs.takeWhile Char.isDigit
  match cs.dropWhile Char.isDigit with
  | '.' :: d :: rest =>
    if d.isDigit then
      ⟨.number, whole ++ '.' :: d :: rest.takeWhile Char.isDigit, rest.dropWhile Char.isDigit⟩
    else ⟨.number, whole, '.' :: d :: rest⟩
  | rest => ⟨.number, whole, rest⟩

/-- A string, from its opening quote on: up to the next quote, over as many lines as it takes.
Without a next quote the whole rest of the text is one error. -/
def string (c : Char) (cs : List Char) : Lexeme :=
  let body := cs.takeWhile (· ≠ '"')
  match cs.dropWhile (· ≠ '"') with
  | quote :: rest => ⟨.string, c :: (body ++ [quote]), rest⟩
  | [] => ⟨.error .unterminatedString, c :: body, []⟩

/-- A mark, with the equals sign after it if the two are one mark. -/
def punctuation (mark : Punctuation) (c : Char) : List Char → Lexeme
  | '=' :: rest =>
    match mark.withEqual? with
    | some longer => ⟨.punctuation longer, [c, '='], rest⟩
    | none => ⟨.punctuation mark, [c], '=' :: rest⟩
  | rest => ⟨.punctuation mark, [c], rest⟩

/-- The token that starts with the character `c`, the text after `c` being `cs`. The first character
alone tells what it can be; a character that starts no token is an error on its own. -/
def ofChars (c : Char) (cs : List Char) : Lexeme :=
  if isWordStart c then word c cs
  else if c.isDigit then number c cs
  else if c = '"' then string c cs
  else
    match Punctuation.ofChar? c with
    | some mark => punctuation mark c cs
    | none => ⟨.error .unexpectedCharacter, [c], cs⟩

/-- A token and the rest of the text are the text.

**Proof sketch.** By the class of the first character. Runs and what follows them are the text that
was cut there. -/
theorem span_append_rest (c : Char) (cs : List Char) :
    (ofChars c cs).span ++ (ofChars c cs).rest = c :: cs := by
  unfold ofChars
  split
  · simp [word]
  · split
    · unfold number
      have h := List.takeWhile_append_dropWhile (p := Char.isDigit) (l := cs)
      split
      · rename_i d rest heq
        rw [heq] at h
        split
        · simp [h]
        · simp [h]
      · simp
    · split
      · unfold string
        have h := List.takeWhile_append_dropWhile (p := (· ≠ '"')) (l := cs)
        split
        · rename_i heq
          rw [heq] at h
          simpa using h
        · rename_i heq
          rw [heq] at h
          simpa using h
      · split
        · unfold punctuation
          split
          · split <;> simp
          · rfl
        · rfl

/-- A token covers at least its first character, so that scanning always advances. -/
theorem span_ne_nil (c : Char) (cs : List Char) : (ofChars c cs).span ≠ [] := by
  unfold ofChars
  split
  · simp [word]
  · split
    · unfold number
      split
      · split <;> simp
      · simp
    · split
      · unfold string
        split <;> simp
      · split
        · unfold punctuation
          split
          · split <;> simp
          · simp
        · simp

/-- Behind a token the text is shorter. -/
theorem length_rest_lt (c : Char) (cs : List Char) :
    (ofChars c cs).rest.length < (c :: cs).length := by
  have h := congrArg List.length (span_append_rest c cs)
  have := List.length_pos_iff.2 (span_ne_nil c cs)
  simp only [List.length_append] at h
  omega

end Lexeme

/-! ## Scanners -/

/-- The number of line feeds in a text, as a word of 32 bits: the lines of tokens are counted in
such words. -/
def lineFeeds (cs : List Char) : UInt32 := UInt32.ofNat (cs.count '\n')

/-- A scanner: the text still ahead, the line it starts on, and whether the end of the text has
already been handed out by `Scanner.next?`. -/
structure Scanner where
  /-- The text ahead. -/
  rest : List Char
  /-- The line that it starts on. -/
  line : UInt32
  /-- Whether the end of the text has been handed out as an item. -/
  finished : Bool
  deriving DecidableEq, Repr

namespace Scanner

/-- The scanner at the start of a text, on line one. -/
def ofString (text : String) : Scanner := ⟨text.toList, 1, false⟩

/-- The next token. Behind the last one it is the end of the text, again and again. -/
def scan (s : Scanner) : Token × Scanner :=
  let (gap, text) := splitGap s.rest
  let line := s.line + lineFeeds gap
  match text with
  | [] => (⟨.eof, [], line⟩, ⟨[], line, s.finished⟩)
  | c :: cs =>
    let lexeme := Lexeme.ofChars c cs
    (⟨lexeme.kind, lexeme.span, line⟩, ⟨lexeme.rest, line + lineFeeds lexeme.span, s.finished⟩)

/-- Every token but the last takes characters away, which is why draining a scanner ends. -/
theorem length_rest_lt {s : Scanner} (h : s.scan.1.kind ≠ .eof) :
    s.scan.2.rest.length < s.rest.length := by
  have hgap := congrArg List.length (splitGap_append s.rest)
  simp only [List.length_append] at hgap
  unfold scan at h ⊢
  cases htext : (splitGap s.rest).2 with
  | nil => simp [htext] at h
  | cons c cs =>
    have := Lexeme.length_rest_lt c cs
    simp only [htext] at hgap ⊢
    omega

/-- The next token, as long as the end of the text has not been handed out. The end is handed out
once; scanning goes on to give it behind that. -/
def next? (s : Scanner) : Option Token × Scanner :=
  if s.finished then (none, s)
  else
    let (token, s) := s.scan
    (some token, { s with finished := token.kind = .eof })

/-- Takes all tokens that are left, after those in `taken`. -/
def drainFrom (s : Scanner) (taken : Array Token) : Array Token × Scanner :=
  if s.scan.1.kind = .eof then (taken.push s.scan.1, { s.scan.2 with finished := true })
  else drainFrom s.scan.2 (taken.push s.scan.1)
termination_by s.rest.length
decreasing_by exact length_rest_lt ‹_›

/-- Takes all tokens that are left, up to and with the end of the text. -/
def drain (s : Scanner) : Array Token × Scanner :=
  if s.finished then (#[], s) else s.drainFrom #[]

end Scanner

/-- All tokens of a text; the last one is the end of the text. -/
def tokenize (text : String) : List Token := (Scanner.ofString text).drain.1.toList

/-! ## Lexical errors -/

/-- A lexical fault and its line: that on which the text at fault begins. -/
structure LexicalError where
  /-- The line on which the token starts. -/
  line : UInt32
  /-- What is wrong with it. -/
  fault : LexicalFault
  deriving DecidableEq, Repr

/-- The text of a lexical error, on one line. -/
def LexicalError.message (e : LexicalError) : String :=
  s!"[line {e.line}] Error: {e.fault.message}"

/-- The error that a token marks, if it marks one. -/
def Token.error? (t : Token) : Option LexicalError :=
  match t.kind with
  | .error fault => some ⟨t.line, fault⟩
  | _ => none

/-- The tokens, if none of them marks an error, and otherwise all errors, in order. One error is
enough for the tokens not to be given. -/
def checkTokens (tokens : List Token) : Except (List LexicalError) (List Token) :=
  match tokens.filterMap Token.error? with
  | [] => .ok tokens
  | errors => .error errors

end ChunkMachine
