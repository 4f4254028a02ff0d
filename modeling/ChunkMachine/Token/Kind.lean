set_option relaxedAutoImplicit false
set_option autoImplicit false

/-!
# Kinds of tokens

The lexical classes of lox source text: operators and punctuation, reserved words, identifiers,
literals, errors, and the end of the text.

## Main definitions

* `Punctuation`, `Keyword` — the tokens with one spelling.
* `LexicalFault` — what can be wrong with a character sequence.
* `TokenKind` — the kinds of tokens, with `TokenKind.name` and `TokenKind.tag`.
* `TokenKind.ofWord` — tells reserved words from identifiers.
-/

namespace ChunkMachine

/-- Operators and punctuation marks, of one character or of two. -/
inductive Punctuation where
  | leftParen
  | rightParen
  | leftBrace
  | rightBrace
  | comma
  | dot
  | minus
  | plus
  | semicolon
  | slash
  | star
  | bang
  | bangEqual
  | equal
  | equalEqual
  | greater
  | greaterEqual
  | less
  | lessEqual
  deriving DecidableEq, Repr

/-- Reserved words. A word that is spelled like one of them is no identifier. -/
inductive Keyword where
  | and
  | «class»
  | «else»
  | «false»
  | «for»
  | «fun»
  | «if»
  | nil
  | or
  | print
  | «return»
  | super
  | this
  | «true»
  | var
  | «while»
  deriving DecidableEq, Repr

/-- What can be wrong with a character sequence. A fault is a kind of token, so that scanning goes
on behind it. -/
inductive LexicalFault where
  /-- A string without its closing quote. -/
  | unterminatedString
  /-- A character that starts no token. -/
  | unexpectedCharacter
  deriving DecidableEq, Repr

/-- The text of a lexical fault. A token that marks one shows this in the place of what it
covers. -/
def LexicalFault.message : LexicalFault → String
  | unterminatedString => "Unterminated string."
  | unexpectedCharacter => "Unexpected character."

/-- The kinds of tokens. -/
inductive TokenKind where
  /-- A mark. -/
  | punctuation (mark : Punctuation)
  /-- A reserved word. -/
  | keyword (word : Keyword)
  /-- A word that is not reserved. -/
  | identifier
  /-- A string between quotes. -/
  | string
  /-- A number. -/
  | number
  /-- Something that is no token. -/
  | error (fault : LexicalFault)
  /-- The end of the text. -/
  | eof
  deriving DecidableEq, Repr

namespace Punctuation

/-- The words of a mark's name, from which its names in tables and in data are made. -/
def nameWords : Punctuation → List String
  | leftParen => ["left", "paren"]
  | rightParen => ["right", "paren"]
  | leftBrace => ["left", "brace"]
  | rightBrace => ["right", "brace"]
  | comma => ["comma"]
  | dot => ["dot"]
  | minus => ["minus"]
  | plus => ["plus"]
  | semicolon => ["semicolon"]
  | slash => ["slash"]
  | star => ["star"]
  | bang => ["bang"]
  | bangEqual => ["bang", "equal"]
  | equal => ["equal"]
  | equalEqual => ["equal", "equal"]
  | greater => ["greater"]
  | greaterEqual => ["greater", "equal"]
  | less => ["less"]
  | lessEqual => ["less", "equal"]

/-- The mark that a character is on its own. A mark of two characters is found by its first one. -/
def ofChar? : Char → Option Punctuation
  | '(' => some leftParen
  | ')' => some rightParen
  | '\x7b' => some leftBrace
  | '\x7d' => some rightBrace
  | ',' => some comma
  | '.' => some dot
  | '-' => some minus
  | '+' => some plus
  | ';' => some semicolon
  | '/' => some slash
  | '*' => some star
  | '!' => some bang
  | '=' => some equal
  | '>' => some greater
  | '<' => some less
  | _ => none

/-- The mark that a mark becomes when an equals sign follows it. All others stay what they are. -/
def withEqual? : Punctuation → Option Punctuation
  | bang => some bangEqual
  | equal => some equalEqual
  | greater => some greaterEqual
  | less => some lessEqual
  | _ => none

end Punctuation

namespace Keyword

/-- Every reserved word. -/
def all : List Keyword :=
  [and, «class», «else», «false», «for», «fun», «if», nil, or, print, «return», super, this,
    «true», var, «while»]

/-- How a reserved word is written. There is one way only, in small letters. -/
def spelling : Keyword → String
  | and => "and"
  | «class» => "class"
  | «else» => "else"
  | «false» => "false"
  | «for» => "for"
  | «fun» => "fun"
  | «if» => "if"
  | nil => "nil"
  | or => "or"
  | print => "print"
  | «return» => "return"
  | super => "super"
  | this => "this"
  | «true» => "true"
  | var => "var"
  | «while» => "while"

/-- The reserved word that is written so, if any. -/
def ofSpelling? (cs : List Char) : Option Keyword := all.find? fun k => k.spelling.toList = cs

/-- Every reserved word is listed, so that looking one up in the list misses none. -/
theorem mem_all (k : Keyword) : k ∈ all := by cases k <;> decide

end Keyword

namespace TokenKind

/-- The kind of a word: a reserved word if it is spelled like one, else an identifier. -/
def ofWord (cs : List Char) : TokenKind :=
  match Keyword.ofSpelling? cs with
  | some k => keyword k
  | none => identifier

/-- The words of a kind's name. A mark and a reserved word have names of their own; all errors share
one. -/
def nameWords : TokenKind → List String
  | punctuation mark => mark.nameWords
  | keyword word => [word.spelling]
  | identifier => ["identifier"]
  | string => ["string"]
  | number => ["number"]
  | error _ => ["error"]
  | eof => ["eof"]

/-- The name of a kind: its words in upper case, joined by underscores. Tables and records show
it. -/
def name (k : TokenKind) : String := String.intercalate "_" (k.nameWords.map String.toUpper)

/-- The tag of a kind in data: its words, each with a capital letter. -/
def tag (k : TokenKind) : String := String.join (k.nameWords.map String.capitalize)

end TokenKind

end ChunkMachine
