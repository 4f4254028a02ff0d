set_option relaxedAutoImplicit false
set_option autoImplicit false

/-!
# Blanks, words and lines

Text is cut into lines at line feeds and into words at blanks. Blank characters are those with the
Unicode property `White_Space`; the carriage return is one of them, so a line that ends in carriage
return and line feed has the same words as one that ends in the line feed alone.

## Main definitions

* `Text.isBlank` — the property `White_Space`.
* `Text.words` — the maximal runs of characters that are not blank.
* `Text.splitOn` — the pieces between separators.
* `Text.lines` — the pieces between line feeds.
-/

namespace ChunkMachine.Text

/-- Whether a character has the Unicode property `White_Space`. Line feeds and carriage returns have
it, so what ends a line never stands in a word. -/
def isBlank (c : Char) : Bool :=
  let n := c.toNat
  (0x9 ≤ n && n ≤ 0xD) || n == 0x20 || n == 0x85 || n == 0xA0 || n == 0x1680 ||
    (0x2000 ≤ n && n ≤ 0x200A) || n == 0x2028 || n == 0x2029 || n == 0x202F || n == 0x205F ||
    n == 0x3000

/-- The words of a text, `current` being the reversed start of a word before it. The word ends at
the next blank or with the text. -/
def wordsFrom : List Char → List Char → List (List Char)
  | current, [] => if current = [] then [] else [current.reverse]
  | current, c :: rest =>
    if isBlank c then
      if current = [] then wordsFrom [] rest else current.reverse :: wordsFrom [] rest
    else wordsFrom (c :: current) rest

/-- The words of a text: its maximal runs of characters that are not blank. None of them is
empty. -/
def words (cs : List Char) : List (List Char) := wordsFrom [] cs

/-- The pieces of a text between separators, after the reversed finished pieces and the reversed
start of the current one. -/
def splitOnFrom (separator : Char) (finished : List (List Char)) (current : List Char) :
    List Char → List (List Char)
  | [] => (current.reverse :: finished).reverse
  | c :: rest =>
    if c = separator then splitOnFrom separator (current.reverse :: finished) [] rest
    else splitOnFrom separator finished (c :: current) rest

/-- The pieces of a text between separators: one more than there are separators, and some of them
perhaps empty. -/
def splitOn (separator : Char) (cs : List Char) : List (List Char) := splitOnFrom separator [] [] cs

/-- The lines of a text: the pieces between its line feeds. A text that ends in a line feed has an
empty last line. -/
def lines (cs : List Char) : List (List Char) := splitOn '\n' cs

end ChunkMachine.Text
