import ChunkMachine.Value

set_option relaxedAutoImplicit false
set_option autoImplicit false

/-!
# Numeric literals

The numbers that a program text may hold: an optional sign, then `inf`, `infinity` or `nan` in any
case, or decimal digits with an optional point and an optional exponent. A decimal literal denotes
the binary64 number nearest to it, however long it is. Only an exponent of more digits than any
number needs is cut short: from the digit on at which it reaches `exponentBound`, its digits say
nothing, which shows when as many digits stand before it.

## Main definitions

* `Literal.Scientific` — a decimal literal in parts.
* `Literal.scientific?` — reads those parts.
* `Literal.read?` — the value that a literal denotes.
-/

namespace ChunkMachine.Literal

/-- An unsigned decimal literal: the digits before the point, those after it, and the exponent. The
digits are kept as they were written, zeros in front included. -/
structure Scientific where
  /-- The digits before the point. -/
  whole : List Char
  /-- The digits after it. -/
  fraction : List Char
  /-- The power of ten that they are multiplied by. -/
  exponent : Int

/-- An exponent that has grown this far takes no further digits. It is large enough to make any
literal of ordinary length infinite or zero. -/
def exponentBound : Nat := 0x10000

/-- The exponent that digits denote, up to the digit at which it reaches the bound. Digits behind
that one are read and do not count. -/
def boundedExponent (ds : List Char) : Nat :=
  ds.foldl (fun n c => if n < exponentBound then 10 * n + Decimal.digitValue c else n) 0

/-- Reads the digits of an exponent. There has to be at least one, and nothing else. -/
def exponentDigits? (ds : List Char) : Option Nat :=
  if ds ≠ [] ∧ ds.all Char.isDigit then some (boundedExponent ds) else none

/-- Reads what follows the digits: nothing, or a letter `e` and a number with an optional sign. -/
def exponent? : List Char → Option Int
  | [] => some 0
  | letter :: rest =>
    if letter = 'e' ∨ letter = 'E' then
      match rest with
      | '-' :: ds => (exponentDigits? ds).map fun n => -(n : Int)
      | '+' :: ds => (exponentDigits? ds).map fun n => (n : Int)
      | ds => (exponentDigits? ds).map fun n => (n : Int)
    else none

/-- The digits after a point, and what follows them; without a point there are none, and all of the
text follows. -/
def splitFraction : List Char → List Char × List Char
  | '.' :: rest => rest.span Char.isDigit
  | rest => ([], rest)

/-- Reads a decimal literal. Either side of the point may lack its digits, but not both. -/
def scientific? (cs : List Char) : Option Scientific :=
  let (whole, afterWhole) := cs.span Char.isDigit
  let (fraction, afterFraction) := splitFraction afterWhole
  if whole = [] ∧ fraction = [] then none
  else (exponent? afterFraction).map fun e => ⟨whole, fraction, e⟩

/-- The decimal fraction of a literal. An exponent so large that the number is infinite, or so
small that it is zero, whatever the digits are, is cut to the nearest such exponent, so that no
power of ten is taken that the answer does not need. -/
def Scientific.decimal (s : Scientific) : Decimal :=
  let coefficient := Decimal.ofDigits (s.whole ++ s.fraction)
  let places := s.fraction.length
  let up := min s.exponent.toNat (places + 400)
  let down := min (-s.exponent).toNat (s.whole.length + 400)
  ⟨coefficient * 10 ^ up, places + down⟩

/-- The magnitude that an unsigned literal denotes. The names of infinity and NaN are read in any
case. -/
def magnitude? (cs : List Char) : Option Nat :=
  let word := cs.map Char.toLower
  if word = "inf".toList ∨ word = "infinity".toList then some Binary64.infinity
  else if word = "nan".toList then some Binary64.quietNaN
  else (scientific? cs).map fun s => s.decimal.nearest

/-- The value that a literal denotes, or nothing if the text is no literal. Only one sign is
read. -/
def read? : List Char → Option Value
  | '-' :: cs => (magnitude? cs).map (Value.ofMagnitude true)
  | '+' :: cs => (magnitude? cs).map (Value.ofMagnitude false)
  | cs => (magnitude? cs).map (Value.ofMagnitude false)

end ChunkMachine.Literal
