import ChunkMachine.Numeric.Binary64

set_option relaxedAutoImplicit false
set_option autoImplicit false

/-!
# Decimal fractions

A decimal fraction is a whole coefficient over a power of ten. It has one positional text, and it
has one nearest binary64 magnitude. `Decimal.shortest` picks, for a finite magnitude, the fraction
with the fewest significant digits that reads back as that magnitude.

The search goes through the grids of one, two, … significant digits. If any point of a grid reads
back, then so does one of the two points around the number, so only these two are tried.

## Main definitions

* `Decimal` — a coefficient and a number of places after the point.
* `Decimal.nearest` — the magnitude that a decimal fraction reads as.
* `Decimal.text` — its positional text.
* `Decimal.shortest` — the shortest fraction that reads back as a given magnitude.

## Main results

* `Decimal.ofDigits_eq` — a run of digits denotes the same number whether it is halved or not.
-/

namespace ChunkMachine

/-- The decimal fraction `coefficient / 10 ^ places`. A fraction can be given in several ways, which
differ in the zeros at the end. -/
structure Decimal where
  /-- All of its digits, as a whole number. -/
  coefficient : Nat
  /-- How many of them stand behind the point. -/
  places : Nat
  deriving DecidableEq, Repr

namespace Decimal

/-- The magnitude nearest to a decimal fraction. The fraction is taken as it is, in whole numbers,
and rounded once. -/
def nearest (d : Decimal) : Nat :=
  Binary64.ofUnits (d.coefficient * 2 ^ Binary64.unitExponent) (10 ^ d.places)

/-- The same fraction without the zeros that end its places. A whole number keeps its zeros, as they
stand before the point. -/
def reduce (coefficient : Nat) : Nat → Decimal
  | 0 => ⟨coefficient, 0⟩
  | places + 1 =>
    if coefficient % 10 = 0 then reduce (coefficient / 10) places else ⟨coefficient, places + 1⟩

/-! ## Text -/

/-- The decimal digits of a whole number, the most significant first. Zero has one digit. -/
def digits (n : Nat) : List Char := Nat.toDigits 10 n

/-- The number that a decimal digit stands for. Of other characters it is not asked. -/
def digitValue (c : Char) : Nat := c.toNat - '0'.toNat

/-- The whole number that a short run of decimal digits denotes; of no digits, zero. -/
def ofShortDigits (ds : List Char) : Nat := ds.foldl (fun n c => 10 * n + digitValue c) 0

/-- The whole number that a run of decimal digits denotes, from those of its halves, which are
halved again as many times as the first argument tells. -/
def ofHalves : Nat → List Char → Nat
  | 0, ds => ofShortDigits ds
  | n + 1, ds =>
    let half := ds.length / 2
    ofHalves n (ds.take half) * 10 ^ (ds.length - half) + ofHalves n (ds.drop half)

/-- The whole number that a run of decimal digits denotes; of no digits, zero. A long run is halved
until its pieces are short, since adding one digit after another to a long number is slow. -/
def ofDigits (ds : List Char) : Nat := ofHalves (ds.length.log2 - 6) ds

/-- The positional text: all digits of the coefficient with a point before the places, and at least
one digit before the point. Without places there is no point. -/
def text (d : Decimal) : List Char :=
  let ds := (digits d.coefficient).leftpad (d.places + 1) '0'
  if d.places = 0 then ds
  else ds.take (ds.length - d.places) ++ '.' :: ds.drop (ds.length - d.places)

/-! ## Digits denote alike, halved or not -/

/-- Digits that are added one by one to a number move it up by as many places as they are, and add
the number that they denote themselves. -/
theorem foldl_digits (n : Nat) (ds : List Char) :
    ds.foldl (fun n c => 10 * n + digitValue c) n = n * 10 ^ ds.length + ofShortDigits ds := by
  induction ds generalizing n with
  | nil => simp [ofShortDigits]
  | cons c ds ih =>
    rw [ofShortDigits, List.foldl_cons, List.foldl_cons, ih, ih (10 * 0 + digitValue c)]
    simp only [List.length_cons, Nat.pow_succ]
    grind

/-- A run of digits denotes what its two parts do, the first one moved up by the length of the
second one. -/
theorem ofShortDigits_append (ds es : List Char) :
    ofShortDigits (ds ++ es) = ofShortDigits ds * 10 ^ es.length + ofShortDigits es := by
  rw [ofShortDigits, List.foldl_append, foldl_digits]
  rfl

/-- However often a run of digits is halved, its halves are put together to the same number. -/
theorem ofHalves_eq (n : Nat) (ds : List Char) : ofHalves n ds = ofShortDigits ds := by
  induction n generalizing ds with
  | zero => rfl
  | succ n ih =>
    have h := ofShortDigits_append (ds.take (ds.length / 2)) (ds.drop (ds.length / 2))
    rw [List.take_append_drop, List.length_drop] at h
    rw [ofHalves, ih, ih, h]

/-- Halving a run of digits does not change the number that it denotes, so a proof need not look at
how it was read. -/
theorem ofDigits_eq (ds : List Char) : ofDigits ds = ofShortDigits ds := ofHalves_eq _ ds

/-! ## The shortest fraction that reads back -/

/-- The whole value of a finite magnitude, with every digit of its expansion. The expansion is
finite, as a power of two divides a power of ten. -/
def exact (b : Nat) : Decimal :=
  reduce (Binary64.units b * 5 ^ Binary64.unitExponent) Binary64.unitExponent

/-- A finite magnitude as a fraction in whole numbers, times a power of ten. One of the two
exponents is zero, so that the power stands either above or below. -/
def scaled (b up down : Nat) : Nat × Nat :=
  (Binary64.significand b * 2 ^ (Binary64.shift b - Binary64.unitExponent) * 10 ^ down,
    2 ^ (Binary64.unitExponent - Binary64.shift b) * 10 ^ up)

/-- The exponent of ten just above a finite magnitude: the number of digits before its point, or,
below one, minus the number of zeros that follow the point. The exponent of two gives it up to one
step: `30103 / 100000` stands for the logarithm of two to base ten, and over the exponents of
binary64 the error of that stand-in never carries the quotient past a whole number. -/
def leadingExponent (b : Nat) : Int :=
  let binary : Int := (Binary64.significand b).log2 + Binary64.shift b - Binary64.unitExponent
  let guess := binary * 30103 / 100000 + 1
  let (num, den) := scaled b guess.toNat (-guess).toNat
  if num < den then guess else guess + 1

/-- Of the two decimal fractions around the magnitude `b` whose last digit stands for
`10 ^ exponent`, the nearer one that reads back as `b`. Between two equally near ones the upper is
tried first. -/
def onGrid? (b : Nat) (exponent : Int) : Option Decimal :=
  let up := exponent.toNat
  let down := (-exponent).toNat
  let (num, den) := scaled b up down
  let below := reduce (num / den * 10 ^ up) down
  let above := reduce ((num / den + 1) * 10 ^ up) down
  let candidates := if 2 * (num % den) < den then [below, above] else [above, below]
  candidates.find? fun d => d.nearest = b

/-- The decimal fraction with the fewest significant digits that reads back as the finite magnitude
`b`. Seventeen digits suffice for every binary64 number; the whole expansion closes the search. -/
def shortest (b : Nat) : Decimal :=
  let leading := leadingExponent b
  ((List.range 17).findSome? fun n => onGrid? b (leading - (n + 1 : Nat))).getD (exact b)

end Decimal

end ChunkMachine
