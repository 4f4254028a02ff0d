import ChunkMachine.Numeric.Decimal

set_option relaxedAutoImplicit false
set_option autoImplicit false

/-!
# Values

A value of the machine is a binary64 number, kept as its 64 bits so that two values are equal
exactly when their patterns are: zeros of both signs and all NaNs stay apart.

## Main definitions

* `Value` — a 64-bit pattern, with its sign and its magnitude.
* `Value.text` — the text of a value: positional, with the fewest digits that read back.
* `Arithmetic` — the five operations a machine performs on values.
* `Arithmetic.ieee` — those operations as IEEE 754 defines them.
-/

namespace ChunkMachine

/-- A binary64 number, by its bits. Two values are equal only if their bits are, so that the two
zeros differ, and so do NaNs with another sign or another payload. Images and pools keep values to
the bit. -/
structure Value where
  /-- The pattern: one bit of sign, eleven of exponent, fifty-two of fraction. -/
  bits : UInt64
  deriving DecidableEq, Repr, Inhabited

namespace Value

/-- The bit that carries the sign. -/
def signBit : UInt64 := 0x8000000000000000

/-- Whether the sign bit is set. It may be set on a zero and on a NaN as well, so this does not say
that the value is less than zero. -/
def isNegative (v : Value) : Bool := v.bits &&& signBit ≠ 0

/-- The pattern without its sign. Magnitudes of numbers are ordered as the numbers are, with
infinity above all numbers and the NaNs above infinity. -/
def magnitude (v : Value) : Nat := v.bits.toNat % 2 ^ 63

/-- The value of the given sign and magnitude. Every value is made so from its own sign and its own
magnitude. -/
def ofMagnitude (negative : Bool) (magnitude : Nat) : Value :=
  ⟨UInt64.ofNat ((if negative then 2 ^ 63 else 0) + magnitude)⟩

/-- Whether a value is not a number: its magnitude lies above that of infinity. -/
def isNaN (v : Value) : Bool := Binary64.infinity < v.magnitude

/-- The value of a machine number. -/
def ofFloat (x : Float) : Value := ⟨x.toBits⟩

/-- The machine number of a value. What is computed goes through machine numbers; what is stored,
shown and read does not. -/
def toFloat (v : Value) : Float := Float.ofBits v.bits

/-- The text of a magnitude: the names of infinity and NaN, or the shortest positional decimal that
is read back as the same number. There is no exponent, however large or small the number is. -/
def magnitudeText (b : Nat) : List Char :=
  if b = Binary64.infinity then "inf".toList else (Decimal.shortest b).text

/-- The characters of a value's text. A NaN shows neither sign nor payload, and every other
negative value, zero included, starts with a minus sign. -/
def chars (v : Value) : List Char :=
  if v.isNaN then "NaN".toList
  else if v.isNegative then '-' :: magnitudeText v.magnitude
  else magnitudeText v.magnitude

/-- The text of a value, as listings show it and as a program prints it. -/
def text (v : Value) : String := String.ofList v.chars

end Value

/-! ## Operations -/

/-- The operations on values that instructions call for. A machine works alike over any choice of
them. -/
structure Arithmetic where
  /-- The sum, of the value that was pushed first and the one above it. -/
  add : Value → Value → Value
  /-- The difference, of the value that was pushed first and the one above it. -/
  subtract : Value → Value → Value
  /-- The product. -/
  multiply : Value → Value → Value
  /-- The quotient, of the value that was pushed first by the one above it. -/
  divide : Value → Value → Value
  /-- The same value with the other sign. -/
  negate : Value → Value

/-- Arithmetic as IEEE 754 defines it: every operation rounds to nearest even, division by zero
gives an infinity or a NaN, and negation flips the sign of any pattern. -/
def Arithmetic.ieee : Arithmetic where
  add a b := .ofFloat (a.toFloat + b.toFloat)
  subtract a b := .ofFloat (a.toFloat - b.toFloat)
  multiply a b := .ofFloat (a.toFloat * b.toFloat)
  divide a b := .ofFloat (a.toFloat / b.toFloat)
  negate a := ⟨a.bits ^^^ Value.signBit⟩

end ChunkMachine
