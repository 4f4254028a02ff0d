set_option relaxedAutoImplicit false
set_option autoImplicit false

/-!
# Columns

Text padded to a width, counted in characters. Text that is wider stays as it is.

## Main definitions

* `Text.padLeft`, `Text.padRight` — pads before and after a text.
* `Text.number` — a whole number padded on the left.
* `Text.hexadecimal` — a word of 32 bits in eight digits.
-/

namespace ChunkMachine.Text

/-- A text padded on the left to a width. One that is as wide or wider stays what it is. -/
def padLeft (width : Nat) (fill : Char) (s : String) : String :=
  String.ofList (s.toList.leftpad width fill)

/-- A text padded with spaces on the right to a width. One that is as wide or wider stays what it
is. -/
def padRight (width : Nat) (s : String) : String := String.ofList (s.toList.rightpad width ' ')

/-- A whole number, padded on the left to a width. A number with more digits is not cut. -/
def number (width : Nat) (fill : Char) (n : Nat) : String := padLeft width fill (toString n)

/-- A word of 32 bits as eight upper-case hexadecimal digits, with zeros in front. -/
def hexadecimal (w : UInt32) : String :=
  String.ofList (((Nat.toDigits 16 w.toNat).map Char.toUpper).leftpad 8 '0')

end ChunkMachine.Text
