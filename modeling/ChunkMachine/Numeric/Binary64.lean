import ChunkMachine.Numeric.Power

set_option relaxedAutoImplicit false
set_option autoImplicit false

/-!
# Binary64 magnitudes as whole numbers

Every finite binary64 number without its sign is a whole multiple of `2 ^ -1074`. A *magnitude* is
the 63-bit pattern of such a number (or of an infinity or a NaN), and `Binary64.units` counts how
many times `2 ^ -1074` it holds. Patterns and unit counts are ordered alike, so rounding a fraction
of units to the nearest magnitude is one division with remainder.

## Main definitions

* `Binary64.significand`, `Binary64.shift` — a finite magnitude in parts.
* `Binary64.units` — the number of units in a finite magnitude.
* `Binary64.nearestEven` — a quotient rounded to the nearest whole number, ties to even.
* `Binary64.ofUnits` — the magnitude nearest to a fraction of units.

## Main results

* `Binary64.nearestEven_mul_right` — rounding an exact quotient returns it.
-/

namespace ChunkMachine.Binary64

/-- The number of magnitudes between two neighbouring powers of two. All magnitudes of a binade have
the same distance from each other. -/
def binade : Nat := 2 ^ 52

/-- How many units make one, as a power of two. The unit is the least positive magnitude, so that
every finite magnitude is a whole number of units. -/
def unitExponent : Nat := 1074

/-- The magnitude of the infinities; every greater one is a NaN. Where rounding goes beyond the
greatest finite magnitude, this is what it gives. -/
def infinity : Nat := 0x7FF0000000000000

/-- The magnitude of the NaN that a literal denotes. There are others, which only images and
operations can bring in. -/
def quietNaN : Nat := 0x7FF8000000000000

/-- The significand of a finite magnitude: below the first binade the pattern itself, and from there
on its low bits under a leading one. -/
def significand (b : Nat) : Nat := if b < binade then b else b % binade + binade

/-- How many times the significand of a finite magnitude is doubled: once for every binade after
the first. -/
def shift (b : Nat) : Nat := b / binade - 1

/-- The number of units in a finite magnitude. This is the exact value, in whole numbers, that
printing and reading work with. -/
def units (b : Nat) : Nat := significand b * 2 ^ shift b

/-- `n / d` rounded to the nearest whole number; a quotient halfway between two goes to the even
one. -/
def nearestEven (n d : Nat) : Nat :=
  let q := n / d
  let r := n % d
  if 2 * r < d then q
  else if d < 2 * r then q + 1
  else if q % 2 = 0 then q
  else q + 1

/-- The magnitude nearest to `n / d` units. The whole part tells how far the significand has to be
moved up; a significand that rounds up to the next power of two carries into the next binade, and
what lies beyond the last binade is infinite. -/
def ofUnits (n d : Nat) : Nat :=
  let shift := (n / d).log2 - 52
  min infinity (shift * binade + nearestEven n (d * 2 ^ shift))

/-! ## Small laws -/

/-- An exact quotient is its own rounding, so numbers that need no rounding stay what they are. -/
theorem nearestEven_mul_right (m : Nat) {d : Nat} (hd : 0 < d) : nearestEven (m * d) d = m := by
  simp [nearestEven, Nat.mul_div_cancel m hd, hd]

end ChunkMachine.Binary64
