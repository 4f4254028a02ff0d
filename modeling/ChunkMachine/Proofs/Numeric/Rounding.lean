import ChunkMachine.Numeric.Decimal

set_option relaxedAutoImplicit false
set_option autoImplicit false

/-!
# Decimal fractions that are nearest to a magnitude

A magnitude is the nearest one to its own units, be it below the first binade, in the last one, or
a power of two. Rounding depends on the fraction only and not on how it is written, so the whole
expansion of a magnitude reads back as it. The fraction that is picked for the magnitude reads back
as well: it was tried before, or it is the whole expansion.

## Main results

* `Binary64.ofUnits_mul_mul` — a fraction that is extended rounds alike.
* `Binary64.ofUnits_units` — a magnitude is the nearest one to its units.
* `Decimal.nearest_exact` — the whole expansion reads back.
* `Decimal.nearest_shortest` — the shortest fraction reads back.
-/

namespace ChunkMachine

/-! ## Units -/

namespace Binary64

/-- A fraction that is extended rounds to the same whole number, ties included. -/
theorem nearestEven_mul_mul {k : Nat} (hk : 0 < k) (n d : Nat) :
    nearestEven (k * n) (k * d) = nearestEven n d := by
  have hless (a b : Nat) : 2 * (k * a) < k * b ↔ 2 * a < b := by
    rw [Nat.mul_left_comm, Nat.mul_lt_mul_left hk]
  have hmore (a b : Nat) : k * b < 2 * (k * a) ↔ b < 2 * a := by
    rw [Nat.mul_left_comm, Nat.mul_lt_mul_left hk]
  simp only [nearestEven, Nat.mul_div_mul_left _ _ hk, Nat.mul_mod_mul_left, hless, hmore]

/-- A fraction of units that is extended rounds to the same magnitude. So it does not matter how a
number is written as a fraction. -/
theorem ofUnits_mul_mul {k : Nat} (hk : 0 < k) (n d : Nat) :
    ofUnits (k * n) (k * d) = ofUnits n d := by
  simp only [ofUnits, Nat.mul_div_mul_left _ _ hk, Nat.mul_assoc, nearestEven_mul_mul hk]

/-- A significand that was doubled as often as its leading bit tells, or never, is found again.
Beyond the greatest magnitude it is infinity that is found.

**Proof sketch.** The leading bit of the number tells how often the significand was doubled. Divided
by as many powers of two it is whole, so that nothing is rounded. -/
theorem ofUnits_mul_two_pow {m k : Nat} (hm : 2 ^ 52 ≤ m ∨ k = 0) (hlt : m < 2 ^ 53) :
    ofUnits (m * 2 ^ k) 1 = min infinity (k * binade + m) := by
  have hpow : 0 < 2 ^ k := Nat.two_pow_pos k
  have hlog : (m * 2 ^ k).log2 - 52 = k := by
    rcases hm with hm | rfl
    · have hlog : (m * 2 ^ k).log2 = 52 + k := by
        rw [Nat.log2_eq_iff (Nat.mul_ne_zero (by omega) (by omega))]
        constructor
        · rw [Nat.pow_add]
          exact Nat.mul_le_mul_right _ hm
        · rw [Nat.add_right_comm, Nat.pow_add]
          exact Nat.mul_lt_mul_of_pos_right hlt hpow
      omega
    -- without doubling the significand need not have its leading bit
    · by_cases hzero : m = 0
      · subst hzero
        rfl
      · have hlog := (Nat.log2_lt hzero).2 hlt
        rw [Nat.pow_zero, Nat.mul_one]
        omega
  have hexact : nearestEven (m * 2 ^ k) (2 ^ k) = m := nearestEven_mul_right m hpow
  simp only [ofUnits, Nat.div_one, Nat.one_mul, hlog, hexact]

/-- **A magnitude is the nearest one to its units.**

**Proof sketch.** Below the first binade the units are the pattern itself. From there on the
significand has its leading bit, so the units tell how often it was doubled; the pattern is the
sum of that many binades and the significand. -/
theorem ofUnits_units {b : Nat} (h : b < infinity) : ofUnits (units b) 1 = b := by
  have hbinade : binade = 2 ^ 52 := rfl
  unfold units
  by_cases hb : b < binade
  · have hshift : shift b = 0 := by rw [shift, Nat.div_eq_of_lt hb]
    have hsignificand : significand b = b := if_pos hb
    rw [hshift, hsignificand, ofUnits_mul_two_pow (.inr rfl) (by omega), Nat.zero_mul, Nat.zero_add]
    exact Nat.min_eq_right (Nat.le_of_lt h)
  · have hsignificand : significand b = b % binade + binade := if_neg hb
    have hsum : shift b * binade + significand b = b := by
      have hdiv := Nat.div_add_mod b binade
      have hpos : 1 ≤ b / binade := (Nat.one_le_div_iff (by decide)).2 (Nat.le_of_not_lt hb)
      have hle : 1 * binade ≤ b / binade * binade := Nat.mul_le_mul_right _ hpos
      rw [hsignificand, shift, Nat.sub_mul]
      rw [Nat.mul_comm] at hdiv
      omega
    have hmod := Nat.mod_lt b (show 0 < binade by decide)
    rw [ofUnits_mul_two_pow (.inl (by omega)) (by omega), hsum]
    exact Nat.min_eq_right (Nat.le_of_lt h)

end Binary64

/-! ## Decimal fractions -/

namespace Decimal

/-- Zeros that end the places say nothing, so they may be left out of the shortest text. -/
theorem nearest_reduce (coefficient places : Nat) :
    (reduce coefficient places).nearest = (⟨coefficient, places⟩ : Decimal).nearest := by
  induction places generalizing coefficient with
  | zero => rfl
  | succ places ih =>
    rw [reduce]
    split
    · obtain ⟨tenth, rfl⟩ : ∃ tenth, coefficient = 10 * tenth := ⟨coefficient / 10, by omega⟩
      rw [Nat.mul_div_cancel_left tenth (by decide), ih, nearest, nearest, Nat.pow_succ',
        Nat.mul_assoc, Binary64.ofUnits_mul_mul (by decide)]
    · rfl

/-- **The whole expansion of a magnitude reads back**, since a unit is a decimal fraction. -/
theorem nearest_exact {b : Nat} (h : b < Binary64.infinity) : (exact b).nearest = b := by
  have hten (n : Nat) : 5 ^ n * 2 ^ n = 10 ^ n := (Nat.mul_pow 5 2 n).symm
  have hpos : 0 < 10 ^ Binary64.unitExponent := Nat.pow_pos (by decide)
  calc (exact b).nearest
    _ = Binary64.ofUnits
          (Binary64.units b * 5 ^ Binary64.unitExponent * 2 ^ Binary64.unitExponent)
          (10 ^ Binary64.unitExponent) := by rw [exact, nearest_reduce, nearest]
    _ = Binary64.ofUnits (10 ^ Binary64.unitExponent * Binary64.units b)
          (10 ^ Binary64.unitExponent * 1) := by
      rw [Nat.mul_assoc, hten, Nat.mul_comm, Nat.mul_one]
    _ = b := by rw [Binary64.ofUnits_mul_mul hpos, Binary64.ofUnits_units h]

/-- A fraction that was found on a grid reads back. It is only taken from there if it does. -/
theorem nearest_of_onGrid? {b : Nat} {exponent : Int} {d : Decimal}
    (h : onGrid? b exponent = some d) : d.nearest = b := by
  have hfound := List.find?_some h
  exact of_decide_eq_true hfound

/-- **The shortest fraction reads back.** It was found on a grid, or it is the whole expansion. -/
theorem nearest_shortest {b : Nat} (h : b < Binary64.infinity) : (shortest b).nearest = b := by
  have hsearch : shortest b = ((List.range 17).findSome? fun n =>
      onGrid? b (leadingExponent b - (n + 1 : Nat))).getD (exact b) := rfl
  rw [hsearch]
  cases hfound : (List.range 17).findSome? fun n =>
      onGrid? b (leadingExponent b - (n + 1 : Nat)) with
  | none => rw [Option.getD_none, nearest_exact h]
  | some d =>
    obtain ⟨n, -, hgrid⟩ := List.exists_of_findSome?_eq_some hfound
    rw [Option.getD_some, nearest_of_onGrid? hgrid]

end Decimal

end ChunkMachine
