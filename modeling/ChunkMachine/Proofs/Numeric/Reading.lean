import ChunkMachine.Numeric.Literal
import ChunkMachine.Proofs.Numeric.Rounding
import ChunkMachine.Proofs.Text.Numeral
import Mathlib.Data.List.TakeDrop
import Mathlib.Data.List.TakeWhile

set_option relaxedAutoImplicit false
set_option autoImplicit false

/-!
# Shown values read back

The text of a decimal fraction is a literal of that very fraction: digits, and a point with as many
digits behind it as there are places. The text of a value is its sign, if that is negative, and the
name of infinity or the text of the shortest fraction, so it is a literal of the value, bit by bit,
unless the value is not a number.

## Main results

* `Decimal.exists_text` — the digits of a decimal fraction, in front of the point and behind it.
* `Literal.scientific?_text` — its text is a literal of it.
* `Value.read?_chars` — the text of a value is a literal of it.
-/

namespace ChunkMachine

/-! ## Decimal fractions -/

namespace Decimal

/-- Zeros in front of a number say nothing, so digits may be padded to a width that they must
have. -/
theorem ofShortDigits_leftpad (width n : Nat) :
    ofShortDigits ((digits n).leftpad width '0') = n := by
  have hpad (k : Nat) :
      ofShortDigits (List.replicate k '0' ++ digits n) = ofShortDigits (digits n) := by
    induction k with
    | zero => rfl
    | succ k ih => exact ih
  rw [List.leftpad, hpad]
  exact Nat.ofDigitChars_ten_toDigits

/-- **The digits of a decimal fraction** in front of its point, of which there is one at least, and
behind it.

**Proof sketch.** The digits of the coefficient are padded, so that there is one more than there are
places. They are cut in front of as many digits as there are places. -/
theorem exists_text (d : Decimal) : ∃ whole fraction : List Char,
    (∀ c ∈ whole ++ fraction, c.isDigit) ∧ whole ≠ [] ∧ fraction.length = d.places ∧
      ofDigits (whole ++ fraction) = d.coefficient ∧
      d.text = whole ++ (if d.places = 0 then [] else '.' :: fraction) := by
  let ds := (digits d.coefficient).leftpad (d.places + 1) '0'
  have hlength : d.places + 1 ≤ ds.length := by
    simp [ds]
    omega
  refine ⟨ds.take (ds.length - d.places), ds.drop (ds.length - d.places), ?_, ?_, ?_, ?_, ?_⟩
  · rw [List.take_append_drop]
    exact fun c => Text.isDigit_of_mem_leftpad
  · rw [Ne, ← List.length_eq_zero_iff, List.length_take]
    omega
  · rw [List.length_drop]
    omega
  · rw [List.take_append_drop, ofDigits_eq, ofShortDigits_leftpad]
  · unfold text
    split
    · rename_i hzero
      rw [List.append_nil, hzero, Nat.sub_zero, List.take_length]
      exact congrArg (fun places => (digits d.coefficient).leftpad (places + 1) '0') hzero.symm
    · rfl

/-- A decimal fraction is written with a digit in front, and not with a point. -/
theorem exists_text_cons (d : Decimal) : ∃ c rest, d.text = c :: rest ∧ c.isDigit := by
  obtain ⟨whole, fraction, hdigits, hwhole, -, -, htext⟩ := d.exists_text
  obtain ⟨c, rest, rfl⟩ := List.exists_cons_of_ne_nil hwhole
  exact ⟨c, _, htext, hdigits c (by simp)⟩

end Decimal

/-! ## Literals -/

namespace Literal

/-- Without an exponent the digits are the coefficient, and the places are as many as stand behind
the point. -/
theorem Scientific.decimal_of_exponent_zero (whole fraction : List Char) :
    (⟨whole, fraction, 0⟩ : Scientific).decimal =
      ⟨Decimal.ofDigits (whole ++ fraction), fraction.length⟩ := by
  simp [Scientific.decimal]

/-- **The text of a decimal fraction is a literal of it**, with the same coefficient and the same
places. The number is not only as large.

**Proof sketch.** The digits in front of the point are the longest run of digits, and so are those
behind it, as nothing else follows. There is no exponent. -/
theorem scientific?_text (d : Decimal) :
    (scientific? d.text).map Scientific.decimal = some d := by
  obtain ⟨whole, fraction, hdigits, hwhole, hlength, hcoefficient, htext⟩ := d.exists_text
  have hpoint : ∀ c, (if d.places = 0 then [] else '.' :: fraction).head? = some c →
      ¬ c.isDigit := by
    intro c hc
    split at hc
    · contradiction
    · cases hc
      decide
  have hspan : d.text.span Char.isDigit =
      (whole, if d.places = 0 then [] else '.' :: fraction) := by
    rw [htext, List.span_eq_takeWhile_dropWhile, Run.takeWhile_append_stop _ hpoint,
      Run.dropWhile_append_stop _ hpoint] <;>
    exact fun c hc => hdigits c (List.mem_append_left _ hc)
  have hfraction :
      splitFraction (if d.places = 0 then [] else '.' :: fraction) = (fraction, []) := by
    split
    · rename_i hzero
      rw [hzero, List.length_eq_zero_iff] at hlength
      rw [hlength]
      rfl
    · have hall : ∀ c ∈ fraction, c.isDigit := fun c hc => hdigits c (List.mem_append_right _ hc)
      rw [splitFraction, List.span_eq_takeWhile_dropWhile, List.takeWhile_eq_self_iff.2 hall,
        List.dropWhile_eq_nil_iff.2 hall]
  unfold scientific?
  rw [hspan]
  simp only [hfraction]
  rw [if_neg (fun h => hwhole h.1)]
  simp only [exponent?, Option.map_some, Scientific.decimal_of_exponent_zero, hcoefficient, hlength]

/-- Digits have no other case, so that a literal of digits is not changed where names such as `inf`
are compared in small letters. -/
theorem toLower_of_isDigit {c : Char} (h : c.isDigit) : c.toLower = c := by
  unfold Char.toLower
  rw [dif_neg]
  rintro ⟨hlow, -⟩
  simp only [Char.isDigit, Bool.and_eq_true, decide_eq_true_eq] at h
  exact absurd (UInt32.le_trans hlow h.2) (by decide)

/-- The text of a decimal fraction is read as the magnitude nearest to it. It begins with a digit,
so it is none of the names of special values. -/
theorem magnitude?_text (d : Decimal) : magnitude? d.text = some d.nearest := by
  obtain ⟨c, rest, htext, hdigit⟩ := d.exists_text_cons
  have hlower : (d.text.map Char.toLower).head? = some c := by
    rw [htext, List.map_cons, List.head?_cons, toLower_of_isDigit hdigit]
  -- it is none of the names, which begin with letters
  have hword (word : String) (hletter : ∀ c, word.toList.head? = some c → ¬ c.isDigit) :
      d.text.map Char.toLower ≠ word.toList := fun heq => hletter c (heq ▸ hlower) hdigit
  have hinf := hword "inf" (by rintro c ⟨⟩; decide)
  have hinfinity := hword "infinity" (by rintro c ⟨⟩; decide)
  have hnan := hword "nan" (by rintro c ⟨⟩; decide)
  have hread := congrArg (Option.map Decimal.nearest) (scientific?_text d)
  rw [Option.map_map] at hread
  unfold magnitude?
  simp only [hinf, hinfinity, hnan, or_self, if_false]
  exact hread

/-- A literal that begins with a letter or a digit has no sign, and is read as a value that is not
negative. -/
theorem read?_of_isAlphanum {c : Char} (hc : c.isAlphanum) (rest : List Char) :
    read? (c :: rest) = (magnitude? (c :: rest)).map (Value.ofMagnitude false) := by
  unfold read?
  split
  · rename_i heq
    cases heq
    contradiction
  · rename_i heq
    cases heq
    contradiction
  · rfl

end Literal

/-! ## Values -/

namespace Value

/-- A value is told by its sign and its magnitude, also if it is a zero.

**Proof sketch.** The sign is the highest bit, which is masked, and the magnitude is the rest of the
pattern. Their sum is the pattern. -/
theorem ofMagnitude_magnitude (v : Value) : ofMagnitude v.isNegative v.magnitude = v := by
  have hlt := v.bits.toNat_lt
  -- the mask leaves the highest bit where it is and takes away all others
  have hand : (v.bits &&& signBit).toNat = 2 ^ 63 * (v.bits.toNat / 2 ^ 63) := by
    have hsign : signBit.toNat = 2 ^ 63 := rfl
    have hdiv : (v.bits.toNat &&& 2 ^ 63) / 2 ^ 63 = v.bits.toNat / 2 ^ 63 := by
      rw [Nat.and_div_two_pow, Nat.div_self (by decide), Nat.and_one_is_mod]
      omega
    have hmod : (v.bits.toNat &&& 2 ^ 63) % 2 ^ 63 = 0 := by
      rw [Nat.and_mod_two_pow, Nat.mod_self, Nat.and_zero]
    rw [UInt64.toNat_and, hsign]
    omega
  have hnegative : v.isNegative = decide (2 ^ 63 ≤ v.bits.toNat) := by
    unfold isNegative
    rw [decide_eq_decide, Ne, ← UInt64.toNat_inj, hand]
    show ¬ _ = 0 ↔ _
    omega
  have hbits : (if v.isNegative then 2 ^ 63 else 0) + v.magnitude = v.bits.toNat := by
    rw [hnegative, magnitude]
    simp only [decide_eq_true_eq]
    split <;> omega
  rw [ofMagnitude, hbits, UInt64.ofNat_toNat]

/-- The text of a magnitude is read as that magnitude, infinity included, which is written by its
name. -/
theorem magnitude?_magnitudeText {b : Nat} (h : b ≤ Binary64.infinity) :
    Literal.magnitude? (magnitudeText b) = some b := by
  unfold magnitudeText
  split
  · rename_i heq
    rw [heq]
    rfl
  · rw [Literal.magnitude?_text, Decimal.nearest_shortest (by omega)]

/-- The text of a magnitude begins with a letter or a digit, so that a sign can be put in front of
it. -/
theorem exists_magnitudeText_cons (b : Nat) :
    ∃ c rest, magnitudeText b = c :: rest ∧ c.isAlphanum := by
  unfold magnitudeText
  split
  · exact ⟨'i', ['n', 'f'], rfl, by decide⟩
  · obtain ⟨c, rest, htext, hdigit⟩ := (Decimal.shortest b).exists_text_cons
    exact ⟨c, rest, htext, by simp [Char.isAlphanum, hdigit]⟩

/-- Every value is shown, if only as what it is not. -/
theorem chars_ne_nil (v : Value) : v.chars ≠ [] := by
  obtain ⟨c, rest, htext, -⟩ := exists_magnitudeText_cons v.magnitude
  unfold chars
  split
  · decide
  · split
    · exact List.cons_ne_nil _ _
    · rw [htext]
      exact List.cons_ne_nil _ _

/-- **The text of a value is a literal of it**, unless the value is not a number. Both signs of zero
and of infinity are told apart. -/
theorem read?_chars {v : Value} (h : v.isNaN = false) : Literal.read? v.chars = some v := by
  have hle : v.magnitude ≤ Binary64.infinity := Nat.le_of_not_lt (of_decide_eq_false h)
  have hmagnitude := magnitude?_magnitudeText hle
  have hvalue := v.ofMagnitude_magnitude
  unfold chars
  rw [h, if_neg Bool.false_ne_true]
  cases hsign : v.isNegative with
  | true =>
    rw [if_pos rfl, Literal.read?, hmagnitude, Option.map_some, ← hsign, hvalue]
  | false =>
    obtain ⟨c, rest, htext, hfirst⟩ := exists_magnitudeText_cons v.magnitude
    rw [if_neg Bool.false_ne_true, htext, Literal.read?_of_isAlphanum hfirst, ← htext, hmagnitude,
      Option.map_some, ← hsign, hvalue]

end Value

end ChunkMachine
