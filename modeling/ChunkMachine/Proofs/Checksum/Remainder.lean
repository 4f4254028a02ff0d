import ChunkMachine.Proofs.Checksum.Register
import Mathlib

set_option relaxedAutoImplicit false
set_option autoImplicit false

/-!
# The checksum is a remainder

The register holds a polynomial over the field of two elements, its lowest bit being the highest
coefficient. A division step multiplies that polynomial by `X` and takes the remainder modulo the
generator, a byte adds its own eight coefficients, and the bits that are all set at the start are
thirty-two more coefficients in front. So what is left behind a message is what long division
leaves of it.

## Main definitions

* `Checksum.ofBits`, `Checksum.message` — the polynomial of a message.
* `Checksum.ofWord`, `Checksum.reverse` — the polynomial of a word, and the word read backwards.
* `Checksum.ieee` — the generator polynomial.
* `Checksum.ofRegister` — the polynomial that a register holds.

## Main results

* `Checksum.mk_shift`, `Checksum.mk_feed`, `Checksum.mk_foldl_feed` — a division step, a byte and a
  message modulo the generator.
* `Checksum.ofWord_reverse_crc32` — the complement of the checksum, read backwards, is the
  remainder.
-/

namespace ChunkMachine.Checksum

open Polynomial AdjoinRoot

/-! ## Polynomials of bits -/

/-- A bit as a coefficient. There are two coefficients, and one added to one is zero. -/
def coefficient (bit : Bool) : ZMod 2 := if bit then 1 else 0

/-- The polynomial with given coefficients, the highest one first. -/
noncomputable def ofBits : List Bool → (ZMod 2)[X]
  | [] => 0
  | bit :: bits => C (coefficient bit) * X ^ bits.length + ofBits bits

/-- The bits of a byte, the lowest one first. This is the order in which they enter a reflected
register. -/
def byteBits (byte : UInt8) : List Bool := (List.range 8).map byte.toNat.testBit

/-- The polynomial of a message. Its first bit is the coefficient of the highest power. -/
noncomputable def message (bytes : List UInt8) : (ZMod 2)[X] := ofBits (bytes.flatMap byteBits)

/-- The polynomial of a word: each bit is the coefficient of the power that it has as a digit. -/
noncomputable def ofWord (word : UInt32) : (ZMod 2)[X] :=
  ∑ i ∈ Finset.range 32, C (coefficient (word.toNat.testBit i)) * X ^ i

/-- A word read backwards, its highest bit first. -/
def reverse (word : UInt32) : UInt32 := ⟨word.toBitVec.reverse⟩

/-- The generator polynomial of IEEE 802.3, of degree thirty-two. -/
noncomputable def ieee : (ZMod 2)[X] :=
  X ^ 32 + X ^ 26 + X ^ 23 + X ^ 22 + X ^ 16 + X ^ 12 + X ^ 11 + X ^ 10 + X ^ 8 + X ^ 7 + X ^ 5 +
    X ^ 4 + X ^ 2 + X + 1

/-- Adding bits without carry is adding coefficients. -/
theorem coefficient_xor (a b : Bool) : coefficient (a ^^ b) = coefficient a + coefficient b := by
  cases a <;> cases b <;> decide

/-- Bits in front of others stand above them. -/
theorem ofBits_append (bits bits' : List Bool) :
    ofBits (bits ++ bits') = ofBits bits * X ^ bits'.length + ofBits bits' := by
  induction bits with
  | nil => simp [ofBits]
  | cons bit bits ih =>
    rw [List.cons_append, ofBits, ofBits, ih, List.length_append, pow_add]
    ring

/-- The polynomial of bits that a function gives, as a sum over their places. -/
theorem ofBits_map_range (f : Nat → Bool) (n : Nat) :
    ofBits ((List.range n).map f) =
      ∑ i ∈ Finset.range n, C (coefficient (f i)) * X ^ (n - 1 - i) := by
  induction n with
  | zero => simp [ofBits]
  | succ n ih =>
    have hraised : ∀ i ∈ Finset.range n, C (coefficient (f i)) * X ^ (n - 1 - i) * X =
        C (coefficient (f i)) * X ^ (n + 1 - 1 - i) := by
      intro i hi
      have hpower : n + 1 - 1 - i = n - 1 - i + 1 := by
        have := Finset.mem_range.1 hi
        omega
      rw [hpower, pow_succ, mul_assoc]
    rw [List.range_succ, List.map_append, ofBits_append, ih, Finset.sum_range_succ,
      ← Finset.sum_congr rfl hraised, ← Finset.sum_mul]
    simp [ofBits]

/-- The first byte of a message stands in front of the others, above all of their bits. -/
theorem message_cons (byte : UInt8) (rest : List UInt8) :
    message (byte :: rest) = X ^ (8 * rest.length) * ofBits (byteBits byte) + message rest := by
  have hlength : (rest.flatMap byteBits).length = 8 * rest.length := by
    induction rest with
    | nil => rfl
    | cons byte rest ih => simp [ih, byteBits, Nat.mul_succ, Nat.add_comm]
  rw [message, List.flatMap_cons, ofBits_append, hlength, mul_comm]
  rfl

/-! ## Registers -/

/-- The polynomial that a register holds: the lowest bit is the highest coefficient. The register is
reflected, and shifting it down multiplies by `X`. -/
noncomputable def ofRegister (r : UInt32) : (ZMod 2)[X] :=
  ∑ i ∈ Finset.range 32, C (coefficient (r.toNat.testBit i)) * X ^ (31 - i)

/-- A register is a word read backwards. -/
theorem ofWord_reverse (r : UInt32) : ofWord (reverse r) = ofRegister r := by
  rw [ofWord, ofRegister, ← Finset.sum_range_reflect]
  refine Finset.sum_congr rfl fun i hi => ?_
  have hlt : i < 32 := Finset.mem_range.1 hi
  have hbit : (reverse r).toNat.testBit (32 - 1 - i) = r.toNat.testBit i := by
    show r.toBitVec.reverse.getLsbD (32 - 1 - i) = r.toBitVec.getLsbD i
    have hback : 32 - 1 - (32 - 1 - i) = i := by omega
    rw [BitVec.getLsbD_reverse, BitVec.getMsbD_eq_getLsbD, hback, decide_eq_true (by omega),
      Bool.true_and]
  rw [hbit]

/-- Adding registers without carry is adding polynomials. -/
theorem ofRegister_xor (a b : UInt32) : ofRegister (a ^^^ b) = ofRegister a + ofRegister b := by
  simp only [ofRegister, UInt32.toNat_xor, Nat.testBit_xor, coefficient_xor, C_add, add_mul,
    Finset.sum_add_distrib]

/-- A register holds thirty-two coefficients, so what it holds is a remainder already. -/
theorem degree_ofRegister_lt (r : UInt32) : (ofRegister r).degree < 32 := by
  refine (degree_lt_iff_coeff_zero _ 32).2 fun n hn => ?_
  rw [ofRegister, finsetSum_coeff]
  refine Finset.sum_eq_zero fun i _ => ?_
  rw [coeff_C_mul, coeff_X_pow, if_neg (by omega), mul_zero]

/-- At the start all coefficients are one. This is what is put in front of the message. -/
theorem ofRegister_start : ofRegister start = ∑ i ∈ Finset.range 32, X ^ i := by
  have hset : ∀ i < 32, start.toNat.testBit i = true := by decide
  rw [ofRegister, ← Finset.sum_range_reflect]
  refine Finset.sum_congr rfl fun i hi => ?_
  have hlt := Finset.mem_range.1 hi
  have hback : 31 - (32 - 1 - i) = i := by omega
  rw [hset _ (by omega), hback]
  simp [coefficient]

/-- A byte enters at the highest coefficients, those that are shifted out first. -/
theorem ofRegister_byte (byte : UInt8) :
    ofRegister byte.toUInt32 = X ^ 24 * ofBits (byteBits byte) := by
  have hhigh (i : Nat) : byte.toNat.testBit (8 + i) = false :=
    Nat.testBit_lt_two_pow (byte.toNat_lt.trans_le (Nat.pow_le_pow_right (by decide) (by omega)))
  have hlow : ∀ i ∈ Finset.range 8,
      C (coefficient (byte.toNat.testBit i)) * X ^ (31 - i) =
        X ^ 24 * (C (coefficient (byte.toNat.testBit i)) * X ^ (8 - 1 - i)) := by
    intro i hi
    have hpower : 31 - i = 24 + (8 - 1 - i) := by
      have := Finset.mem_range.1 hi
      omega
    rw [hpower, pow_add]
    ring
  rw [byteBits, ofBits_map_range, ofRegister, UInt8.toNat_toUInt32, show 32 = 8 + 24 from rfl,
    Finset.sum_range_add, Finset.mul_sum, Finset.sum_congr rfl hlow]
  simp [hhigh, coefficient]

/-- A register shifted by one place has lost its highest coefficient. If it was one, that is a
multiple of `X ^ 32`.

**Proof sketch.** The sum that a register stands for is shifted by one index. Its term at zero is
the lost coefficient, and each of the others is raised by one power. -/
theorem X_mul_ofRegister (r : UInt32) :
    X * ofRegister r = C (coefficient (r.toNat.testBit 0)) * X ^ 32 + ofRegister (r >>> 1) := by
  have hhalf (i : Nat) : (r >>> 1).toNat.testBit i = r.toNat.testBit (i + 1) := by
    rw [toNat_shiftRight_one, Nat.testBit_div_two]
  have hhighest : r.toNat.testBit (31 + 1) = false := Nat.testBit_lt_two_pow r.toNat_lt
  have hshifted : ofRegister (r >>> 1) =
      ∑ i ∈ Finset.range 31, C (coefficient (r.toNat.testBit (i + 1))) * X ^ (31 - i) := by
    simp only [ofRegister, hhalf]
    rw [Finset.sum_range_succ, hhighest]
    simp [coefficient]
  have hraised : ∀ i ∈ Finset.range 31,
      X * (C (coefficient (r.toNat.testBit (i + 1))) * X ^ (31 - (i + 1))) =
        C (coefficient (r.toNat.testBit (i + 1))) * X ^ (31 - i) := by
    intro i hi
    have hpower : 31 - i = 31 - (i + 1) + 1 := by
      have := Finset.mem_range.1 hi
      omega
    rw [hpower, pow_succ]
    ring
  rw [hshifted, ofRegister, Finset.sum_range_succ' _ 31, mul_add, Finset.mul_sum,
    Finset.sum_congr rfl hraised]
  ring

/-! ## The generator -/

/-- The constant of the division step is the generator without its highest coefficient, reflected.
This is the only place where the two are compared bit by bit. -/
theorem ieee_eq : ieee = X ^ 32 + ofRegister generator := by
  have hgenerator : generator.toNat = 0xEDB88320 := rfl
  rw [ofRegister, hgenerator]
  simp [ieee, Finset.sum_range_succ, coefficient, Nat.testBit]
  ring

/-- The generator can be divided by. -/
theorem monic_ieee : ieee.Monic := by
  rw [ieee_eq]
  exact monic_X_pow_add (degree_ofRegister_lt generator)

/-- A remainder has thirty-two coefficients. -/
theorem degree_ieee : ieee.degree = 32 := by
  have hlt : (ofRegister generator).degree < (X ^ 32 : (ZMod 2)[X]).degree := by
    rw [degree_X_pow]
    exact degree_ofRegister_lt generator
  rw [ieee_eq, degree_add_eq_left_of_degree_lt hlt, degree_X_pow]
  rfl

/-! ## Modulo the generator -/

/-- **A division step** multiplies by `X`. What it takes away is a multiple of the generator. -/
theorem mk_shift (r : UInt32) : mk ieee (ofRegister (shift r)) = mk ieee (X * ofRegister r) := by
  have hsubtrahend (bit : Bool) : ofRegister (subtrahend bit) =
      C (coefficient bit) * ofRegister generator := by
    cases bit with
    | false => simp [subtrahend, coefficient, ofRegister]
    | true => simp [subtrahend, coefficient]
  have hstep : X * ofRegister r - C (coefficient (r.toNat.testBit 0)) * ieee =
      ofRegister (shift r) := by
    rw [shift_eq, ofRegister_xor, hsubtrahend, X_mul_ofRegister, ieee_eq, CharTwo.sub_eq_add,
      mul_add, add_right_comm, ← add_assoc, CharTwo.add_self_eq_zero, zero_add, add_comm]
  rw [← hstep, map_sub, map_mul _ (C _), mk_self, mul_zero, sub_zero]

/-- Several division steps multiply by a power of `X`, by induction on their number. -/
theorem mk_shifts (n : Nat) (r : UInt32) :
    mk ieee (ofRegister (shifts n r)) = mk ieee (X ^ n * ofRegister r) := by
  induction n generalizing r with
  | zero =>
    rw [pow_zero, one_mul]
    rfl
  | succ n ih => rw [shifts, ih, map_mul, mk_shift, ← map_mul, pow_succ, mul_assoc]

/-- A byte moves what is there up by eight places and enters above, which modulo the generator is `X
^ 32` times the byte. -/
theorem mk_feed (r : UInt32) (byte : UInt8) :
    mk ieee (ofRegister (feed r byte)) =
      mk ieee (X ^ 8 * ofRegister r + X ^ 32 * ofBits (byteBits byte)) := by
  rw [feed, mk_shifts, ofRegister_xor, ofRegister_byte, mul_add, ← mul_assoc, ← pow_add]

/-- **The register behind a message**: what was there before it stands in front of the message. The
proof goes by induction on the bytes, each of which is fed by `mk_feed`. -/
theorem mk_foldl_feed (bytes : List UInt8) (r : UInt32) :
    mk ieee (ofRegister (bytes.foldl feed r)) =
      mk ieee (X ^ 32 * message bytes + X ^ (8 * bytes.length) * ofRegister r) := by
  induction bytes generalizing r with
  | nil => simp [message, ofBits]
  | cons byte rest ih =>
    have hpower : (X : (ZMod 2)[X]) ^ (8 * (byte :: rest).length) =
        X ^ (8 * rest.length) * X ^ 8 := by
      rw [List.length_cons, Nat.mul_succ, pow_add]
    calc mk ieee (ofRegister ((byte :: rest).foldl feed r))
      _ = mk ieee (X ^ 32 * message rest + X ^ (8 * rest.length) * ofRegister (feed r byte)) :=
        ih (feed r byte)
      _ = mk ieee (X ^ 32 * message rest + X ^ (8 * rest.length) *
            (X ^ 8 * ofRegister r + X ^ 32 * ofBits (byteBits byte))) := by
        rw [map_add, map_mul _ _ (ofRegister _), mk_feed, ← map_mul, ← map_add]
      _ = mk ieee (X ^ 32 * message (byte :: rest) +
            X ^ (8 * (byte :: rest).length) * ofRegister r) := by
        rw [message_cons, hpower]
        exact congrArg _ (by ring)

/-- **The checksum is a remainder**: its complement, read backwards, is what division by the
generator leaves of the message, with thirty-two places put behind it and thirty-two ones added at
its front.

**Proof sketch.** The complement of the checksum is the register behind the message, in which all
bits were set before. Modulo the generator it is the polynomial that is divided, and its degree is
below that of the generator. -/
theorem ofWord_reverse_crc32 (bytes : List UInt8) :
    ofWord (reverse (~~~crc32 bytes)) =
      (X ^ 32 * message bytes + X ^ (8 * bytes.length) * ∑ i ∈ Finset.range 32, X ^ i) %ₘ ieee := by
  have hregister : ofWord (reverse (~~~crc32 bytes)) = ofRegister (bytes.foldl feed start) := by
    rw [ofWord_reverse, crc32, UInt32.not_not]
  have hdivides := mk_eq_mk.1 (mk_foldl_feed bytes start)
  have hdegree : (ofRegister (bytes.foldl feed start)).degree < ieee.degree := by
    rw [degree_ieee]
    exact degree_ofRegister_lt _
  rw [hregister, ← ofRegister_start, ← modByMonic_eq_of_dvd_sub monic_ieee hdivides,
    (modByMonic_eq_self_iff monic_ieee).2 hdegree]

end ChunkMachine.Checksum
