import ChunkMachine.Numeric.Power

set_option relaxedAutoImplicit false
set_option autoImplicit false

/-!
# Little-endian words

Whole numbers as a fixed number of bytes, the lowest first.

## Main definitions

* `LittleEndian.encode` — the lowest bytes of a number.
* `LittleEndian.decode` — the number that bytes denote.

## Main results

* `LittleEndian.decode_encode` — a number that fits is read back.
* `LittleEndian.encode_decode` — bytes are what their number is written as.
-/

namespace ChunkMachine.LittleEndian

/-- The `width` lowest bytes of a number, the lowest first. A number that needs more bytes is
cut. -/
def encode : Nat → Nat → List UInt8
  | 0, _ => []
  | width + 1, n => UInt8.ofNat n :: encode width (n / 256)

/-- The number whose bytes are given, the lowest first. -/
def decode : List UInt8 → Nat
  | [] => 0
  | byte :: rest => byte.toNat + 256 * decode rest

/-- A field has its width, whatever the number is. -/
@[simp] theorem length_encode (width n : Nat) : (encode width n).length = width := by
  induction width generalizing n with
  | zero => rfl
  | succ width ih => simp [encode, ih]

/-- Only the lowest bytes are kept: what is read back is the number modulo what its width can
hold. -/
theorem decode_encode_mod (width n : Nat) : decode (encode width n) = n % 256 ^ width := by
  induction width generalizing n with
  | zero => simp [encode, decode, Nat.mod_one]
  | succ width ih =>
    rw [encode, decode, ih, Nat.pow_succ', Nat.mod_mul]
    simp

/-- A number that fits into its field is read back. -/
theorem decode_encode {width n : Nat} (h : n < 256 ^ width) : decode (encode width n) = n := by
  rw [decode_encode_mod, Nat.mod_eq_of_lt h]

/-- Bytes are what their number is written as, in a field that is as wide as they are many. So no
two byte strings of one length denote the same number. -/
theorem encode_decode (bytes : List UInt8) : encode bytes.length (decode bytes) = bytes := by
  induction bytes with
  | nil => rfl
  | cons byte rest ih =>
    have hbyte : byte.toNat < 256 := byte.toNat_lt
    have hdiv : (byte.toNat + 256 * decode rest) / 256 = decode rest := by omega
    have hmod : UInt8.ofNat (byte.toNat + 256 * decode rest) = byte := by
      apply UInt8.toNat_inj.1
      simp only [UInt8.toNat_ofNat']
      omega
    simp only [List.length_cons, encode, decode, hdiv, hmod, ih]

/-- Bytes denote a number that fits into a field of their length. -/
theorem decode_lt (bytes : List UInt8) : decode bytes < 256 ^ bytes.length := by
  induction bytes with
  | nil => simp [decode]
  | cons byte rest ih =>
    have hbyte : byte.toNat < 256 := byte.toNat_lt
    simp only [decode, List.length_cons, Nat.pow_succ]
    omega

end ChunkMachine.LittleEndian
