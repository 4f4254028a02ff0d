import ChunkMachine.Checksum
import ChunkMachine.LittleEndian

set_option relaxedAutoImplicit false
set_option autoImplicit false

/-!
# The register of the checksum

A division step is linear in exclusive or, and no information is lost in it. So nothing is lost when
a byte is fed, and up to four bytes, which fill at most the whole register, can be told from what
they make of it.

## Main definitions

* `Checksum.subtrahend` — what a division step subtracts.
* `Checksum.residue` — the register behind bytes and their own checksum.

## Main results

* `Checksum.shift_xor`, `Checksum.shift_inj` — a division step is linear and injective.
* `Checksum.foldl_feed_inj` — feeding the same bytes keeps different registers apart.
* `Checksum.foldl_feed` — up to four bytes are fed like one word.
* `Checksum.eq_of_foldl_feed_eq` — different words are told apart by the register.
* `Checksum.foldl_feed_eq_residue_iff` — a checksum is right exactly if the register behind it is
  the residue.
-/

namespace ChunkMachine.Checksum

/-! ## One division step -/

/-- What a division step subtracts, by the coefficient that it shifts out: the generator or
nothing. -/
def subtrahend (coefficient : Bool) : UInt32 := if coefficient then generator else 0

/-- What is subtracted is linear in the coefficient that is shifted out. -/
theorem subtrahend_xor (a b : Bool) : subtrahend (a ^^ b) = subtrahend a ^^^ subtrahend b := by
  cases a <;> cases b <;> decide

/-- A division step by the lowest bit of the register. In this form no case distinction is left in
it. -/
theorem shift_eq (r : UInt32) : shift r = (r >>> 1) ^^^ subtrahend (r.toNat.testBit 0) := by
  have hodd : r &&& 1 = 1 ↔ r.toNat.testBit 0 = true := by
    rw [← UInt32.toNat_inj, UInt32.toNat_and, Nat.testBit_zero, decide_eq_true_iff]
    show r.toNat &&& 1 = 1 ↔ _
    rw [Nat.and_one_is_mod]
  unfold shift subtrahend
  by_cases h : r.toNat.testBit 0 = true
  · rw [if_pos (hodd.2 h), if_pos h]
  · rw [if_neg (mt hodd.1 h), if_neg h, UInt32.xor_zero]

/-- Half of a register is what is left of it when a coefficient is shifted out. -/
theorem toNat_shiftRight_one (r : UInt32) : (r >>> 1).toNat = r.toNat / 2 := by
  rw [UInt32.toNat_shiftRight]
  exact Nat.shiftRight_eq_div_pow r.toNat 1

/-- A division step is linear: that of a sum is the sum of the division steps. -/
theorem shift_xor (a b : UInt32) : shift (a ^^^ b) = shift a ^^^ shift b := by
  simp only [shift_eq, UInt32.shiftRight_xor, UInt32.toNat_xor, Nat.testBit_xor, subtrahend_xor]
  ac_rfl

/-- Only the register without coefficients becomes zero: the generator has the highest bit, which
no register has after a shift. -/
theorem eq_zero_of_shift_eq_zero {r : UInt32} (h : shift r = 0) : r = 0 := by
  have hlt := r.toNat_lt
  rw [shift_eq, UInt32.xor_eq_zero_iff, ← UInt32.toNat_inj, toNat_shiftRight_one] at h
  cases hbit : r.toNat.testBit 0 with
  | true =>
    have hgenerator : (subtrahend true).toNat = 0xEDB88320 := rfl
    rw [hbit, hgenerator] at h
    omega
  | false =>
    have hzero : (subtrahend false).toNat = 0 := rfl
    rw [hbit, hzero] at h
    rw [Nat.testBit_zero, decide_eq_false_iff_not] at hbit
    apply UInt32.toNat_inj.1
    show r.toNat = 0
    omega

/-- A division step keeps different registers apart. By linearity it is enough that it keeps them
apart from zero. -/
theorem shift_inj {a b : UInt32} : shift a = shift b ↔ a = b := by
  refine ⟨fun h => ?_, fun h => h ▸ rfl⟩
  rw [← UInt32.xor_eq_zero_iff, ← shift_xor] at h
  exact UInt32.xor_eq_zero_iff.1 (eq_zero_of_shift_eq_zero h)

/-- An even number is halved. Nothing is subtracted, as its lowest bit is not set. -/
theorem shift_ofNat_double {n : Nat} (h : 2 * n < 2 ^ 32) :
    shift (UInt32.ofNat (2 * n)) = UInt32.ofNat n := by
  have hnat : (UInt32.ofNat (2 * n)).toNat = 2 * n := UInt32.toNat_ofNat_of_lt' h
  have heven : subtrahend ((2 * n).testBit 0) = 0 := by simp [subtrahend]
  have hn : n < UInt32.size := Nat.lt_of_le_of_lt (by omega) h
  rw [shift_eq, hnat, heven, UInt32.xor_zero]
  apply UInt32.toNat_inj.1
  rw [toNat_shiftRight_one, hnat, UInt32.toNat_ofNat_of_lt' hn]
  omega

/-! ## Several division steps -/

/-- Division steps can be made in two lots. -/
theorem shifts_add (m n : Nat) (r : UInt32) : shifts (m + n) r = shifts n (shifts m r) := by
  induction m generalizing r with
  | zero => rw [Nat.zero_add]; rfl
  | succ m ih => rw [Nat.succ_add, shifts, shifts, ih]

/-- Any number of division steps is linear, by induction on their number. -/
theorem shifts_xor (n : Nat) (a b : UInt32) : shifts n (a ^^^ b) = shifts n a ^^^ shifts n b := by
  induction n generalizing a b with
  | zero => rfl
  | succ n ih => rw [shifts, shift_xor, ih]; rfl

/-- Any number of them keeps different registers apart. -/
theorem shifts_inj {n : Nat} {a b : UInt32} : shifts n a = shifts n b ↔ a = b := by
  induction n generalizing a b with
  | zero => rfl
  | succ n ih => rw [shifts, shifts, ih, shift_inj]

/-- Zeros below a number are shifted out without a trace, one step for each of them. -/
theorem shifts_ofNat_mul {k n : Nat} (h : 2 ^ k * n < 2 ^ 32) :
    shifts k (UInt32.ofNat (2 ^ k * n)) = UInt32.ofNat n := by
  induction k with
  | zero => rw [Nat.pow_zero, Nat.one_mul]; rfl
  | succ k ih =>
    rw [Nat.pow_succ', Nat.mul_assoc] at h ⊢
    rw [shifts, shift_ofNat_double h, ih (by omega)]

/-! ## Bytes -/

/-- A byte and a number above it do not overlap, so that adding them without carry is adding
them. -/
theorem toUInt32_xor_ofNat (byte : UInt8) (n : Nat) :
    byte.toUInt32 ^^^ UInt32.ofNat (2 ^ 8 * n) = UInt32.ofNat (byte.toNat + 2 ^ 8 * n) := by
  have hbyte : byte.toUInt32 = UInt32.ofNat byte.toNat := by
    rw [← UInt8.toNat_toUInt32, UInt32.ofNat_toNat]
  have hlt : byte.toNat < 2 ^ 8 := byte.toNat_lt
  have hdiv : (byte.toNat ^^^ 2 ^ 8 * n) / 2 ^ 8 = n := by
    rw [Nat.xor_div_two_pow, Nat.div_eq_of_lt hlt, Nat.mul_div_cancel_left n (by decide),
      Nat.zero_xor]
  have hmod : (byte.toNat ^^^ 2 ^ 8 * n) % 2 ^ 8 = byte.toNat := by
    rw [Nat.xor_mod_two_pow, Nat.mod_eq_of_lt hlt, Nat.mul_mod_right, Nat.xor_zero]
  have hxor : byte.toNat ^^^ 2 ^ 8 * n = byte.toNat + 2 ^ 8 * n := by omega
  rw [hbyte, ← UInt32.ofNat_xor, hxor]

/-- **Up to four bytes are fed like one word**: they enter the register together, and then as many
coefficients are shifted out as they have.

**Proof sketch.** Induction on the bytes. Those behind the first one stand eight places above it in
the word, and come down untouched while the eight coefficients of the first one are shifted out. -/
theorem foldl_feed {bytes : List UInt8} (h : bytes.length ≤ 4) (r : UInt32) :
    bytes.foldl feed r =
      shifts (8 * bytes.length) (r ^^^ UInt32.ofNat (LittleEndian.decode bytes)) := by
  induction bytes generalizing r with
  | nil => exact (UInt32.xor_zero (a := r)).symm
  | cons byte rest ih =>
    rw [List.length_cons] at h
    have hrest : 2 ^ 8 * LittleEndian.decode rest < 2 ^ 32 := by
      have hlt := LittleEndian.decode_lt rest
      have hpow : 256 ^ rest.length ≤ 256 ^ 3 := Nat.pow_le_pow_right (by decide) (by omega)
      omega
    have hword : r ^^^ UInt32.ofNat (LittleEndian.decode (byte :: rest)) =
        (r ^^^ byte.toUInt32) ^^^ UInt32.ofNat (2 ^ 8 * LittleEndian.decode rest) := by
      rw [UInt32.xor_assoc, toUInt32_xor_ofNat]
      rfl
    have hlength : 8 * (byte :: rest).length = 8 + 8 * rest.length := by
      rw [List.length_cons]
      omega
    rw [List.foldl_cons, ih (by omega), hword, hlength, shifts_add, shifts_xor 8,
      shifts_ofNat_mul hrest]
    rfl

/-- Feeding the same bytes keeps different registers apart. So two messages that differ in front of
the same bytes are told apart behind them. -/
theorem foldl_feed_inj {bytes : List UInt8} {a b : UInt32} :
    bytes.foldl feed a = bytes.foldl feed b ↔ a = b := by
  induction bytes generalizing a b with
  | nil => rfl
  | cons byte rest ih =>
    rw [List.foldl_cons, List.foldl_cons, ih, feed, feed, shifts_inj, UInt32.xor_left_inj]

/-- Up to four bytes are told apart by what they make of the register: they enter it as one word. -/
theorem eq_of_foldl_feed_eq {bytes bytes' : List UInt8} (hlength : bytes'.length = bytes.length)
    (h : bytes.length ≤ 4) {r : UInt32} (heq : bytes'.foldl feed r = bytes.foldl feed r) :
    bytes' = bytes := by
  have hword {w : List UInt8} (hw : w.length ≤ 4) :
      (UInt32.ofNat (LittleEndian.decode w)).toNat = LittleEndian.decode w := by
    have hpow : 256 ^ w.length ≤ 256 ^ 4 := Nat.pow_le_pow_right (by decide) hw
    exact UInt32.toNat_ofNat_of_lt' (Nat.lt_of_lt_of_le (LittleEndian.decode_lt w) hpow)
  rw [foldl_feed h, foldl_feed (hlength ▸ h), hlength, shifts_inj, UInt32.xor_right_inj,
    ← UInt32.toNat_inj, hword h, hword (hlength ▸ h)] at heq
  rw [← LittleEndian.encode_decode bytes', heq, hlength, LittleEndian.encode_decode]

/-! ## The checksum behind its bytes -/

/-- The register behind bytes and their own checksum, whatever the bytes are. -/
def residue : UInt32 := shifts 32 start

/-- The register behind bytes and their checksum is the residue: the checksum is the complement of
the register before it, so the two have all bits set together. -/
theorem foldl_feed_checksum (bytes : List UInt8) :
    (bytes ++ LittleEndian.encode 4 (crc32 bytes).toNat).foldl feed start = residue := by
  have hlength := LittleEndian.length_encode 4 (crc32 bytes).toNat
  rw [List.foldl_append, foldl_feed (Nat.le_of_eq hlength), hlength,
    LittleEndian.decode_encode (crc32 bytes).toNat_lt, UInt32.ofNat_toNat, crc32, UInt32.xor_not,
    UInt32.xor_self]
  rfl

/-- **A checksum is right** exactly if the register behind it is the residue. With this a check of
the trailer becomes a fact about the register behind all bytes. -/
theorem foldl_feed_eq_residue_iff {bytes trailer : List UInt8} (h : trailer.length = 4) :
    (bytes ++ trailer).foldl feed start = residue ↔
      trailer = LittleEndian.encode 4 (crc32 bytes).toNat := by
  constructor
  · intro hresidue
    rw [← foldl_feed_checksum bytes, List.foldl_append, List.foldl_append] at hresidue
    have hlength := LittleEndian.length_encode 4 (crc32 bytes).toNat
    exact eq_of_foldl_feed_eq (h.trans hlength.symm) (Nat.le_of_eq hlength) hresidue
  · rintro rfl
    exact foldl_feed_checksum bytes

end ChunkMachine.Checksum
