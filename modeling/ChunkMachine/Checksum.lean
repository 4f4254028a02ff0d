set_option relaxedAutoImplicit false
set_option autoImplicit false

/-!
# CRC-32

The IEEE 802.3 cyclic redundancy check over bytes. The register is kept reflected: the lowest bit
is the coefficient of the highest power, so that a byte enters at the low end and a division step
shifts right. It starts with all bits set and is complemented at the end.

## Main definitions

* `Checksum.crc32` — the checksum of a list of bytes.
-/

namespace ChunkMachine.Checksum

/-- The reflected generator polynomial, without its highest coefficient. -/
def generator : UInt32 := 0xEDB88320

/-- One division step: shift out a coefficient, and subtract the generator if it was set. The
register is reflected, so the coefficient of the highest power is the lowest bit. -/
def shift (r : UInt32) : UInt32 :=
  if r &&& 1 = 1 then (r >>> 1) ^^^ generator else r >>> 1

/-- The register after `n` division steps. -/
def shifts : Nat → UInt32 → UInt32
  | 0, r => r
  | n + 1, r => shifts n (shift r)

/-- The register after one more byte: the byte is added to the lowest coefficients, and eight steps
are made. -/
def feed (r : UInt32) (byte : UInt8) : UInt32 := shifts 8 (r ^^^ byte.toUInt32)

/-- The register before any byte. It is not zero, so that zeros in front of some bytes are
noticed. -/
def start : UInt32 := 0xFFFFFFFF

/-- The CRC-32 of a list of bytes: the register behind them, with all coefficients turned over. -/
def crc32 (bytes : List UInt8) : UInt32 := ~~~(bytes.foldl feed start)

/-- The check value that identifies this variant: that of the nine digits one to nine. -/
example : crc32 ("123456789".toUTF8.toList) = 0xCBF43926 := by decide +kernel

/-- No bytes give zero. -/
example : crc32 [] = 0 := by decide

end ChunkMachine.Checksum
