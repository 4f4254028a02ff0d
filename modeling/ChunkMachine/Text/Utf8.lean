set_option relaxedAutoImplicit false
set_option autoImplicit false

/-!
# UTF-8 with replacement

Bytes are read as UTF-8. What is not well formed is replaced: every longest run of bytes that
starts a character but does not complete one, and every byte that starts none, becomes one
replacement character.

## Main definitions

* `Utf8State`, `Utf8State.feed` — a decoder that takes one byte at a time.
* `Text.decodeUtf8` — the characters of a list of bytes.
-/

namespace ChunkMachine

/-- Where a decoder stands: between characters, or within one. In a character it knows how many
bytes are missing, between which bounds the next one has to lie, and the bits read so far. -/
inductive Utf8State where
  /-- The bytes so far are whole characters. -/
  | boundary
  /-- Some bytes of a character are read, and others are missing. -/
  | inside (missing : Nat) (low high : UInt8) (bits : Nat)
  deriving DecidableEq, Repr

namespace Utf8State

/-- The character that stands for ill-formed bytes. It is also a character of its own, so a decoded
text does not tell whether there were such bytes. -/
def replacement : Char := '\ufffd'

/-- What a byte does between two characters: the characters it completes, and the state after it.
Bounds on the second byte rule out overlong forms, surrogates and what lies beyond Unicode. -/
def start (byte : UInt8) : List Char × Utf8State :=
  let n := byte.toNat
  if n < 0x80 then ([Char.ofNat n], boundary)
  else if n < 0xC2 then ([replacement], boundary)
  else if n < 0xE0 then ([], inside 1 0x80 0xBF (n - 0xC0))
  else if n < 0xF0 then
    ([], inside 2 (if n = 0xE0 then 0xA0 else 0x80) (if n = 0xED then 0x9F else 0xBF) (n - 0xE0))
  else if n < 0xF5 then
    ([], inside 3 (if n = 0xF0 then 0x90 else 0x80) (if n = 0xF4 then 0x8F else 0xBF) (n - 0xF0))
  else ([replacement], boundary)

/-- What a byte does: the characters it completes, and the state after it. A byte that cannot
continue a character leaves a replacement for it and starts anew. -/
def feed (s : Utf8State) (byte : UInt8) : List Char × Utf8State :=
  match s with
  | boundary => start byte
  | inside missing low high bits =>
    if low ≤ byte ∧ byte ≤ high then
      let bits := bits * 64 + (byte.toNat - 0x80)
      if missing = 1 then ([Char.ofNat bits], boundary)
      else ([], inside (missing - 1) 0x80 0xBF bits)
    else
      let (chars, s) := start byte
      (replacement :: chars, s)

/-- What the end of the bytes completes: nothing between characters, and a replacement for one that
was begun. -/
def finish : Utf8State → List Char
  | boundary => []
  | inside _ _ _ _ => [replacement]

end Utf8State

namespace Text

/-- The characters of the bytes that follow those that gave the reversed characters in `chars`. -/
def decodeUtf8From (s : Utf8State) (chars : List Char) : List UInt8 → List Char
  | [] => (s.finish ++ chars).reverse
  | byte :: rest =>
    let (new, s) := s.feed byte
    decodeUtf8From s (new.reverse ++ chars) rest

/-- The characters of a list of bytes, with replacements for what is no UTF-8. Every list of bytes
has such characters. -/
def decodeUtf8 (bytes : List UInt8) : List Char := decodeUtf8From .boundary [] bytes

end Text

end ChunkMachine
