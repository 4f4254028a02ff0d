import ChunkMachine.Machine.Sink
import ChunkMachine.Proofs.Text.Encoding
import ChunkMachine.Text.Utf8

set_option relaxedAutoImplicit false
set_option autoImplicit false

/-!
# Reading back the bytes of texts

The decoder replaces what is no UTF-8. In the bytes of a text there is nothing to replace: every
character is completed by its last byte, and the bounds that are laid on its second byte hold,
because a character is written in as few bytes as it can be and is no surrogate.

## Main results

* `Utf8State.feed_lead_two`, `Utf8State.feed_inside` — what the bytes of a character do.
* `Text.decodeUtf8From_utf8EncodeChar` — the bytes of a character are read as that character.
* `Text.decodeUtf8_textBytes` — the bytes of a text are read as that text.
-/

namespace ChunkMachine

namespace Utf8State

/-! ## Single bytes -/

section Bytes

variable {w : Nat}

/-- An ASCII byte is a character of its own, and leaves the decoder between characters. -/
theorem feed_ascii (h : w < 0x80) :
    boundary.feed (UInt8.ofNat w) = ([Char.ofNat w], boundary) := by
  have hw : (UInt8.ofNat w).toNat = w := UInt8.toNat_ofNat_of_lt' (Nat.lt_trans h (by decide))
  simp only [feed, start, hw, if_pos h]

/-- A byte that starts a character of two bytes. The two least of them would make a character that
one byte is enough for, and start none. -/
theorem feed_lead_two (hlow : 2 ≤ w) (hhigh : w < 32) :
    boundary.feed (UInt8.ofNat (w + 0xC0)) = ([], inside 1 0x80 0xBF w) := by
  have hw : (UInt8.ofNat (w + 0xC0)).toNat = w + 0xC0 :=
    UInt8.toNat_ofNat_of_lt' (show _ < 256 by omega)
  have h₁ : ¬ w + 0xC0 < 0x80 := by omega
  have h₂ : ¬ w + 0xC0 < 0xC2 := by omega
  have h₃ : w + 0xC0 < 0xE0 := by omega
  simp only [feed, start, hw, if_neg h₁, if_neg h₂, if_pos h₃, Nat.add_sub_cancel]

/-- A byte that starts a character of three bytes. The bounds for the next byte leave out what two
bytes are enough for, and the surrogates. -/
theorem feed_lead_three (h : w < 16) :
    boundary.feed (UInt8.ofNat (w + 0xE0)) =
      ([], inside 2 (if w = 0 then 0xA0 else 0x80) (if w = 13 then 0x9F else 0xBF) w) := by
  have hw : (UInt8.ofNat (w + 0xE0)).toNat = w + 0xE0 :=
    UInt8.toNat_ofNat_of_lt' (show _ < 256 by omega)
  have h₁ : ¬ w + 0xE0 < 0x80 := by omega
  have h₂ : ¬ w + 0xE0 < 0xC2 := by omega
  have h₃ : ¬ w + 0xE0 < 0xE0 := by omega
  have h₄ : w + 0xE0 < 0xF0 := by omega
  have hfirst : w + 0xE0 = 0xE0 ↔ w = 0 := by omega
  have hsurrogate : w + 0xE0 = 0xED ↔ w = 13 := by omega
  simp only [feed, start, hw, if_neg h₁, if_neg h₂, if_neg h₃, if_pos h₄, hfirst, hsurrogate,
    Nat.add_sub_cancel]

/-- A byte that starts a character of four bytes. The bounds for the next byte leave out what three
bytes are enough for, and what lies beyond Unicode. -/
theorem feed_lead_four (h : w < 5) :
    boundary.feed (UInt8.ofNat (w + 0xF0)) =
      ([], inside 3 (if w = 0 then 0x90 else 0x80) (if w = 4 then 0x8F else 0xBF) w) := by
  have hw : (UInt8.ofNat (w + 0xF0)).toNat = w + 0xF0 :=
    UInt8.toNat_ofNat_of_lt' (show _ < 256 by omega)
  have h₁ : ¬ w + 0xF0 < 0x80 := by omega
  have h₂ : ¬ w + 0xF0 < 0xC2 := by omega
  have h₃ : ¬ w + 0xF0 < 0xE0 := by omega
  have h₄ : ¬ w + 0xF0 < 0xF0 := by omega
  have h₅ : w + 0xF0 < 0xF5 := by omega
  have hfirst : w + 0xF0 = 0xF0 ↔ w = 0 := by omega
  have hlast : w + 0xF0 = 0xF4 ↔ w = 4 := by omega
  simp only [feed, start, hw, if_neg h₁, if_neg h₂, if_neg h₃, if_neg h₄, if_pos h₅, hfirst, hlast,
    Nat.add_sub_cancel]

/-- A byte within the bounds adds six bits to its character. Behind it there are no bounds but those
of all such bytes. -/
theorem feed_inside {low high : UInt8} (hlow : low.toNat ≤ w + 0x80) (hhigh : w + 0x80 ≤ high.toNat)
    (missing bits : Nat) :
    (inside missing low high bits).feed (UInt8.ofNat (w + 0x80)) =
      if missing = 1 then ([Char.ofNat (bits * 64 + w)], boundary)
      else ([], inside (missing - 1) 0x80 0xBF (bits * 64 + w)) := by
  have hw : (UInt8.ofNat (w + 0x80)).toNat = w + 0x80 :=
    UInt8.toNat_ofNat_of_lt' (Nat.lt_of_le_of_lt hhigh high.toNat_lt)
  have hbounds : low ≤ UInt8.ofNat (w + 0x80) ∧ UInt8.ofNat (w + 0x80) ≤ high := by
    rw [UInt8.le_iff_toNat_le, UInt8.le_iff_toNat_le, hw]
    exact ⟨hlow, hhigh⟩
  simp only [feed, if_pos hbounds, hw, Nat.add_sub_cancel]

/-- The last byte of a character completes it, and its code is known. -/
theorem feed_last (h : w < 64) (bits : Nat) :
    (inside 1 0x80 0xBF bits).feed (UInt8.ofNat (w + 0x80)) =
      ([Char.ofNat (bits * 64 + w)], boundary) :=
  feed_inside (show 128 ≤ _ by omega) (show _ ≤ 191 by omega) 1 bits

/-- The last but one byte of a character leaves one missing, for which there is no special bound. -/
theorem feed_last_but_one (h : w < 64) (bits : Nat) :
    (inside 2 0x80 0xBF bits).feed (UInt8.ofNat (w + 0x80)) =
      ([], inside 1 0x80 0xBF (bits * 64 + w)) :=
  feed_inside (show 128 ≤ _ by omega) (show _ ≤ 191 by omega) 2 bits

end Bytes

end Utf8State

namespace Text

open Utf8State

/-! ## Characters -/

section Characters

variable {v : Nat} (chars : List Char) (rest : List UInt8)

/-- A byte that completes nothing only changes the state that the rest is decoded from. -/
theorem decodeUtf8From_of_feed_nil {s s' : Utf8State} {byte : UInt8}
    (h : s.feed byte = ([], s')) :
    decodeUtf8From s chars (byte :: rest) = decodeUtf8From s' chars rest := by
  rw [decodeUtf8From, h]
  rfl

/-- A byte that completes a character adds it to those that were read. -/
theorem decodeUtf8From_of_feed_singleton {s s' : Utf8State} {byte : UInt8} {c : Char}
    (h : s.feed byte = ([c], s')) :
    decodeUtf8From s chars (byte :: rest) = decodeUtf8From s' (c :: chars) rest := by
  rw [decodeUtf8From, h]
  rfl

/-- The code in two bytes is read as its character, wherever it stands between characters. -/
theorem decodeUtf8From_two (hlow : 0x7F < v) (hhigh : v ≤ 0x7FF) :
    decodeUtf8From .boundary chars
        (UInt8.ofNat (v / 64 % 32 + 192) :: UInt8.ofNat (v % 64 + 128) :: rest) =
      decodeUtf8From .boundary (Char.ofNat v :: chars) rest := by
  have hlead := feed_lead_two (w := v / 64 % 32) (by omega) (by omega)
  have hlast := feed_last (w := v % 64) (by omega) (v / 64 % 32)
  have hbits : v / 64 % 32 * 64 + v % 64 = v := by omega
  rw [hbits] at hlast
  rw [decodeUtf8From_of_feed_nil _ _ hlead, decodeUtf8From_of_feed_singleton _ _ hlast]

/-- The code in three bytes. The second one is bounded from below if the code could do with two
bytes, and from above if it could be that of a surrogate.

**Proof sketch.** Each byte is fed in turn, and the bits of the three make up the code again. The
bounds for the second byte are met since the code lies between the bounds of its length and is no
surrogate. -/
theorem decodeUtf8From_three (hlow : 0x7FF < v) (hhigh : v ≤ 0xFFFF)
    (hvalid : v < 0xD800 ∨ 0xDFFF < v) :
    decodeUtf8From .boundary chars
        (UInt8.ofNat (v / 4096 % 16 + 224) :: UInt8.ofNat (v / 64 % 64 + 128) ::
          UInt8.ofNat (v % 64 + 128) :: rest) =
      decodeUtf8From .boundary (Char.ofNat v :: chars) rest := by
  have hlead := feed_lead_three (w := v / 4096 % 16) (by omega)
  have hsecond : (inside 2 (if v / 4096 % 16 = 0 then 0xA0 else 0x80)
      (if v / 4096 % 16 = 13 then 0x9F else 0xBF) (v / 4096 % 16)).feed
        (UInt8.ofNat (v / 64 % 64 + 128)) =
      ([], inside 1 0x80 0xBF (v / 4096 % 16 * 64 + v / 64 % 64)) := by
    refine feed_inside ?_ ?_ 2 _
    · split
      · show 160 ≤ _
        omega
      · show 128 ≤ _
        omega
    · split
      · show _ ≤ 159
        omega
      · show _ ≤ 191
        omega
  have hlast := feed_last (w := v % 64) (by omega) (v / 4096 % 16 * 64 + v / 64 % 64)
  have hbits : (v / 4096 % 16 * 64 + v / 64 % 64) * 64 + v % 64 = v := by omega
  rw [hbits] at hlast
  rw [decodeUtf8From_of_feed_nil _ _ hlead, decodeUtf8From_of_feed_nil _ _ hsecond,
    decodeUtf8From_of_feed_singleton _ _ hlast]

/-- The code in four bytes. The second one is bounded from below if the code could do with three
bytes, and from above if it could lie beyond Unicode.

**Proof sketch.** Each byte is fed in turn, and the bits of the four make up the code again. The
bounds for the second byte are met since the code lies between the bounds of its length and within
Unicode. -/
theorem decodeUtf8From_four (hlow : 0xFFFF < v) (hhigh : v < 0x110000) :
    decodeUtf8From .boundary chars
        (UInt8.ofNat (v / 262144 % 8 + 240) :: UInt8.ofNat (v / 4096 % 64 + 128) ::
          UInt8.ofNat (v / 64 % 64 + 128) :: UInt8.ofNat (v % 64 + 128) :: rest) =
      decodeUtf8From .boundary (Char.ofNat v :: chars) rest := by
  have hlead := feed_lead_four (w := v / 262144 % 8) (by omega)
  have hsecond : (inside 3 (if v / 262144 % 8 = 0 then 0x90 else 0x80)
      (if v / 262144 % 8 = 4 then 0x8F else 0xBF) (v / 262144 % 8)).feed
        (UInt8.ofNat (v / 4096 % 64 + 128)) =
      ([], inside 2 0x80 0xBF (v / 262144 % 8 * 64 + v / 4096 % 64)) := by
    refine feed_inside ?_ ?_ 3 _
    · split
      · show 144 ≤ _
        omega
      · show 128 ≤ _
        omega
    · split
      · show _ ≤ 143
        omega
      · show _ ≤ 191
        omega
  have hthird := feed_last_but_one (w := v / 64 % 64) (by omega)
    (v / 262144 % 8 * 64 + v / 4096 % 64)
  have hlast := feed_last (w := v % 64) (by omega)
    ((v / 262144 % 8 * 64 + v / 4096 % 64) * 64 + v / 64 % 64)
  have hbits : ((v / 262144 % 8 * 64 + v / 4096 % 64) * 64 + v / 64 % 64) * 64 + v % 64 = v := by
    omega
  rw [hbits] at hlast
  rw [decodeUtf8From_of_feed_nil _ _ hlead, decodeUtf8From_of_feed_nil _ _ hsecond,
    decodeUtf8From_of_feed_nil _ _ hthird, decodeUtf8From_of_feed_singleton _ _ hlast]

/-- The bytes of a character are read as that character.

**Proof sketch.** By the number of its bytes, which is the least that its code needs. -/
theorem decodeUtf8From_utf8EncodeChar (c : Char) :
    decodeUtf8From .boundary chars (String.utf8EncodeChar c ++ rest) =
      decodeUtf8From .boundary (c :: chars) rest := by
  have hvalid : c.toNat < 0xD800 ∨ 0xDFFF < c.toNat ∧ c.toNat < 0x110000 := c.valid
  conv => rhs; rw [← Char.ofNat_toNat c]
  simp only [String.utf8EncodeChar, show c.val.toNat = c.toNat from rfl]
  split
  · have hfeed := feed_ascii (w := c.toNat) (by omega)
    exact decodeUtf8From_of_feed_singleton chars rest hfeed
  · split
    · exact decodeUtf8From_two chars rest (by omega) (by omega)
    · split
      · exact decodeUtf8From_three chars rest (by omega) (by omega) (by omega)
      · exact decodeUtf8From_four chars rest (by omega) (by omega)

end Characters

/-! ## Texts -/

/-- The bytes of characters are read as those characters, behind what was read before. -/
theorem decodeUtf8From_encode (cs chars : List Char) :
    decodeUtf8From .boundary chars (encode cs) = chars.reverse ++ cs := by
  induction cs generalizing chars with
  | nil => simp [decodeUtf8From, finish]
  | cons c cs ih =>
    rw [encode_cons, decodeUtf8From_utf8EncodeChar, ih, List.reverse_cons, List.append_assoc,
      List.singleton_append]

/-- The list of some bytes is the list of the array in which they are kept. -/
theorem toList_eq (bytes : ByteArray) : bytes.toList = bytes.data.toList := by
  have hloop (i : Nat) (taken : List UInt8) :
      ByteArray.toList.loop bytes i taken = taken.reverse ++ bytes.data.toList.drop i := by
    fun_induction ByteArray.toList.loop bytes i taken with
    | case1 i taken h ih =>
      have hi : i < bytes.data.toList.length := h
      have hget : bytes.get! i = bytes.data.toList[i] := getElem!_pos bytes.data i h
      rw [ih, List.drop_eq_getElem_cons hi, hget, List.reverse_cons, List.append_assoc,
        List.singleton_append]
    | case2 i taken h => rw [List.drop_eq_nil_of_le (Nat.le_of_not_lt h), List.append_nil]
  exact hloop 0 []

/-- **The bytes of a text are read as that text.** No character is replaced by the one that stands
for errors, and none is lost. -/
theorem decodeUtf8_textBytes (text : String) : decodeUtf8 (Sink.textBytes text) = text.toList := by
  have hbytes : Sink.textBytes text = encode text.toList := by
    rw [← toUTF8_toList]
    exact toList_eq text.toUTF8
  rw [decodeUtf8, hbytes, decodeUtf8From_encode]
  rfl

end Text

end ChunkMachine
