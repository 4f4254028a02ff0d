import ChunkMachine.Proofs.Text.Run
import ChunkMachine.Token.Cursor

set_option relaxedAutoImplicit false
set_option autoImplicit false

/-!
# Characters and their bytes

The bytes of a text are those of its characters, one after the other. An ASCII character is one
byte, with the code of the character; every other character starts with a byte that is not ASCII and
does not continue a character, and goes on with bytes that do. So a reader that tells only ASCII
characters apart passes whole characters, although it sees bytes.

## Main definitions

* `Text.encode` — the bytes of some characters.
* `Text.AsciiClass` — the classes of characters that a reader of bytes can tell.

## Main results

* `Text.takeWhile_encode` — a run of bytes of such a class is a run of characters.
* `Text.count_encode` — line feeds can be counted as bytes.
* `Text.slice?_eq_some_iff` — what can be cut out of a text are its characters.
-/

namespace ChunkMachine.Text

/-- The bytes of some characters, one character after the other, in UTF-8. -/
def encode (cs : List Char) : List UInt8 := cs.flatMap String.utf8EncodeChar

/-- A class to which all characters that are not ASCII belong, or none of them. Such a class can be
told from bytes. -/
def AsciiClass (p : Char → Bool) : Prop :=
  ∀ c d : Char, 0x80 ≤ c.toNat → 0x80 ≤ d.toNat → p c = p d

/-- No characters have no bytes. -/
@[simp]
theorem encode_nil : encode [] = [] := rfl

/-- The bytes of a first character stand before those of the others. -/
@[simp]
theorem encode_cons (c : Char) (cs : List Char) :
    encode (c :: cs) = String.utf8EncodeChar c ++ encode cs := List.flatMap_cons

/-- The bytes of characters one after another are their bytes one after another. -/
@[simp]
theorem encode_append (cs ds : List Char) : encode (cs ++ ds) = encode cs ++ encode ds :=
  List.flatMap_append

/-- The bytes of a text are those of its characters, so that texts can be taken as lists. -/
theorem toUTF8_toList (text : String) : text.toUTF8.data.toList = encode text.toList := by
  rw [String.toUTF8_eq_toByteArray, ← String.utf8Encode_toList]
  exact List.toList_data_toByteArray

/-- The size of a text is the number of its bytes, and not of its characters. -/
theorem length_encode_toList (text : String) :
    (encode text.toList).length = text.utf8ByteSize := by
  rw [← toUTF8_toList]
  rfl

/-! ## One character -/

/-- An ASCII character is one byte, which is its code. -/
theorem utf8EncodeChar_of_ascii {c : Char} (h : c.toNat < 0x80) :
    String.utf8EncodeChar c = [c.toUInt8] := by
  have hv : c.val.toNat ≤ 0x7f := Nat.le_of_lt_succ h
  simp only [String.utf8EncodeChar, if_pos hv]
  rfl

/-- The byte of an ASCII character gives it back, as no other byte does. -/
theorem ofUInt8_toUInt8 {c : Char} (h : c.toNat < 0x80) : Char.ofUInt8 c.toUInt8 = c := by
  apply Char.ext
  apply UInt32.toNat_inj.1
  show (c.val.toUInt8.toUInt32).toNat = c.val.toNat
  rw [UInt8.toNat_toUInt32, UInt32.toNat_toUInt8]
  exact Nat.mod_eq_of_lt (Nat.lt_trans h (by decide))

/-- The bytes that continue a character, by their codes. -/
theorem isContinuation_iff {b : UInt8} :
    isContinuation b ↔ 0x80 ≤ b.toNat ∧ b.toNat < 0xC0 := by
  have hall : ∀ n < 256, isContinuation (UInt8.ofNat n) ↔
      0x80 ≤ (UInt8.ofNat n).toNat ∧ (UInt8.ofNat n).toNat < 0xC0 := by decide +kernel
  have hb := hall b.toNat b.toNat_lt
  rwa [UInt8.ofNat_toNat] at hb

/-- Every other character starts with a byte that is not ASCII, and its further bytes only continue
it.

**Proof sketch.** By the number of the bytes. The further ones have six bits of the code each, above
`0x80`. -/
theorem utf8EncodeChar_of_not_ascii {c : Char} (h : 0x80 ≤ c.toNat) :
    ∃ b bs, String.utf8EncodeChar c = b :: bs ∧ 0xC0 ≤ b.toNat ∧ ∀ b' ∈ bs, isContinuation b' := by
  have hcontinue : ∀ n : Nat, isContinuation (UInt8.ofNat (n % 0x40 + 0x80)) := by
    intro n
    rw [isContinuation_iff, UInt8.toNat_ofNat']
    omega
  have hv : ¬ c.val.toNat ≤ 0x7f := Nat.not_le_of_lt h
  simp only [String.utf8EncodeChar, if_neg hv]
  split
  · exact ⟨_, _, rfl, by rw [UInt8.toNat_ofNat']; omega, by
      simp only [List.forall_mem_cons, hcontinue]
      simp⟩
  · split
    · exact ⟨_, _, rfl, by rw [UInt8.toNat_ofNat']; omega, by
      simp only [List.forall_mem_cons, hcontinue]
      simp⟩
    · exact ⟨_, _, rfl, by rw [UInt8.toNat_ofNat']; omega, by
      simp only [List.forall_mem_cons, hcontinue]
      simp⟩

/-- Every character starts with a byte that does not continue another one. So starts can be told
apart from the rest. -/
theorem exists_utf8EncodeChar_eq_cons (c : Char) :
    ∃ b bs, String.utf8EncodeChar c = b :: bs ∧ ¬ isContinuation b := by
  by_cases h : c.toNat < 0x80
  · refine ⟨_, _, utf8EncodeChar_of_ascii h, ?_⟩
    rw [isContinuation_iff]
    have : c.toUInt8.toNat = c.toNat % 256 := UInt32.toNat_toUInt8 c.val
    omega
  · obtain ⟨b, bs, heq, hb, -⟩ := utf8EncodeChar_of_not_ascii (Nat.le_of_not_lt h)
    refine ⟨b, bs, heq, ?_⟩
    rw [isContinuation_iff]
    omega

/-- No byte of a character that is not ASCII has an ASCII code, so an ASCII byte stands for itself
wherever it is found. -/
theorem le_of_mem_utf8EncodeChar {c : Char} (h : 0x80 ≤ c.toNat) {b : UInt8}
    (hb : b ∈ String.utf8EncodeChar c) : 0x80 ≤ b.toNat := by
  obtain ⟨b', bs, heq, hb', hbs⟩ := utf8EncodeChar_of_not_ascii h
  rw [heq, List.mem_cons] at hb
  rcases hb with rfl | hb
  · omega
  · exact (isContinuation_iff.1 (hbs b hb)).1

/-- A byte that is taken as a character has the same code. -/
theorem toNat_ofUInt8 (b : UInt8) : (Char.ofUInt8 b).toNat = b.toNat := UInt8.toNat_toUInt32 b

/-! ## Runs of bytes -/

/-- All bytes of a character are of the class of the character. So a character is never cut by a
run. -/
theorem AsciiClass.of_mem {p : Char → Bool} (hp : AsciiClass p) {c : Char} {b : UInt8}
    (hb : b ∈ String.utf8EncodeChar c) : p (Char.ofUInt8 b) = p c := by
  by_cases h : c.toNat < 0x80
  · rw [utf8EncodeChar_of_ascii h, List.mem_singleton] at hb
    rw [hb, ofUInt8_toUInt8 h]
  · have hc := Nat.le_of_not_lt h
    exact hp _ _ (by rw [toNat_ofUInt8]; exact le_of_mem_utf8EncodeChar hc hb) hc

/-- **A run of bytes is a run of characters**, if the class is one that bytes tell. -/
theorem takeWhile_encode {p : Char → Bool} (hp : AsciiClass p) (cs : List Char) :
    (encode cs).takeWhile (p ∘ Char.ofUInt8) = encode (cs.takeWhile p) := by
  induction cs with
  | nil => rfl
  | cons c cs ih =>
    rw [encode_cons, List.takeWhile_cons]
    by_cases hc : p c
    · have hall : ∀ b ∈ String.utf8EncodeChar c, (p ∘ Char.ofUInt8) b := fun b hb =>
        (hp.of_mem hb).trans hc
      rw [List.takeWhile_append_of_pos hall, ih, if_pos hc, encode_cons]
    · obtain ⟨b, bs, heq, -⟩ := exists_utf8EncodeChar_eq_cons c
      have hb : p (Char.ofUInt8 b) = p c := hp.of_mem (heq ▸ List.mem_cons_self)
      rw [heq, List.cons_append, List.takeWhile_cons, Function.comp_apply, hb, if_neg hc, if_neg hc]
      rfl

/-- Between characters no byte continues one, so that nothing is to be skipped there. -/
theorem takeWhile_isContinuation_encode (cs : List Char) :
    (encode cs).takeWhile isContinuation = [] := by
  cases cs with
  | nil => rfl
  | cons c cs =>
    obtain ⟨b, bs, heq, hb⟩ := exists_utf8EncodeChar_eq_cons c
    rw [encode_cons, heq, List.cons_append, List.takeWhile_cons, if_neg hb]

/-- Line feeds can be counted as bytes, since they are no part of any other character.

**Proof sketch.** Induction on the characters. An ASCII character is told by its byte, and no byte
of another character is a line feed. -/
theorem count_encode (cs : List Char) : (encode cs).count '\n'.toUInt8 = cs.count '\n' := by
  induction cs with
  | nil => rfl
  | cons c cs ih =>
    rw [encode_cons, List.count_append, ih, List.count_cons, Nat.add_comm]
    congr 1
    by_cases h : c.toNat < 0x80
    · rw [utf8EncodeChar_of_ascii h, List.count_singleton]
      by_cases hc : c = '\n'
      · subst hc
        rfl
      · have hne : c.toUInt8 ≠ '\n'.toUInt8 := fun heq => hc (by
          rw [← ofUInt8_toUInt8 h, heq]
          rfl)
        simp [hc, hne]
    · have hc := Nat.le_of_not_lt h
      have hne : c ≠ '\n' := by
        rintro rfl
        exact absurd hc (by decide)
      rw [List.count_eq_zero_of_not_mem fun hmem =>
        absurd (le_of_mem_utf8EncodeChar hc hmem) (by decide)]
      simp [hne]

/-! ## Cuts -/

/-- A byte position lies between characters if and only if it is where some first characters of the
text end. -/
theorem isValid_iff {text : String} {i : Nat} :
    (⟨i⟩ : String.Pos.Raw).IsValid text ↔
      ∃ before after, text.toList = before ++ after ∧ i = (encode before).length := by
  rw [String.Pos.Raw.isValid_iff_exists_append]
  constructor
  · rintro ⟨s, t, rfl, hi⟩
    refine ⟨s.toList, t.toList, String.toList_append, ?_⟩
    rw [length_encode_toList]
    exact congrArg String.Pos.Raw.byteIdx hi
  · rintro ⟨before, after, heq, rfl⟩
    refine ⟨String.ofList before, String.ofList after, ?_, ?_⟩
    · rw [← String.ofList_append, ← heq, String.ofList_toList]
    · rw [← String.toList_ofList (l := before), length_encode_toList, String.toList_ofList]
      rfl

/-- Some characters have no bytes only if they are none, since each has at least one. -/
theorem eq_nil_of_length_encode {cs : List Char} (h : (encode cs).length = 0) : cs = [] := by
  cases cs with
  | nil => rfl
  | cons c cs =>
    obtain ⟨b, bs, heq, -⟩ := exists_utf8EncodeChar_eq_cons c
    simp [heq] at h

/-- **What can be cut out of a text are its characters.**

**Proof sketch.** Two positions in order that lie between characters split the characters of the
text into three parts. The bytes between the positions are those of the part in the middle. -/
theorem slice?_eq_some_iff {text : String} {start stop : Nat} {cs : List Char} :
    slice? text start stop = some cs ↔ ∃ before after, text.toList = before ++ cs ++ after ∧
      start = (encode before).length ∧ stop = (encode (before ++ cs)).length := by
  have hcut : ∀ {before span after}, text.toList = before ++ span ++ after →
      slice? text (encode before).length (encode (before ++ span)).length = some span := by
    intro before span after htext
    have hstart := isValid_iff.2 ⟨before, span ++ after, by rw [htext, List.append_assoc], rfl⟩
    have hstop := isValid_iff.2 ⟨before ++ span, after, htext, rfl⟩
    have hle : (encode before).length ≤ (encode (before ++ span)).length := by simp
    rw [slice?, dif_pos ⟨hstart, hstop, hle⟩, Option.some_inj]
    refine Eq.trans (congrArg String.toList ?_) (String.toList_ofList (l := span))
    apply String.toByteArray_inj.1
    apply ByteArray.ext
    apply Array.toList_inj.1
    have hbytes := toUTF8_toList text
    rw [String.toUTF8_eq_toByteArray, htext] at hbytes
    have hspan := toUTF8_toList (String.ofList span)
    rw [String.toUTF8_eq_toByteArray, String.toList_ofList] at hspan
    rw [String.toByteArray_extract, ByteArray.data_extract, Array.toList_extract, hbytes, hspan]
    simp
  constructor
  · intro h
    unfold slice? at h
    split at h
    · rename_i hvalid
      obtain ⟨hstart, hstop, hle⟩ := hvalid
      obtain ⟨before, rest, htext, rfl⟩ := isValid_iff.1 hstart
      obtain ⟨before', after, htext', rfl⟩ := isValid_iff.1 hstop
      have hspan : ∃ span, before' = before ++ span := by
        rcases List.append_eq_append_iff.1 (htext.symm.trans htext') with
          ⟨span, rfl, -⟩ | ⟨span, rfl, -⟩
        · exact ⟨span, rfl⟩
        · have hnil : span = [] := eq_nil_of_length_encode (by
            rw [encode_append, List.length_append] at hle
            omega)
          exact ⟨[], by simp [hnil]⟩
      obtain ⟨span, rfl⟩ := hspan
      have hslice := hcut htext'
      rw [slice?, dif_pos ⟨hstart, hstop, hle⟩, h] at hslice
      cases hslice
      exact ⟨before, after, htext', rfl, rfl⟩
    · contradiction
  · rintro ⟨before, after, htext, rfl, rfl⟩
    exact hcut htext

end ChunkMachine.Text
