import ChunkMachine.Proofs.Token.Calls

set_option relaxedAutoImplicit false
set_option autoImplicit false

/-!
# Tokens on bytes

From a position between two characters a cursor passes whole characters. The classes of bytes it
goes by tell only ASCII characters apart, and of a character that starts no token it passes all
bytes. So the token it takes there is the one that starts with the character ahead.

## Main definitions

* `Cursor.At` — the cursor stands between these characters.
* `Cursor.behind` — the cursor behind some more characters.

## Main results

* `TokenKind.ofLetters_eq` — the switch on first letters finds the reserved words.
* `Cursor.At.skipWhile_eq` — a run of bytes is passed as a run of characters.
* `Cursor.At.token_eq` — the token that starts with a byte is the one that starts with its
  character.
-/

namespace ChunkMachine

/-! ## Reserved words -/

/-- **The switch on first letters finds the reserved words**, and no others: with any other letter,
or with any other word behind its letter, a word is an identifier.

**Proof sketch.** A reserved word is looked up by computation. Behind the letters of any other word
the switch compares with the rest of a single reserved word, which the word is not. -/
theorem TokenKind.ofLetters_eq (cs : List Char) : ofLetters cs = ofWord cs := by
  cases hword : Keyword.ofSpelling? cs with
  | some word =>
    rw [ofWord, hword, ← Keyword.ofSpelling?_eq_some_iff.1 hword]
    cases word <;> decide
  | none =>
    rw [ofWord, hword]
    unfold ofLetters
    split
    -- behind the letters that were looked at, the word is not the rest of the one reserved word
    all_goals first
      | rfl
      | refine if_neg fun h => ?_
        rename_i tail
        have htail : tail = _ := h
        subst htail
        exact absurd hword (by decide)

/-! ## What bytes tell of characters -/

/-- No character that is not ASCII is one that is, as their codes differ. -/
theorem ne_of_not_ascii {c d : Char} (hc : 0x80 ≤ c.toNat) (hd : d.toNat < 0x80) : c ≠ d := by
  rintro rfl
  omega

/-- The letters are ASCII. No other letter starts a word. -/
theorem toNat_lt_of_isWordStart {c : Char} (h : isWordStart c) : c.toNat < 0x80 := by
  rcases isWordStart_iff.1 h with ⟨-, hle⟩ | ⟨-, hle⟩ | rfl
  · exact Nat.lt_of_le_of_lt (UInt32.le_iff_toNat_le.1 hle) (by decide)
  · exact Nat.lt_of_le_of_lt (UInt32.le_iff_toNat_le.1 hle) (by decide)
  · decide

/-- The digits are ASCII. No other digit starts a number. -/
theorem toNat_lt_of_isDigit {c : Char} (h : c.isDigit) : c.toNat < 0x80 :=
  Nat.lt_of_le_of_lt (UInt32.le_iff_toNat_le.1 (isDigit_iff.1 h).2) (by decide)

/-- The characters of words are ASCII, so a word has as many bytes as characters. -/
theorem toNat_lt_of_isWordChar {c : Char} (h : isWordChar c) : c.toNat < 0x80 := by
  rcases Bool.or_eq_true_iff.1 h with hletter | hdigit
  · exact toNat_lt_of_isWordStart hletter
  · exact toNat_lt_of_isDigit hdigit

/-- The blanks are ASCII, so blanks can be skipped as bytes. -/
theorem toNat_lt_of_isGapChar {c : Char} (h : isGapChar c) : c.toNat < 0x80 := by
  rcases isGapChar_iff.1 h with rfl | rfl | rfl | rfl <;> decide

/-- The characters that start a mark are ASCII. -/
theorem toNat_lt_of_ofChar? {c : Char} {mark : Punctuation}
    (h : Punctuation.ofChar? c = some mark) : c.toNat < 0x80 := by
  unfold Punctuation.ofChar? at h
  split at h
  all_goals first | decide | contradiction

/-- No token starts with a character that is not ASCII, so all of its bytes are unexpected
together. -/
theorem unclassed_of_not_ascii {c : Char} (h : 0x80 ≤ c.toNat) :
    ¬ isWordStart c ∧ ¬ c.isDigit ∧ c ≠ '"' ∧ Punctuation.ofChar? c = none := by
  refine ⟨fun hc => absurd (toNat_lt_of_isWordStart hc) (by omega),
    fun hc => absurd (toNat_lt_of_isDigit hc) (by omega), ne_of_not_ascii h (by decide), ?_⟩
  cases hmark : Punctuation.ofChar? c with
  | none => rfl
  | some mark => exact absurd (toNat_lt_of_ofChar? hmark) (by omega)

/-- Bytes tell a class of ASCII characters, since no byte of another character is in it. -/
theorem asciiClass_of_ascii {p : Char → Bool} (h : ∀ c, p c → c.toNat < 0x80) :
    Text.AsciiClass p := by
  intro c d hc hd
  rw [Bool.eq_iff_iff]
  exact ⟨fun hp => absurd (h c hp) (by omega), fun hp => absurd (h d hp) (by omega)⟩

/-- Bytes tell a class that leaves out one ASCII character, such as the inside of a string or of a
comment. -/
theorem asciiClass_ne {d : Char} (hd : d.toNat < 0x80) : Text.AsciiClass (· ≠ d) := by
  intro c c' hc hc'
  simp [ne_of_not_ascii hc hd, ne_of_not_ascii hc' hd]

/-- The byte of an ASCII character tells it from all others, so that a test on bytes is one on
characters. -/
theorem ne_comp_ofUInt8 {d : Char} (hd : d.toNat < 0x80) :
    (fun b => decide (b ≠ d.toUInt8)) = (fun c => decide (c ≠ d)) ∘ Char.ofUInt8 := by
  funext b
  have hiff : b ≠ d.toUInt8 ↔ Char.ofUInt8 b ≠ d := by
    refine not_congr ⟨?_, fun h => ?_⟩
    · rintro rfl
      exact Text.ofUInt8_toUInt8 hd
    · apply UInt8.toNat_inj.1
      rw [← Text.toNat_ofUInt8 b, h, ← Text.toNat_ofUInt8, Text.ofUInt8_toUInt8 hd]
  exact decide_eq_decide.2 hiff

/-- ASCII characters are read back from their bytes. This is how reserved words are looked up. -/
theorem map_ofUInt8_encode {cs : List Char} (h : ∀ c ∈ cs, c.toNat < 0x80) :
    (Text.encode cs).map Char.ofUInt8 = cs := by
  induction cs with
  | nil => rfl
  | cons c cs ih =>
    obtain ⟨hc, hcs⟩ := List.forall_mem_cons.1 h
    rw [Text.encode_cons, Text.utf8EncodeChar_of_ascii hc, List.map_append, ih hcs, List.map_cons,
      Text.ofUInt8_toUInt8 hc]
    rfl

namespace Cursor

variable {c : Cursor} {before rest : List Char}

/-- The cursor behind some characters: further on by their bytes, and lower by their line feeds. -/
def behind (c : Cursor) (cs : List Char) : Cursor :=
  { c with current := c.current + (Text.encode cs).length, line := c.line + lineFeeds cs }

/-- The cursor behind some bytes, which need not be those of whole characters. -/
def behindBytes (c : Cursor) (bs : List UInt8) : Cursor :=
  { c with
    current := c.current + bs.length
    line := c.line + UInt32.ofNat (bs.count '\n'.toUInt8) }

/-- The text is `before ++ rest`, and the cursor stands between the two. So it stands between
characters. -/
structure At (c : Cursor) (before rest : List Char) : Prop where
  /-- The text is cut in two parts. -/
  text_eq : c.text.toList = before ++ rest
  /-- The cursor stands behind the bytes of the first part. -/
  current_eq : c.current = (Text.encode before).length

/-! ## Moving over bytes -/

/-- Behind no characters the cursor is where it was. -/
@[simp]
theorem behind_nil (c : Cursor) : c.behind [] = c := by simp [behind]

/-- Behind no bytes the cursor is where it was. -/
@[simp]
theorem behindBytes_nil (c : Cursor) : c.behindBytes [] = c := by simp [behindBytes]

/-- Behind characters the cursor is behind their bytes, as line feeds can be counted in both. -/
theorem behindBytes_encode (c : Cursor) (cs : List Char) :
    c.behindBytes (Text.encode cs) = c.behind cs := by
  rw [behindBytes, Text.count_encode]
  rfl

/-- The cursor may stop on the way, between any two bytes. -/
theorem behindBytes_append (c : Cursor) (bs bs' : List UInt8) :
    c.behindBytes (bs ++ bs') = (c.behindBytes bs).behindBytes bs' := by
  simp [behindBytes, Nat.add_assoc, UInt32.add_assoc]

/-- The cursor may stop between any two characters, too. -/
theorem behind_append (c : Cursor) (cs ds : List Char) :
    c.behind (cs ++ ds) = (c.behind cs).behind ds := by
  simp only [← behindBytes_encode, Text.encode_append, behindBytes_append]

/-- One byte is passed, and counted as a line if it is a line feed. -/
theorem behindBytes_singleton (c : Cursor) (b : UInt8) : c.behindBytes [b] = c.pass b := by
  unfold behindBytes pass
  by_cases hb : b = '\n'.toUInt8
  · subst hb
    rfl
  · simp [hb]

/-- An ASCII character is passed as one byte. -/
theorem pass_toUInt8 {ch : Char} (h : ch.toNat < 0x80) (c : Cursor) :
    c.pass ch.toUInt8 = c.behind [ch] := by
  rw [← behindBytes_singleton, ← behindBytes_encode, Text.encode_cons,
    Text.utf8EncodeChar_of_ascii h]
  rfl

/-- All bytes ahead that are of a class are passed, up to the first one that is not.

**Proof sketch.** Induction along the recursion of `skipWhile`. A byte ahead that is passed is the
first of the bytes ahead, and the others are ahead behind it. -/
theorem skipWhile_eq (p : UInt8 → Bool) (c : Cursor) :
    c.skipWhile p = c.behindBytes ((c.bytes.toList.drop c.current).takeWhile p) := by
  have hdrop : ∀ {c : Cursor} {b : UInt8}, c.peek = some b →
      c.bytes.toList.drop c.current = b :: (c.pass b).bytes.toList.drop (c.pass b).current := by
    intro c b hpeek
    obtain ⟨hlt, hget⟩ := Array.getElem?_eq_some_iff.1 hpeek
    rw [List.drop_eq_getElem_cons (by simpa using hlt), Array.getElem_toList, hget]
    rfl
  fun_induction skipWhile p c with
  | case1 c b hpeek hb ih =>
    rw [ih, hdrop hpeek, List.takeWhile_cons, if_pos hb, ← List.singleton_append,
      behindBytes_append, behindBytes_singleton]
  | case2 c b hpeek hb => rw [hdrop hpeek, List.takeWhile_cons, if_neg hb, behindBytes_nil]
  | case3 c hpeek =>
    have hle := Array.getElem?_eq_none_iff.1 hpeek
    rw [List.drop_eq_nil_of_le (by simpa using hle)]
    simp

/-! ## Between characters -/

namespace At

/-- Behind characters the cursor stands between characters again. -/
theorem behind (cs : List Char) (h : c.At before (cs ++ rest)) :
    (c.behind cs).At (before ++ cs) rest :=
  ⟨by rw [List.append_assoc]; exact h.text_eq, by
    rw [Text.encode_append, List.length_append, ← h.current_eq]
    rfl⟩

/-- Behind a single character the cursor stands between characters, too. -/
theorem behind_cons {ch : Char} {cs : List Char} (h : c.At before (ch :: cs)) :
    (c.behind [ch]).At (before ++ [ch]) cs := At.behind [ch] h

/-- Behind a run of characters the cursor stands between characters, however long the run is. -/
theorem run (h : c.At before rest) (p : Char → Bool) :
    (c.behind (rest.takeWhile p)).At (before ++ rest.takeWhile p) (rest.dropWhile p) :=
  At.behind _ (by rwa [List.takeWhile_append_dropWhile])

/-- To note where a token starts does not move the cursor. -/
theorem mark (h : c.At before rest) : c.mark.At before rest := ⟨h.text_eq, h.current_eq⟩

/-- The bytes of the text are those on both sides of the cursor. -/
theorem bytes_eq (h : c.At before rest) :
    c.bytes.toList = Text.encode before ++ Text.encode rest := by
  rw [bytes, Text.toUTF8_toList, h.text_eq, Text.encode_append]

/-- The bytes ahead are those of the characters ahead, so that what is scanned there is scanned on
characters. -/
theorem drop_eq (h : c.At before rest) : c.bytes.toList.drop c.current = Text.encode rest := by
  rw [h.bytes_eq, h.current_eq, List.drop_left]

/-- The byte ahead is the first of the characters ahead. At the end there is none. -/
theorem peek_eq (h : c.At before rest) : c.peek = (Text.encode rest).head? := by
  rw [peek, ← h.drop_eq, List.head?_drop, Array.getElem?_toList]

/-- All characters ahead that are of a class are passed, if the class is one that bytes tell. -/
theorem skipWhile_eq (h : c.At before rest) {p : Char → Bool} (hp : Text.AsciiClass p) :
    c.skipWhile (p ∘ Char.ofUInt8) = c.behind (rest.takeWhile p) := by
  rw [Cursor.skipWhile_eq, h.drop_eq, Text.takeWhile_encode hp, behindBytes_encode]

/-- Before an ASCII character its byte is ahead, and otherwise it is not. So a byte is enough to
look for one.

**Proof sketch.** An ASCII character is its own byte, and its byte gives it back. Any other
character starts with a byte that is not ASCII. -/
theorem peek_eq_some_iff (h : c.At before rest) {d : Char} (hd : d.toNat < 0x80) :
    c.peek = some d.toUInt8 ↔ rest.head? = some d := by
  rw [h.peek_eq]
  cases rest with
  | nil => simp
  | cons ch cs =>
    obtain ⟨b, bs, heq, -⟩ := Text.exists_utf8EncodeChar_eq_cons ch
    rw [Text.encode_cons, heq]
    simp only [List.cons_append, List.head?_cons, Option.some.injEq]
    by_cases hch : ch.toNat < 0x80
    · rw [Text.utf8EncodeChar_of_ascii hch] at heq
      obtain ⟨rfl, -⟩ := List.cons.inj heq
      constructor
      · intro hbyte
        rw [← Text.ofUInt8_toUInt8 hch, hbyte, Text.ofUInt8_toUInt8 hd]
      · rintro rfl
        rfl
    · have hb := Text.le_of_mem_utf8EncodeChar (Nat.le_of_not_lt hch)
        (heq ▸ List.mem_cons_self (a := b))
      constructor
      · rintro rfl
        rw [← Text.toNat_ofUInt8, Text.ofUInt8_toUInt8 hd] at hb
        omega
      · rintro rfl
        contradiction

/-- An ASCII character is taken where it is ahead, and otherwise nothing is. -/
theorem eat_eq (h : c.At before rest) {d : Char} (hd : d.toNat < 0x80) :
    c.eat d.toUInt8 = if rest.head? = some d then some (c.behind [d]) else none := by
  unfold eat
  simp only [h.peek_eq_some_iff hd, pass_toUInt8 hd]

/-- The byte ahead is of a class if and only if the character ahead is, for all classes that bytes
tell. -/
theorem any_peek (h : c.At before rest) {p : Char → Bool} (hp : Text.AsciiClass p) :
    c.peek.any (p ∘ Char.ofUInt8) = rest.head?.any p := by
  rw [h.peek_eq]
  cases rest with
  | nil => rfl
  | cons ch cs =>
    obtain ⟨b, bs, heq, -⟩ := Text.exists_utf8EncodeChar_eq_cons ch
    rw [Text.encode_cons, heq]
    exact hp.of_mem (heq ▸ List.mem_cons_self)

/-- What a token covers is read back if it is ASCII, as the letters of a word are. -/
theorem letters_behind {span : List Char} (h : c.At before (span ++ rest))
    (hstart : c.start = c.current) (hspan : ∀ ch ∈ span, ch.toNat < 0x80) :
    (c.behind span).letters = span := by
  have hbytes : ((c.behind span).bytes.extract (c.behind span).start
      (c.behind span).current).toList = Text.encode span := by
    rw [Array.toList_extract]
    show (c.bytes.toList.extract c.start (c.current + (Text.encode span).length)) = _
    rw [List.extract_eq_take_drop, hstart, h.drop_eq, Text.encode_append]
    simp
  rw [letters, hbytes, map_ofUInt8_encode hspan]

/-! ## Tokens -/

variable {ch : Char} {cs : List Char}

/-- A word is the word on characters: of the same kind, and over at the same place. -/
theorem word_eq (h : c.At before (ch :: cs)) (hstart : c.start = c.current)
    (hch : isWordStart ch) :
    (c.behind [ch]).word = ((Lexeme.word ch cs).kind, c.behind (Lexeme.word ch cs).span) := by
  have hfirst := h.behind_cons
  have hspan : (c.behind [ch]).skipWhile (isWordChar ∘ Char.ofUInt8) =
      c.behind (ch :: cs.takeWhile isWordChar) := by
    rw [hfirst.skipWhile_eq (asciiClass_of_ascii fun _ => toNat_lt_of_isWordChar),
      ← behind_append]
    rfl
  have hat : c.At before ((ch :: cs.takeWhile isWordChar) ++ cs.dropWhile isWordChar) := by
    rwa [List.cons_append, List.takeWhile_append_dropWhile]
  have hletters := hat.letters_behind hstart (List.forall_mem_cons.2
    ⟨toNat_lt_of_isWordStart hch, fun d hd => toNat_lt_of_isWordChar (Run.of_mem_takeWhile hd)⟩)
  simp only [word, hspan, hletters, TokenKind.ofLetters_eq]
  rfl

/-- A number is the number on characters, with its fraction or without.

**Proof sketch.** Both pass the digits, since bytes tell digits. Then both look for a point and a
digit behind it, which are ASCII, and pass the digits there; without them both stop before the
point. -/
theorem number_eq (h : c.At before (ch :: cs)) :
    (c.behind [ch]).number = ((Lexeme.number ch cs).kind, c.behind (Lexeme.number ch cs).span) := by
  have hdigit : Text.AsciiClass Char.isDigit := asciiClass_of_ascii fun _ => toNat_lt_of_isDigit
  have hfirst := h.behind_cons
  have hwhole : (c.behind [ch]).skipWhile (Char.isDigit ∘ Char.ofUInt8) =
      c.behind (ch :: cs.takeWhile Char.isDigit) := by
    rw [hfirst.skipWhile_eq hdigit, ← behind_append]
    rfl
  have hpoint : (c.behind (ch :: cs.takeWhile Char.isDigit)).At
      (before ++ ch :: cs.takeWhile Char.isDigit) (cs.dropWhile Char.isDigit) := by
    refine At.behind _ ?_
    rwa [List.cons_append, List.takeWhile_append_dropWhile]
  have hpeek := hpoint.peek_eq_some_iff (d := '.') (by decide)
  unfold number
  simp only [hwhole]
  -- the cursor looks two bytes ahead, so the test is compared for both of them
  rcases Lexeme.number_cases ch cs with ⟨d, rest, hdrop, hd, heq⟩ | ⟨hno, heq⟩
  · rw [hdrop] at hpoint hpeek
    have hbehind := hpoint.behind_cons
    have hnext := hbehind.any_peek hdigit
    rw [← pass_toUInt8 (by decide)] at hnext
    rw [if_pos ⟨hpeek.2 rfl, hnext.trans hd⟩, pass_toUInt8 (by decide), hbehind.skipWhile_eq hdigit,
      List.takeWhile_cons, if_pos hd, heq, ← behind_append, ← behind_append]
    simp
  · rw [if_neg, heq]
    rintro ⟨hfeed, hnext⟩
    obtain ⟨rest, hdrop⟩ := List.head?_eq_some_iff.1 (hpeek.1 hfeed)
    rw [hdrop] at hpoint
    have hbehind := hpoint.behind_cons
    rw [← pass_toUInt8 (by decide)] at hbehind
    have hd : rest.head?.any Char.isDigit := (hbehind.any_peek hdigit).symm.trans hnext
    cases rest with
    | nil => contradiction
    | cons d rest => exact hno d rest hdrop hd

/-- A string is the string on characters, whether it is closed or not. -/
theorem string_eq (h : c.At before (ch :: cs)) :
    (c.behind [ch]).string = ((Lexeme.string ch cs).kind, c.behind (Lexeme.string ch cs).span) := by
  have hfirst := h.behind_cons
  have hbody : (c.behind [ch]).skipWhile (fun b => decide (b ≠ '"'.toUInt8)) =
      c.behind (ch :: cs.takeWhile (· ≠ '"')) := by
    rw [ne_comp_ofUInt8 (by decide), hfirst.skipWhile_eq (asciiClass_ne (by decide)),
      ← behind_append]
    rfl
  have hquote : (c.behind (ch :: cs.takeWhile (· ≠ '"'))).At
      (before ++ ch :: cs.takeWhile (· ≠ '"')) (cs.dropWhile (· ≠ '"')) := by
    refine At.behind _ ?_
    rwa [List.cons_append, List.takeWhile_append_dropWhile]
  simp only [string, hbody, hquote.eat_eq (d := '"') (by decide)]
  rcases Lexeme.string_cases ch cs with ⟨rest, hdrop, heq⟩ | ⟨hdrop, heq⟩
  · rw [hdrop, heq, List.head?_cons, if_pos rfl, ← behind_append]
    rfl
  · rw [hdrop, heq, if_neg (by simp)]

/-- A mark is the mark on characters, with its equals sign or without. -/
theorem punctuation_eq (h : c.At before (ch :: cs)) (mark : Punctuation) :
    (c.behind [ch]).punctuation mark =
      ((Lexeme.punctuation mark ch cs).kind, c.behind (Lexeme.punctuation mark ch cs).span) := by
  have hfirst := h.behind_cons
  unfold punctuation
  rw [hfirst.eat_eq (d := '=') (by decide)]
  rcases Lexeme.punctuation_cases mark ch cs with ⟨rest, longer, rfl, hlonger, heq⟩ | ⟨hno, heq⟩
  · rw [heq, hlonger, List.head?_cons, if_pos rfl, ← behind_append]
    rfl
  · rw [heq]
    by_cases hequal : cs.head? = some '='
    · rw [hno hequal]
    · rw [if_neg hequal]
      cases mark.withEqual? <;> rfl

/-- A character that is not ASCII is passed with all of its bytes, and is a single error.

**Proof sketch.** The bytes behind the first one are those that continue the character, and no byte
behind them does, since what comes next starts a character. -/
theorem unexpected_eq (h : c.At before (ch :: cs)) {b : UInt8} {bs : List UInt8}
    (hencode : String.utf8EncodeChar ch = b :: bs) :
    (c.pass b).unexpected b = (.error .unexpectedCharacter, c.behind [ch]) := by
  have hbehind : c.behind [ch] = (c.pass b).behindBytes bs := by
    rw [← behindBytes_singleton, ← behindBytes_append, ← behindBytes_encode]
    simp [hencode]
  unfold unexpected
  rw [hbehind]
  by_cases hch : ch.toNat < 0x80
  · rw [Text.utf8EncodeChar_of_ascii hch] at hencode
    cases hencode
    rw [if_pos, behindBytes_nil]
    rw [UInt8.lt_iff_toNat_lt, ← Text.toNat_ofUInt8, Text.ofUInt8_toUInt8 hch]
    exact hch
  · obtain ⟨b', bs', hencode', hb, hbs⟩ :=
      Text.utf8EncodeChar_of_not_ascii (Nat.le_of_not_lt hch)
    cases hencode.symm.trans hencode'
    have hdrop : (c.pass b).bytes.toList.drop (c.pass b).current = bs ++ Text.encode cs := by
      show c.bytes.toList.drop (c.current + 1) = _
      rw [← List.drop_drop, h.drop_eq, Text.encode_cons, hencode]
      rfl
    rw [if_neg, Cursor.skipWhile_eq, hdrop, List.takeWhile_append_of_pos hbs,
      Text.takeWhile_isContinuation_encode, List.append_nil]
    rw [UInt8.lt_iff_toNat_lt]
    exact Nat.not_lt_of_le (Nat.le_trans (by decide) hb)

/-- **The token that starts with a byte is the one that starts with its character.**

**Proof sketch.** An ASCII byte is its character, so that both go the same way by it. For any other
character no class is met by either, and all of its bytes are passed. -/
theorem token_eq (h : c.At before (ch :: cs)) (hstart : c.start = c.current) {b : UInt8}
    {bs : List UInt8} (hencode : String.utf8EncodeChar ch = b :: bs) :
    (c.pass b).token b =
      ((Lexeme.ofChars ch cs).kind, c.behind (Lexeme.ofChars ch cs).span) := by
  unfold token Lexeme.ofChars
  by_cases hch : ch.toNat < 0x80
  · have hb : ch.toUInt8 = b := by
      rw [Text.utf8EncodeChar_of_ascii hch] at hencode
      exact (List.cons.inj hencode).1
    have hunexpected := h.unexpected_eq hencode
    rw [← hb, pass_toUInt8 hch] at hunexpected
    simp only [← hb, Text.ofUInt8_toUInt8 hch, pass_toUInt8 hch]
    split
    · rename_i hletter
      exact h.word_eq hstart hletter
    · split
      · exact h.number_eq
      · split
        · exact h.string_eq
        · cases Punctuation.ofChar? ch with
          | some mark => exact h.punctuation_eq mark
          | none => exact hunexpected
  · have hch := Nat.le_of_not_lt hch
    have hb : 0x80 ≤ (Char.ofUInt8 b).toNat := by
      rw [Text.toNat_ofUInt8]
      exact Text.le_of_mem_utf8EncodeChar hch (hencode ▸ List.mem_cons_self)
    obtain ⟨hletter, hdigit, hquote, hmark⟩ := unclassed_of_not_ascii hch
    obtain ⟨hletter', hdigit', hquote', hmark'⟩ := unclassed_of_not_ascii hb
    rw [if_neg hletter, if_neg hdigit, if_neg hquote, if_neg hletter', if_neg hdigit',
      if_neg hquote', hmark, hmark']
    exact h.unexpected_eq hencode

end At

end Cursor

end ChunkMachine
