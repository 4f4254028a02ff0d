import ChunkMachine.Proofs.Token.Bytes

set_option relaxedAutoImplicit false
set_option autoImplicit false

/-!
# A cursor follows a scanner

The scanner on bytes and the scanner on characters go over a text side by side: before each call
they stand at the same place and on the same line, and each call gives the same token.

## Main definitions

* `Cursor.Follows` — a cursor and a scanner stand at the same place of a text.

## Main results

* `Cursor.At.scan_splitGap` — what the cursor takes as the next token, and where it ends up.
* `Cursor.Follows.scan_eq`, `Cursor.Follows.next` — one call on bytes is one call on characters.
* `Cursor.exists_follows_after` — so it is with every call.
* `Cursor.Follows.lexeme?_eq` — a token can be cut out of the text, and shows the same.
-/

namespace ChunkMachine.Cursor

variable {c : Cursor} {before rest : List Char}

/-! ## The next token -/

/-- **One call on bytes**: the cursor passes the gap, and behind it what the token covers. -/
theorem scan_eq (c : Cursor) :
    c.scan = match (c.skipWhile (isGapChar ∘ Char.ofUInt8)).mark.advance with
      | none => (.eof, (c.skipWhile (isGapChar ∘ Char.ofUInt8)).mark)
      | some (b, behind) =>
        match if b = '/'.toUInt8 then behind.eat '/'.toUInt8 else none with
        | some comment => (comment.skipWhile (· ≠ '\n'.toUInt8)).scan
        | none => behind.token b := by
  rw [scan]
  split
  · rename_i hadvance
    rw [hadvance]
  · rename_i b behind hadvance
    rw [hadvance]
    by_cases hb : b = '/'.toUInt8
    · rw [if_pos hb]
      simp only [if_pos hb]
      split <;> rename_i heat <;> rw [heat]
    · rw [if_neg hb]
      simp only [if_neg hb]

namespace At

variable {ch : Char} {cs : List Char}

/-- Before the end of the text there is no byte ahead to be passed. -/
theorem advance_nil (h : c.At before []) : c.advance = none := by
  rw [advance, h.peek_eq]
  rfl

/-- Before a character its first byte is ahead. Passing it may leave the cursor within the
character. -/
theorem advance_cons (h : c.At before (ch :: cs)) {b : UInt8} {bs : List UInt8}
    (hencode : String.utf8EncodeChar ch = b :: bs) : c.advance = some (b, c.pass b) := by
  rw [advance, h.peek_eq, Text.encode_cons, hencode]
  rfl

/-- Blanks are passed, all that are ahead. -/
theorem skipWhile_isGapChar (h : c.At before rest) :
    c.skipWhile (isGapChar ∘ Char.ofUInt8) = c.behind (rest.takeWhile isGapChar) :=
  h.skipWhile_eq (asciiClass_of_ascii fun _ => toNat_lt_of_isGapChar)

/-- A comment is passed, and scanning goes on behind it, where the line feed is. -/
theorem scan_comment (h : c.At before rest) {body : List Char}
    (hrest : rest.dropWhile isGapChar = '/' :: '/' :: body) :
    c.scan = ((c.behind (rest.takeWhile isGapChar)).mark.behind
      ('/' :: '/' :: body.takeWhile (· ≠ '\n'))).scan := by
  have hat := (h.run isGapChar).mark
  rw [hrest] at hat
  have hslash := Text.utf8EncodeChar_of_ascii (c := '/') (by decide)
  rw [Cursor.scan_eq, h.skipWhile_isGapChar, hat.advance_cons hslash]
  simp only [if_pos, pass_toUInt8 (by decide : ('/').toNat < 0x80)]
  rw [hat.behind_cons.eat_eq (d := '/') (by decide), List.head?_cons, if_pos rfl,
    ne_comp_ofUInt8 (by decide)]
  simp only []
  rw [hat.behind_cons.behind_cons.skipWhile_eq (asciiClass_ne (by decide)), ← behind_append,
    ← behind_append]
  rfl

/-- Where neither a blank nor a comment is ahead, the token starts.

**Proof sketch.** The cursor passes the blanks and takes a byte. It would look for a comment only
behind a slash, and behind that there is no other one. So it goes on with the token of its byte, by
`At.token_eq`. -/
theorem scan_token (h : c.At before rest)
    (hrest : rest.dropWhile isGapChar = ch :: cs) (hstop : ¬ StartsGap (ch :: cs)) :
    c.scan = ((Lexeme.ofChars ch cs).kind,
      (c.behind (rest.takeWhile isGapChar)).mark.behind (Lexeme.ofChars ch cs).span) := by
  have hat := (h.run isGapChar).mark
  rw [hrest] at hat
  obtain ⟨b, bs, hencode, -⟩ := Text.exists_utf8EncodeChar_eq_cons ch
  -- one slash is not enough for a comment, so the byte goes on to start its token
  have hcomment : (if b = '/'.toUInt8 then
      ((c.behind (rest.takeWhile isGapChar)).mark.pass b).eat '/'.toUInt8 else none) = none := by
    by_cases hb : b = '/'.toUInt8
    · have hpeek : (c.behind (rest.takeWhile isGapChar)).mark.peek = some '/'.toUInt8 := by
        rw [hat.peek_eq, Text.encode_cons, hencode, hb]
        rfl
      have hch : ch = '/' := Option.some.inj ((hat.peek_eq_some_iff (by decide)).1 hpeek)
      subst hch
      have hnext : cs.head? ≠ some '/' := fun hhead => hstop (.inr ⟨rfl, hhead⟩)
      rw [if_pos hb, hb, pass_toUInt8 (by decide), hat.behind_cons.eat_eq (by decide),
        if_neg hnext]
    · rw [if_neg hb]
  rw [Cursor.scan_eq, h.skipWhile_isGapChar, hat.advance_cons hencode]
  simp only [hcomment]
  exact hat.token_eq rfl hencode

/-- Where only blanks are ahead, the end of the text is next, and the cursor is there. -/
theorem scan_end (h : c.At before rest) (hrest : rest.dropWhile isGapChar = []) :
    c.scan = (.eof, (c.behind (rest.takeWhile isGapChar)).mark) := by
  have hat := (h.run isGapChar).mark
  rw [hrest] at hat
  rw [Cursor.scan_eq, h.skipWhile_isGapChar, hat.advance_nil]

/-- **What the cursor takes as the next token, and where it ends up.** It passes the gap, starts the
token there, and passes what the token covers.

**Proof sketch.** Induction on the length of the text ahead. Behind a run of blanks there is the end
of the text, a token, or a comment; behind the comment the cursor is as if it had started there. -/
theorem scan_splitGap (h : c.At before rest) :
    c.scan = match (splitGap rest).2 with
      | [] => (.eof, (c.behind (splitGap rest).1).mark)
      | ch :: cs => ((Lexeme.ofChars ch cs).kind,
          (c.behind (splitGap rest).1).mark.behind (Lexeme.ofChars ch cs).span) := by
  induction hn : rest.length using Nat.strongRecOn generalizing c before rest with
  | ind n ih =>
    have hlength := Run.length_dropWhile_le isGapChar rest
    rw [splitGap_blanks]
    rcases startsGap_cases (rest.dropWhile isGapChar) with
      ⟨ch, cs, hrest, hch⟩ | ⟨body, hrest⟩ | hstop
    · exact absurd hch (Run.not_of_head?_dropWhile (congrArg List.head? hrest))
    · rw [h.scan_comment hrest]
      rw [hrest] at hlength ⊢
      have hle := Run.length_dropWhile_le (· ≠ '\n') body
      -- the cursor behind the comment, and behind the rest of the gap
      have hbody : '/' :: '/' :: body = ('/' :: '/' :: body.takeWhile (· ≠ '\n')) ++
          body.dropWhile (· ≠ '\n') := by simp
      have hcomment := (h.run isGapChar).mark
      rw [hrest, hbody] at hcomment
      have hmark : ∀ gap, (((c.behind (rest.takeWhile isGapChar)).mark.behind
          ('/' :: '/' :: body.takeWhile (· ≠ '\n'))).behind gap).mark =
            (c.behind (rest.takeWhile isGapChar ++
              '/' :: '/' :: (body.takeWhile (· ≠ '\n') ++ gap))).mark := by
        intro gap
        rw [← List.cons_append, ← List.cons_append, behind_append, behind_append]
        rfl
      rw [ih _ (by simp at hlength; omega) (At.behind _ hcomment) rfl,
        splitGap_comment, hmark]
    · rw [splitGap_of_not_startsGap hstop, List.append_nil]
      cases hrest : rest.dropWhile isGapChar with
      | nil => exact h.scan_end hrest
      | cons ch cs => exact h.scan_token hrest (hrest ▸ hstop)

end At

/-! ## Side by side -/

/-- The cursor stands behind the characters `before` of the text, and the scanner has the others
ahead, on the same line. This is kept by every call. -/
structure Follows (text : String) (before : List Char) (c : Cursor) (s : Scanner) : Prop where
  /-- The cursor is one of that text. -/
  text_eq : c.text = text
  /-- It stands where the scanner has come to. -/
  isAt : c.At before s.rest
  /-- Both are on the same line. -/
  line_eq : c.line = s.line

/-- At the start of a text both stand before all of it, on line one. -/
theorem follows_ofString (text : String) :
    Follows text [] (ofString text) (Scanner.ofString text) :=
  ⟨rfl, ⟨rfl, rfl⟩, rfl⟩

namespace Follows

variable {text : String} {s : Scanner}

/-- **One call on bytes**: the cursor passes the gap, and behind it what the token covers. -/
theorem scan_eq (h : Follows text before c s) :
    c.scan = (s.scan.1.kind, (c.behind (splitGap s.rest).1).mark.behind s.scan.1.span) := by
  rw [h.isAt.scan_splitGap]
  rcases s.scan_cases with ⟨gap, hsplit, hscan⟩ | ⟨gap, ch, cs, hsplit, hscan⟩
  · rw [hsplit, hscan]
    simp
  · rw [hsplit, hscan]

/-- The token starts on the same line for both, be it where the gap ends. -/
theorem startLine_eq (h : Follows text before c s) : c.scan.2.startLine = s.scan.1.line := by
  rw [h.scan_eq, s.line_scan, ← h.line_eq]
  rfl

/-- The text in four parts: what is behind, the gap, the token and the rest. Nothing is left out. -/
theorem toList_eq (h : Follows text before c s) :
    text.toList = before ++ (splitGap s.rest).1 ++ s.scan.1.span ++ s.scan.2.rest := by
  rw [← h.text_eq, h.isAt.text_eq, List.append_assoc, List.append_assoc, ← List.append_assoc
    (splitGap s.rest).1, s.gap_append_span_append_rest]

/-- Behind the token both stand at the same place again, so that the calls can be compared one by
one. -/
theorem next (h : Follows text before c s) :
    Follows text (before ++ (splitGap s.rest).1 ++ s.scan.1.span) c.scan.2 s.scan.2 := by
  rw [h.scan_eq]
  refine ⟨h.text_eq, ?_, ?_⟩
  · refine At.behind _ (At.mark (At.behind _ ?_))
    rw [← List.append_assoc, s.gap_append_span_append_rest]
    exact h.isAt
  · rw [s.line_next, s.line_scan, ← h.line_eq]
    rfl

/-- Where the token starts and ends, in bytes: behind the gap, and behind what it covers. -/
theorem bounds (h : Follows text before c s) :
    c.current = (Text.encode before).length ∧
      c.scan.2.start = (Text.encode (before ++ (splitGap s.rest).1)).length ∧
      c.scan.2.current =
        (Text.encode (before ++ (splitGap s.rest).1 ++ s.scan.1.span)).length := by
  refine ⟨h.isAt.current_eq, ?_, h.next.isAt.current_eq⟩
  rw [h.scan_eq, Text.encode_append, List.length_append, ← h.isAt.current_eq]
  rfl

/-- **A token can be cut out of the text**, and shows what it shows on characters. -/
theorem lexeme?_eq (h : Follows text before c s) :
    c.scan.2.lexeme? c.scan.1 = some s.scan.1.lexeme := by
  obtain ⟨-, hstart, hcurrent⟩ := h.bounds
  have hkind : c.scan.1 = s.scan.1.kind := by rw [h.scan_eq]
  have hspan : Text.slice? c.scan.2.text c.scan.2.start c.scan.2.current = some s.scan.1.span :=
    Text.slice?_eq_some_iff.2 ⟨_, _, h.next.text_eq ▸ h.toList_eq, hstart, hcurrent⟩
  unfold lexeme? Token.lexeme
  rw [hkind, hspan]
  cases s.scan.1.kind <;> rfl

end Follows

/-- **Every call on bytes is the same call on characters.** -/
theorem exists_follows_after (text : String) (n : Nat) :
    ∃ before, Follows text before ((ofString text).after n) ((Scanner.ofString text).after n) := by
  induction n with
  | zero => exact ⟨[], follows_ofString text⟩
  | succ n ih =>
    obtain ⟨before, h⟩ := ih
    exact ⟨_, h.next⟩

end ChunkMachine.Cursor
