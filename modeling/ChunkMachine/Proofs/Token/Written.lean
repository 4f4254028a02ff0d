import ChunkMachine.Proofs.Token.Feeds

set_option relaxedAutoImplicit false
set_option autoImplicit false

/-!
# Texts that are written token by token

Tokens that are written one behind the other are read again as they are, if no token goes on with
the character behind it. Which characters these are depends on the kind of the token only. Between
the tokens there may be blanks and comments.

## Main definitions

* `TokenKind.endsBefore` — the characters that no token of a kind goes on with.
* `Written` — a text that begins with some tokens, with blanks and comments before them.

## Main results

* `Spelling.not_append_of_endsBefore` — no spelling goes on with it behind another one.
* `longestSpelling_of_endsBefore` — a spelling before it is the longest one.
* `Scanner.tokens_of_written` — tokens that are written so are read one by one.
-/

namespace ChunkMachine

/-- Whether every token of a kind is over before a character. A mark may become a longer one with an
equals sign, or the start of a comment with a slash; a string ends with its own last character. -/
def TokenKind.endsBefore (c : Char) : TokenKind → Bool
  | keyword _ => !isWordChar c
  | identifier => !isWordChar c
  | number => !c.isDigit && c ≠ '.'
  | punctuation _ => c ≠ '=' && c ≠ '/'
  | _ => true

/-- Blanks end all tokens, so that a blank may stand behind any of them. -/
theorem TokenKind.endsBefore_of_isGapChar {c : Char} (h : isGapChar c) (kind : TokenKind) :
    kind.endsBefore c := by
  rcases isGapChar_iff.1 h with rfl | rfl | rfl | rfl <;> cases kind <;> rfl

/-! ## Spellings before such characters -/

section Ends

variable {kind kind' : TokenKind} {span more rest : List Char} {c d : Char} {cs : List Char}

/-- A word is over before what is no letter and no digit, reserved or not. -/
theorem TokenKind.not_isWordChar_of_endsBefore (h : (TokenKind.ofWord cs).endsBefore c) :
    ¬ isWordChar c := by
  unfold TokenKind.ofWord at h
  split at h <;> simpa [endsBefore] using h

/-- Behind its first digit a number has only digits and a point, so other characters end it. -/
theorem IsNumberTail.isDigit_or_eq (h : IsNumberTail cs) (hd : d ∈ cs) : d.isDigit ∨ d = '.' := by
  rcases h with hds | ⟨ds, e, es, rfl, hds, he, hes⟩
  · exact .inl (hds d hd)
  · rcases List.mem_append.1 hd with hd | hd
    · exact .inl (hds d hd)
    · rcases List.mem_cons.1 hd with rfl | hd
      · exact .inr rfl
      · rcases List.mem_cons.1 hd with rfl | hd
        · exact .inl he
        · exact .inl (hes d hd)

/-- A string ends with the first quote behind its opening one, so that nothing can be added to
it. -/
theorem not_string_append {body body' : List Char} (hbody : '"' ∉ body')
    (h : body ++ '"' :: c :: more = body' ++ ['"']) : False := by
  rcases List.append_eq_append_iff.1 h with ⟨as, rfl, has⟩ | ⟨as, rfl, has⟩
  · cases as with
    | nil => simp at has
    | cons a as =>
      obtain ⟨rfl, -⟩ := List.cons.inj has
      simp at hbody
  · cases as with
    | nil => simp at has
    | cons a as => simp at has

/-- **No spelling goes on behind another one** with a character that ends the other one.

**Proof sketch.** Both start with the same character, so both are of the same rule. What such a rule
goes on with is what it excludes here, and a string has no quote before its last character. -/
theorem Spelling.not_append_of_endsBefore (h : Spelling kind span) (hc : kind.endsBefore c) :
    ¬ Spelling kind' (span ++ c :: more) := by
  intro h'
  obtain ⟨d, cs, rfl⟩ := List.exists_cons_of_ne_nil h.ne_nil
  rw [List.cons_append] at h'
  have hmem : c ∈ cs ++ c :: more := by simp
  rcases spelling_cons_iff.1 h with ⟨hd, -, rfl⟩ | ⟨hd, -, rfl⟩ | ⟨rfl, ⟨body, -, rfl⟩, rfl⟩ |
    ⟨mark, hmark, rfl⟩
  · exact TokenKind.not_isWordChar_of_endsBefore hc ((h'.of_letter hd).1 c hmem)
  · simp only [TokenKind.endsBefore, Bool.and_eq_true, Bool.not_eq_true', decide_eq_true_eq] at hc
    rcases (h'.of_digit hd).1.isDigit_or_eq hmem with hdigit | hpoint
    · rw [hc.1] at hdigit
      contradiction
    · exact hc.2 hpoint
  · obtain ⟨body', hbody', heq⟩ := h'.of_quote.1
    rw [List.append_assoc] at heq
    exact not_string_append hbody' heq
  · -- behind its first character a mark has an equals sign at most
    obtain ⟨hletter, hdigit, hquote⟩ := Punctuation.classes_of_spelling hmark
    obtain ⟨mark', hmark', -⟩ := h'.of_other hletter hdigit hquote
    obtain ⟨single, -, ⟨hnil, -⟩ | ⟨hcs, -⟩⟩ := Punctuation.spelling_eq_cons_iff.1 hmark'
    · simp [hnil] at hmem
    · rw [hcs, List.mem_singleton] at hmem
      simp [TokenKind.endsBefore, hmem] at hc

/-- **A spelling before such a character is the longest one**, and so it is at the end of a text. -/
theorem longestSpelling_of_endsBefore (h : Spelling kind span)
    (hrest : rest.head?.all kind.endsBefore) : LongestSpelling kind span rest := by
  refine ⟨h, fun kind' span' rest' happend h' => ?_⟩
  rcases List.append_eq_append_iff.1 happend with ⟨more, rfl, -⟩ | ⟨more, rfl, rfl⟩
  · simp
  · cases more with
    | nil => simp
    | cons c more => exact absurd h' (h.not_append_of_endsBefore hrest)

/-- Neither a blank nor a comment starts with such a spelling. A slash before a slash would start
one.

**Proof sketch.** The first character of a spelling is of its own class, and none of these has a
blank in it. Of the marks only the slash starts with a slash, and it is not over before another
one. -/
theorem Spelling.not_startsGap (h : Spelling kind span)
    (hrest : rest.head?.all kind.endsBefore) : ¬ StartsGap (span ++ rest) := by
  obtain ⟨d, cs, rfl⟩ := List.exists_cons_of_ne_nil h.ne_nil
  rintro (hblank | ⟨rfl, hslash⟩)
  · rcases spelling_cons_iff.1 h with ⟨hletter, -⟩ | ⟨hd, -⟩ | ⟨rfl, -⟩ | ⟨mark, hmark, -⟩
    · rcases isGapChar_iff.1 hblank with rfl | rfl | rfl | rfl <;> contradiction
    · rcases isGapChar_iff.1 hblank with rfl | rfl | rfl | rfl <;> contradiction
    · contradiction
    · obtain ⟨single, hd, -⟩ := Punctuation.spelling_eq_cons_iff.1 hmark
      rcases isGapChar_iff.1 hblank with rfl | rfl | rfl | rfl <;> contradiction
  · -- of all marks only the slash itself starts with a slash, and no other slash may follow it
    obtain ⟨mark, hmark, rfl⟩ := h.of_other (by decide) (by decide) (by decide)
    obtain ⟨single, hsingle, ⟨rfl, -⟩ | ⟨-, hlonger⟩⟩ := Punctuation.spelling_eq_cons_iff.1 hmark
    · have hslash : rest.head? = some '/' := hslash
      rw [hslash] at hrest
      contradiction
    · cases hsingle
      contradiction

end Ends

/-! ## Written texts -/

/-- The text `cs` begins with some tokens, and behind them is `rest`. Before each token there may be
blanks and comments. -/
inductive Written : (tokens : List (TokenKind × List Char)) → (cs rest : List Char) → Prop where
  /-- Nothing is written yet. -/
  | nil {rest : List Char} : Written [] rest rest
  /-- A blank may stand in front. -/
  | blank {c : Char} {tokens : List (TokenKind × List Char)} {cs rest : List Char}
      (hc : isGapChar c) (h : Written tokens cs rest) : Written tokens (c :: cs) rest
  /-- A comment may stand in front, up to the end of its line. -/
  | comment {body : List Char} {tokens : List (TokenKind × List Char)} {cs rest : List Char}
      (hbody : '\n' ∉ body) (h : Written tokens ('\n' :: cs) rest) :
      Written tokens ('/' :: '/' :: (body ++ '\n' :: cs)) rest
  /-- A token is written, and is over before what follows. -/
  | token {kind : TokenKind} {span : List Char} {tokens : List (TokenKind × List Char)}
      {cs rest : List Char} (hspan : Spelling kind span) (hend : cs.head?.all kind.endsBefore)
      (h : Written tokens cs rest) : Written ((kind, span) :: tokens) (span ++ cs) rest

namespace Written

variable {tokens others : List (TokenKind × List Char)} {cs middle rest : List Char}

/-- Written texts follow one another: what the first one leaves is where the second one begins. -/
theorem append (h : Written tokens cs middle) (h' : Written others middle rest) :
    Written (tokens ++ others) cs rest := by
  induction h with
  | nil => exact h'
  | blank hc _ ih => exact .blank hc (ih h')
  | comment hbody _ ih => exact .comment hbody (ih h')
  | token hspan hend _ ih => exact .token hspan hend (ih h')

/-- All tokens of a written text are spelled, which makes none of them an error. -/
theorem spelling (h : Written tokens cs rest) : ∀ t ∈ tokens, Spelling t.1 t.2 := by
  induction h with
  | nil => exact fun _ ht => absurd ht List.not_mem_nil
  | blank _ _ ih => exact ih
  | comment _ _ ih => exact ih
  | token hspan _ _ ih => exact List.forall_mem_cons.2 ⟨hspan, ih⟩

end Written

namespace Scanner

variable {s : Scanner}

/-- A blank before what is left makes no difference but for its line, as it is part of the gap. -/
theorem scan_blank {c : Char} (hc : isGapChar c) (cs : List Char) (line : UInt32)
    (finished : Bool) :
    scan ⟨c :: cs, line, finished⟩ = scan ⟨cs, line + lineFeeds [c], finished⟩ := by
  have hfeeds : lineFeeds (c :: (splitGap cs).1) = lineFeeds [c] + lineFeeds (splitGap cs).1 :=
    lineFeeds_append [c] _
  simp only [scan, splitGap_blank hc, hfeeds, UInt32.add_assoc]

/-- A comment before a line feed makes no difference, not even for the line. -/
theorem scan_comment_feed {body : List Char} (hbody : '\n' ∉ body) (cs : List Char) (line : UInt32)
    (finished : Bool) :
    scan ⟨'/' :: '/' :: (body ++ '\n' :: cs), line, finished⟩ =
      scan ⟨'\n' :: cs, line, finished⟩ := by
  have hall : ∀ c ∈ body, decide (c ≠ '\n') = true := fun c hc =>
    decide_eq_true (ne_of_mem_of_not_mem hc hbody)
  have hstop : ∀ c, ('\n' :: cs).head? = some c → ¬ decide (c ≠ '\n') = true := by
    rintro c ⟨⟩
    decide
  have hfeeds : ∀ gap, lineFeeds ('/' :: '/' :: (body ++ gap)) = lineFeeds gap := by
    intro gap
    rw [← List.cons_append, ← List.cons_append, lineFeeds_append,
      lineFeeds_eq_zero (by simp [hbody]), UInt32.zero_add]
  simp only [scan, splitGap_comment, Run.takeWhile_append_stop hall hstop,
    Run.dropWhile_append_stop hall hstop, hfeeds]

/-- A spelling that is over before what follows is the next token. Nothing is left of it behind. -/
theorem scan_of_spelling {kind : TokenKind} {span rest : List Char} (h : Spelling kind span)
    (hrest : rest.head?.all kind.endsBefore) (hs : s.rest = span ++ rest) :
    s.scan = (⟨kind, span, s.line⟩, ⟨rest, s.line + lineFeeds span, s.finished⟩) := by
  have hsplit := splitGap_of_not_startsGap (h.not_startsGap hrest)
  obtain ⟨c, cs, rfl⟩ := List.exists_cons_of_ne_nil h.ne_nil
  have hlexeme : Lexeme.ofChars c (cs ++ rest) = ⟨kind, c :: cs, rest⟩ :=
    (firstToken_iff rfl).1 (.spelled (longestSpelling_of_endsBefore h hrest))
  rw [List.cons_append] at hs hsplit
  simp [scan, hs, hsplit, hlexeme]

/-- The next token is that spelling, and then come those of the text behind it. -/
theorem tokens_of_spelling {kind : TokenKind} {span rest : List Char} (h : Spelling kind span)
    (hrest : rest.head?.all kind.endsBefore) (hs : s.rest = span ++ rest) :
    s.tokens = ⟨kind, span, s.line⟩ ::
      tokens ⟨rest, s.line + lineFeeds span, s.finished⟩ := by
  have hscan := scan_of_spelling h hrest hs
  rw [tokens_of_ne_eof (by rw [hscan]; exact h.kind_ne.1), hscan]

/-- **Tokens of a written text are read one by one.**

**Proof sketch.** Induction on the way the text is written. Blanks and comments only change the line
on which a token stands, and each token is the next one, since it is over before what follows. -/
theorem tokens_of_written {ts : List (TokenKind × List Char)} (h : Written ts s.rest []) :
    s.tokens.map (fun t => (t.kind, t.span)) = ts ++ [(.eof, [])] := by
  obtain ⟨cs, line, finished⟩ := s
  change Written ts cs [] at h
  generalize hrest : ([] : List Char) = rest at h
  induction h generalizing line with
  | nil =>
    subst hrest
    have hscan : (⟨[], line, finished⟩ : Scanner).scan.1 = ⟨.eof, [], line⟩ := by
      simp [scan, splitGap, splitGapFrom]
    rw [tokens_of_eof (by rw [hscan]), hscan]
    rfl
  | blank hc _ ih =>
    rw [tokens_congr (scan_blank hc _ _ _)]
    exact ih _ hrest
  | comment hbody _ ih =>
    rw [tokens_congr (scan_comment_feed hbody _ _ _)]
    exact ih _ hrest
  | token hspan hend _ ih =>
    rw [tokens_of_spelling hspan hend rfl, List.map_cons, ih _ hrest]
    rfl

end Scanner

end ChunkMachine
