import ChunkMachine.Proofs.Token.Written

set_option relaxedAutoImplicit false
set_option autoImplicit false

/-!
# Tokens apart

A blank ends every token before it, and two slashes make no comment if a blank stands between them.
So tokens that are written one after another, with single spaces between them, are read again as
they are, and a text without errors can be written anew from what its tokens show.

## Main definitions

* `Token.spaced` — what some tokens show, with single spaces between them.

## Main results

* `Scanner.tokens_spaced` — spellings with spaces between them are read one by one.
* `checkTokens_of_written` — a text that is written token by token has no errors.
* `tokenize_spaced` — a text that is written anew from its tokens has the same tokens.
-/

namespace ChunkMachine

/-- What some tokens show, with single spaces between them and none around them. -/
def Token.spaced (tokens : List Token) : String :=
  String.intercalate " " (tokens.map fun t => String.ofList t.lexeme)

/-! ## Spellings with spaces between them -/

/-- Spellings are written one by one with single spaces between them. A space is over with every
token. -/
theorem Written.spaced {spellings : List (TokenKind × List Char)}
    (h : ∀ p ∈ spellings, Spelling p.1 p.2) :
    Written spellings ([' '].intercalate (spellings.map Prod.snd)) [] := by
  induction spellings with
  | nil => exact .nil
  | cons p spellings ih =>
    obtain ⟨hp, hothers⟩ := List.forall_mem_cons.1 h
    -- no space is written behind the last spelling
    cases spellings with
    | nil =>
      have hlast : Written [p] (p.2 ++ []) [] := .token hp rfl .nil
      simpa using hlast
    | cons q spellings =>
      rw [List.map_cons, List.map_cons, List.intercalate_cons_cons, List.append_assoc]
      exact .token hp (TokenKind.endsBefore_of_isGapChar rfl p.1) (.blank rfl (ih hothers))

/-- **Spellings with spaces between them** are read one by one, and then the end of the text. -/
theorem Scanner.tokens_spaced {s : Scanner} {spellings : List (TokenKind × List Char)}
    (h : ∀ p ∈ spellings, Spelling p.1 p.2)
    (hs : s.rest = [' '].intercalate (spellings.map Prod.snd)) :
    s.tokens.map (fun t => (t.kind, t.span)) = spellings ++ [(.eof, [])] :=
  tokens_of_written (hs ▸ Written.spaced h)

/-! ## Texts without errors -/

/-- The first token of a text is spelled unless it is an error, and then it is the longest
spelling. -/
theorem FirstToken.spelling {kind : TokenKind} {span rest : List Char}
    (h : FirstToken kind span rest) (herror : ∀ fault, kind ≠ .error fault) :
    Spelling kind span := by
  cases h with
  | spelled hlongest => exact hlongest.spelling
  | unterminated => exact absurd rfl (herror _)
  | unexpected => exact absurd rfl (herror _)

namespace Scanner

variable {s : Scanner}

/-- Every token that is neither an error nor the end of the text is spelled as its kind demands. -/
theorem spelling_of_mem_tokens {t : Token} (ht : t ∈ s.tokens) (heof : t.kind ≠ .eof)
    (herror : ∀ fault, t.kind ≠ .error fault) : Spelling t.kind t.span := by
  induction s using scan_induction with
  | eof s hlast =>
    rw [tokens_of_eof hlast, List.mem_singleton] at ht
    exact absurd (ht ▸ hlast) heof
  | token s hne ih =>
    rw [tokens_of_ne_eof hne, List.mem_cons] at ht
    rcases ht with rfl | ht
    · exact (firstToken_scan hne).spelling herror
    · exact ih ht

/-- The end of the text covers nothing, and is the only token that is left out before it. So the
kinds and spans are those of the other tokens, and one entry more. -/
theorem map_tokens_eq (s : Scanner) :
    s.tokens.map (fun t => (t.kind, t.span)) =
      (s.tokens.filter fun t => t.kind ≠ .eof).map (fun t => (t.kind, t.span)) ++ [(.eof, [])] := by
  induction s using scan_induction with
  | eof s heof => simp [tokens_of_eof heof, heof, (rest_scan_of_eof heof).1]
  | token s hne ih => simp [tokens_of_ne_eof hne, hne, ih]

end Scanner

/-- A text is accepted exactly if none of its tokens is an error, and then with its tokens as they
are. -/
theorem checkTokens_eq_ok_iff {tokens accepted : List Token} :
    checkTokens tokens = .ok accepted ↔
      accepted = tokens ∧ ∀ t ∈ tokens, ∀ fault, t.kind ≠ .error fault := by
  have hnone : (∀ t ∈ tokens, ∀ fault, t.kind ≠ .error fault) ↔
      tokens.filterMap Token.error? = [] := by
    simp only [List.filterMap_eq_nil_iff, Token.error?_eq_none_iff]
  rw [hnone, checkTokens]
  split
  · rename_i hnil
    simp [hnil, eq_comm]
  · rename_i hne
    exact ⟨nofun, fun haccepted => absurd haccepted.2 hne⟩

/-- A text that is written token by token has no errors, whatever its blanks and comments are. -/
theorem checkTokens_of_written {ts : List (TokenKind × List Char)} {text : String}
    (h : Written ts text.toList []) : checkTokens (tokenize text) = .ok (tokenize text) := by
  refine checkTokens_eq_ok_iff.2 ⟨rfl, fun t ht fault hkind => ?_⟩
  have hmem : (t.kind, t.span) ∈ ts ++ [(TokenKind.eof, [])] :=
    Scanner.tokens_of_written (s := .ofString text) h ▸ List.mem_map_of_mem ht
  rw [hkind] at hmem
  rcases List.mem_append.1 hmem with hmem | hmem
  · exact (h.spelling _ hmem).kind_ne.2 fault rfl
  · simp at hmem

/-- What a token shows is told by its kind and by what it covers, and not by its line. -/
theorem map_lexeme_congr {tokens others : List Token}
    (h : tokens.map (fun t => (t.kind, t.span)) = others.map fun t => (t.kind, t.span)) :
    tokens.map (fun t => (t.kind, t.lexeme)) = others.map fun t => (t.kind, t.lexeme) := by
  have hshown := congrArg (List.map fun p => (p.1, (⟨p.1, p.2, 0⟩ : Token).lexeme)) h
  rw [List.map_map, List.map_map] at hshown
  exact hshown

/-- **A text that is written anew from its tokens has the same tokens**: if a text has no errors,
then what its tokens show, with single spaces between them, is a text without errors whose tokens
are of the same kinds and show the same, in the same order.

**Proof sketch.** All tokens but the end of the text are spelled, so they are read again one by one
by `Scanner.tokens_spaced`. -/
theorem tokenize_spaced {text : String} {tokens : List Token}
    (h : checkTokens (tokenize text) = .ok tokens) :
    let again := tokenize (Token.spaced (tokens.filter fun t => t.kind ≠ .eof))
    again.map (fun t => (t.kind, t.lexeme)) =
        (tokenize text).map (fun t => (t.kind, t.lexeme)) ∧
      checkTokens again = .ok again := by
  intro again
  obtain ⟨rfl, herror⟩ := checkTokens_eq_ok_iff.1 h
  let written := (tokenize text).filter fun t => t.kind ≠ .eof
  have hwritten : ∀ t ∈ written, t.kind ≠ .eof ∧ t ∈ tokenize text := by
    intro t ht
    obtain ⟨hmem, hne⟩ := List.mem_filter.1 ht
    exact ⟨by simpa using hne, hmem⟩
  have hspelled : ∀ p ∈ written.map (fun t => (t.kind, t.span)), Spelling p.1 p.2 := by
    intro p hp
    obtain ⟨t, ht, rfl⟩ := List.mem_map.1 hp
    obtain ⟨hne, hmem⟩ := hwritten t ht
    exact Scanner.spelling_of_mem_tokens hmem hne (herror t hmem)
  have hlexeme : ∀ t ∈ written, t.lexeme = t.span := by
    intro t ht
    have hno := herror t (hwritten t ht).2
    unfold Token.lexeme
    split
    · rename_i fault hkind
      exact absurd hkind (hno fault)
    · rfl
  have hchars : (Token.spaced written).toList =
      [' '].intercalate ((written.map fun t => (t.kind, t.span)).map Prod.snd) := by
    rw [Token.spaced, String.toList_intercalate, List.map_map, List.map_map]
    congr 1
    refine List.map_congr_left fun t ht => ?_
    simp [hlexeme t ht]
  have hspans : again.map (fun t => (t.kind, t.span)) =
      (tokenize text).map (fun t => (t.kind, t.span)) :=
    (Scanner.tokens_spaced hspelled hchars).trans (Scanner.map_tokens_eq _).symm
  refine ⟨map_lexeme_congr hspans, checkTokens_eq_ok_iff.2 ⟨rfl, fun t ht => ?_⟩⟩
  have hmem : (t.kind, t.span) ∈ (tokenize text).map fun t => (t.kind, t.span) :=
    hspans ▸ List.mem_map_of_mem ht
  obtain ⟨u, hu, heq⟩ := List.mem_map.1 hmem
  obtain ⟨hkind, -⟩ := Prod.mk.inj heq
  exact hkind ▸ herror u hu

/-- A comment that is left out, slashes and marks that stay apart, a point behind a number, and a
string with a comment and a line feed in it. -/
theorem tokenize_spaced_slashes :
    let text := "a//x\n/ /!= =1.5.2 \"b // \n c\"classy.class"
    let again := "a / / != = 1.5 . 2 \"b // \n c\" classy . class"
    checkTokens (tokenize text) = .ok (tokenize text) ∧
    Token.spaced ((tokenize text).filter fun t => t.kind ≠ .eof) = again ∧
    (tokenize again).map (fun t => (t.kind, t.lexeme)) =
      (tokenize text).map (fun t => (t.kind, t.lexeme)) ∧
    checkTokens (tokenize again) = .ok (tokenize again) := by
  intro text again
  have hnone : (tokenize text).filterMap Token.error? = [] := by decide +kernel
  have hcheck : checkTokens (tokenize text) = .ok (tokenize text) := by rw [checkTokens, hnone]
  have hspaced : Token.spaced ((tokenize text).filter fun t => t.kind ≠ .eof) = again := by
    decide +kernel
  have htokens := tokenize_spaced hcheck
  rw [hspaced] at htokens
  exact ⟨hcheck, hspaced, htokens⟩

end ChunkMachine
