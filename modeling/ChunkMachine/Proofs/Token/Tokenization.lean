import ChunkMachine.Proofs.Token.Following

set_option relaxedAutoImplicit false
set_option autoImplicit false

/-!
# The tokens of a text

The tokens of a text are what the grammar says they are: behind the longest gap there is the first
token, behind it the tokens of what is left, and at the end of the text there is the token for the
end. The scanner finds just these tokens, and so does the scanner on bytes.

## Main definitions

* `Tokenization` — the tokens of a text that starts on some line.

## Main results

* `Scanner.tokenization_tokens` — the scanner finds tokens of the text.
* `Tokenization.eq_tokens` — there are no others.
* `Tokenization.of_unterminated` — a string that is not closed comes last.
* `tokenize_maximal_munch` — the tokens of a text are those of the grammar.
-/

namespace ChunkMachine

/-- The tokens of a text whose first line is `line`. Every token stands on the line on which it
starts. Neither the scanner nor its state are mentioned here. -/
inductive Tokenization : (line : Nat) → (text : List Char) → (tokens : List Token) → Prop where
  /-- Only a gap is left, and the end of the text. -/
  | eof {line : Nat} {gap : List Char} (hgap : LongestGap gap []) :
      Tokenization line gap [⟨.eof, [], UInt32.ofNat (line + gap.count '\n')⟩]
  /-- Behind the longest gap comes the first token, and behind that the others. -/
  | token {line : Nat} {gap span rest : List Char} {kind : TokenKind} {tokens : List Token}
      (hgap : LongestGap gap (span ++ rest)) (hfirst : FirstToken kind span rest)
      (hrest : Tokenization (line + (gap ++ span).count '\n') rest tokens) :
      Tokenization line (gap ++ span ++ rest)
        (⟨kind, span, UInt32.ofNat (line + gap.count '\n')⟩ :: tokens)

/-- Lines are counted up by the line feeds that are passed, in words as in numbers. -/
theorem ofNat_add_count (line : Nat) (cs : List Char) :
    UInt32.ofNat (line + cs.count '\n') = UInt32.ofNat line + lineFeeds cs := by
  rw [UInt32.ofNat_add]
  rfl

/-- **The scanner finds tokens of the text.**

**Proof sketch.** Induction on the length of the text. The scanner splits off the longest gap, and
behind it there is the end of the text or the first token. -/
theorem Scanner.tokenization_tokens {s : Scanner} {line : Nat} (h : s.line = UInt32.ofNat line) :
    Tokenization line s.rest s.tokens := by
  induction hn : s.rest.length using Nat.strongRecOn generalizing s line with
  | ind n ih =>
    have happend := splitGap_append s.rest
    rcases s.scan_cases with ⟨gap, hsplit, hscan⟩ | ⟨gap, c, cs, hsplit, hscan⟩
    · rw [hsplit, List.append_nil] at happend
      obtain rfl : gap = s.rest := happend
      have hgap := longestGap_iff.2 (by rwa [List.append_nil])
      rw [tokens_of_eof (by rw [hscan]), hscan, h, ← ofNat_add_count]
      exact .eof hgap
    · rw [hsplit] at happend
      have hne : s.scan.1.kind ≠ .eof := by
        rw [hscan]
        exact (firstToken_ofChars c cs).kind_ne_eof
      have hlt := length_rest_lt hne
      have htoken : s.scan.1 = ⟨(Lexeme.ofChars c cs).kind, (Lexeme.ofChars c cs).span,
          UInt32.ofNat (line + gap.count '\n')⟩ := by rw [hscan, ofNat_add_count, h]
      have hline : s.scan.2.line =
          UInt32.ofNat (line + (gap ++ (Lexeme.ofChars c cs).span).count '\n') := by
        rw [line_next, htoken, ← ofNat_add_count, List.count_append, Nat.add_assoc]
      have htokens := ih _ (hn ▸ hlt) hline rfl
      rw [show s.scan.2.rest = (Lexeme.ofChars c cs).rest by rw [hscan]] at htokens
      have hchars := Lexeme.span_append_rest c cs
      rw [tokens_of_ne_eof hne, htoken, ← happend, ← hchars, ← List.append_assoc]
      refine .token (longestGap_iff.2 ?_) (firstToken_ofChars c cs) htokens
      rw [hchars]
      exact (congrArg splitGap happend).trans hsplit

/-- **There are no other tokens of the text.**

**Proof sketch.** Induction on the tokens of the grammar. The longest gap is the one the scanner
splits off, and the first token behind it is the one the scanner takes. -/
theorem Tokenization.eq_tokens {line : Nat} {text : List Char} {tokens : List Token}
    (h : Tokenization line text tokens) {s : Scanner} (hs : s.rest = text)
    (hline : s.line = UInt32.ofNat line) : tokens = s.tokens := by
  induction h generalizing s with
  | @eof line gap hgap =>
    have hsplit := longestGap_iff.1 hgap
    rw [List.append_nil, ← hs] at hsplit
    have heof : s.scan.1.kind = .eof := by rw [Scanner.kind_scan_eq_eof_iff, hsplit]
    rw [Scanner.tokens_of_eof heof, ofNat_add_count, ← hline, ← hs]
    simp [Scanner.scan, hsplit]
  | @token line gap span rest kind tokens hgap hfirst _ ih =>
    have hsplit := longestGap_iff.1 hgap
    rw [← List.append_assoc, ← hs] at hsplit
    obtain ⟨c, cs, hcs⟩ := List.exists_cons_of_ne_nil (l := span ++ rest)
      (List.append_ne_nil_of_left_ne_nil hfirst.span_ne_nil rest)
    have hlexeme := (firstToken_iff hcs).1 hfirst
    rw [hcs] at hsplit
    have hscan : s.scan = (⟨kind, span, s.line + lineFeeds gap⟩,
        ⟨rest, s.line + lineFeeds gap + lineFeeds span, s.finished⟩) := by
      simp [Scanner.scan, hsplit, hlexeme]
    have hne : s.scan.1.kind ≠ .eof := by
      rw [hscan]
      exact hfirst.kind_ne_eof
    rw [Scanner.tokens_of_ne_eof hne, hscan, hline, ← ofNat_add_count]
    congr 1
    refine ih rfl ?_
    rw [ofNat_add_count, ofNat_add_count, lineFeeds_append, UInt32.add_assoc]

/-- Where nothing is left there is only the end of the text, on whatever line. -/
theorem Tokenization.of_nil {line : Nat} {text : List Char} {tokens : List Token}
    (h : Tokenization line text tokens) (htext : text = []) :
    ∃ last, tokens = [⟨.eof, [], last⟩] := by
  cases h with
  | eof => exact ⟨_, rfl⟩
  | token _ hfirst _ =>
    rw [List.append_eq_nil_iff, List.append_eq_nil_iff] at htext
    exact absurd htext.1.2 hfirst.span_ne_nil

/-- **A string that is not closed comes last**: behind it there is only the end of the text, and
before it no other such string.

**Proof sketch.** Induction on the tokens. Such a string leaves nothing of the text. -/
theorem Tokenization.of_unterminated {line : Nat} {text : List Char} {tokens : List Token}
    (h : Tokenization line text tokens) {before after : List Token} {t : Token}
    (htokens : tokens = before ++ t :: after) (ht : t.kind = .error .unterminatedString) :
    (∃ last, after = [⟨.eof, [], last⟩]) ∧
      ∀ u ∈ before, u.kind ≠ .error .unterminatedString := by
  have hlast : ∀ {line kind span rest tokens}, FirstToken kind span rest →
      Tokenization line rest tokens → kind = .error .unterminatedString →
        ∃ last, tokens = [⟨.eof, [], last⟩] := by
    rintro line kind span rest tokens hfirst hrest rfl
    rcases hfirst.of_error with ⟨-, -, hnil⟩ | ⟨hfault, -⟩
    · exact hrest.of_nil hnil
    · contradiction
  induction h generalizing before with
  | eof =>
    cases before with
    | nil =>
      cases htokens
      contradiction
    | cons u before => simp at htokens
  | token _ hfirst hrest ih =>
    cases before with
    | nil =>
      obtain ⟨rfl, rfl⟩ := List.cons.inj htokens
      exact ⟨hlast hfirst hrest ht, nofun⟩
    | cons u before =>
      obtain ⟨rfl, htail⟩ := List.cons.inj htokens
      obtain ⟨hafter, hbefore⟩ := ih htail
      refine ⟨hafter, List.forall_mem_cons.2 ⟨fun hkind => ?_, hbefore⟩⟩
      -- a string that is not closed would leave no token for `t`
      obtain ⟨last, heof⟩ := hlast hfirst hrest hkind
      rw [htail] at heof
      cases before with
      | nil =>
        cases heof
        contradiction
      | cons u before => simp at heof

/-- Every error for a character is for one character, however many bytes it has. -/
theorem Tokenization.of_unexpected {line : Nat} {text : List Char} {tokens : List Token}
    (h : Tokenization line text tokens) {t : Token} (hmem : t ∈ tokens)
    (ht : t.kind = .error .unexpectedCharacter) : ∃ c, t.span = [c] := by
  induction h with
  | eof =>
    rw [List.mem_singleton] at hmem
    subst hmem
    contradiction
  | token _ hfirst _ ih =>
    rcases List.mem_cons.1 hmem with rfl | hmem
    · obtain rfl := ht
      rcases hfirst.of_error with ⟨hfault, -⟩ | ⟨-, hspan⟩
      · contradiction
      · exact hspan
    · exact ih hmem

/-- **The scanner is the maximal-munch scanner of its grammar.** For every text:

* the tokens that the grammar gives, and no other ones, are those of the scanner;
* the scanner on bytes gives the same tokens, call by call, with what they show and their lines;
* a string that is not closed shows its message, is the only one, and only the end of the text
  follows it;
* any other error shows its message and is for one character.

**Proof sketch.** The tokens of the scanner are those of the grammar by
`Scanner.tokenization_tokens` and `Tokenization.eq_tokens`, and cursor and scanner go side by side.
What is said of errors is said of the tokens of the grammar. -/
theorem tokenize_maximal_munch (text : String) :
    (∀ tokens, Tokenization 1 text.toList tokens ↔ tokens = tokenize text) ∧
    (∀ k t, (tokenize text)[k]? = some t →
      ((Cursor.ofString text).after k).scan.1 = t.kind ∧
      ((Cursor.ofString text).after k).scan.2.lexeme? t.kind = some t.lexeme ∧
      ((Cursor.ofString text).after k).scan.2.startLine = t.line) ∧
    (∀ before t after, tokenize text = before ++ t :: after →
      t.kind = .error .unterminatedString →
        t.lexeme = "Unterminated string.".toList ∧ (∃ last, after = [⟨.eof, [], last⟩]) ∧
          ∀ u ∈ before, u.kind ≠ .error .unterminatedString) ∧
    ∀ t ∈ tokenize text, t.kind = .error .unexpectedCharacter →
      t.lexeme = "Unexpected character.".toList ∧ ∃ c, t.span = [c] := by
  have htokens : Tokenization 1 text.toList (tokenize text) :=
    Scanner.tokenization_tokens (s := .ofString text) rfl
  have hmessage : ∀ {t : Token} {fault}, t.kind = .error fault →
      t.lexeme = fault.message.toList := by
    intro t fault hkind
    rw [Token.lexeme, hkind]
  refine ⟨fun tokens => ⟨fun h => h.eq_tokens (s := .ofString text) rfl rfl, ?_⟩, ?_, ?_, ?_⟩
  · rintro rfl
    exact htokens
  · intro k t hk
    obtain ⟨n, -, hcalls⟩ := (Scanner.ofString text).exists_calls
    rw [Scanner.tokenize_eq_tokens, Scanner.tokens_eq_map hcalls, List.getElem?_map,
      Option.map_eq_some_iff] at hk
    obtain ⟨k', hk', rfl⟩ := hk
    obtain ⟨hlt, hget⟩ := List.getElem?_eq_some_iff.1 hk'
    rw [List.getElem_range] at hget
    subst hget
    obtain ⟨before, hfollows⟩ := Cursor.exists_follows_after text k
    have hkind : ((Cursor.ofString text).after k).scan.1 =
        ((Scanner.ofString text).after k).scan.1.kind := by rw [hfollows.scan_eq]
    exact ⟨hkind, hkind ▸ hfollows.lexeme?_eq, hfollows.startLine_eq⟩
  · intro before t after heq ht
    exact ⟨hmessage ht, htokens.of_unterminated heq ht⟩
  · intro t hmem ht
    exact ⟨hmessage ht, htokens.of_unexpected hmem ht⟩

end ChunkMachine
