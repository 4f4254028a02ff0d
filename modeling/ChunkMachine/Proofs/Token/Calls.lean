import ChunkMachine.Proofs.Text.Encoding
import ChunkMachine.Proofs.Token.Gap
import ChunkMachine.Proofs.Token.Munch

set_option relaxedAutoImplicit false
set_option autoImplicit false

/-!
# Calls of the scanner

What one call of the scanner takes from a text, and what many calls take one after the other. Every
call but the last takes bytes away, so that the end of the text is reached after at most as many
calls as the text has bytes, and is then handed out by each further call.

## Main definitions

* `Scanner.after` — the scanner after some calls.
* `Scanner.tokens` — the tokens up to the end of the text.

## Main results

* `Scanner.scan_cases` — one call, in its two cases.
* `Scanner.gap_append_span_append_rest` — no character is lost in a call.
* `Scanner.exists_calls` — the call that reaches the end of the text.
* `Scanner.tokens_eq_map` — the tokens are the results of the calls.
-/

namespace ChunkMachine

/-! ## Line feeds -/

/-- No characters have no line feeds. -/
@[simp]
theorem lineFeeds_nil : lineFeeds [] = 0 := rfl

/-- Line feeds add up. Their number is a word, and so both sides wrap around alike. -/
theorem lineFeeds_append (cs ds : List Char) :
    lineFeeds (cs ++ ds) = lineFeeds cs + lineFeeds ds := by
  rw [lineFeeds, List.count_append, UInt32.ofNat_add]
  rfl

/-! ## First tokens -/

/-- A spelling is neither an error nor the end of the text. These two are what the rules leave
over. -/
theorem Spelling.kind_ne {kind : TokenKind} {span : List Char} (h : Spelling kind span) :
    kind ≠ .eof ∧ ∀ fault, kind ≠ .error fault := by
  cases h <;> exact ⟨nofun, nofun⟩

/-- The first token of a text is not the end of the text, which covers nothing. -/
theorem FirstToken.kind_ne_eof {kind : TokenKind} {span rest : List Char}
    (h : FirstToken kind span rest) : kind ≠ .eof := by
  cases h with
  | spelled hlongest => exact hlongest.spelling.kind_ne.1
  | unterminated => nofun
  | unexpected => nofun

/-- The first token of a text covers at least one character, so that scanning goes on. -/
theorem FirstToken.span_ne_nil {kind : TokenKind} {span rest : List Char}
    (h : FirstToken kind span rest) : span ≠ [] := by
  cases h with
  | spelled hlongest => exact hlongest.spelling.ne_nil
  | unterminated => exact List.cons_ne_nil _ _
  | unexpected => exact List.cons_ne_nil _ _

/-- The two errors: a quote takes the rest of the text, and any other character itself. -/
theorem FirstToken.of_error {fault : LexicalFault} {span rest : List Char}
    (h : FirstToken (.error fault) span rest) :
    (fault = .unterminatedString ∧ (∃ body, '"' ∉ body ∧ span = '"' :: body) ∧ rest = []) ∨
      fault = .unexpectedCharacter ∧ ∃ c, span = [c] := by
  cases h with
  | spelled hlongest => exact absurd rfl (hlongest.spelling.kind_ne.2 fault)
  | unterminated hbody => exact .inl ⟨rfl, ⟨_, hbody, rfl⟩, rfl⟩
  | unexpected => exact .inr ⟨rfl, _, rfl⟩

/-- A token marks no error exactly if it is none. The message need not be looked at. -/
theorem Token.error?_eq_none_iff {t : Token} :
    t.error? = none ↔ ∀ fault, t.kind ≠ .error fault := by
  unfold error?
  cases t.kind <;> simp

namespace Scanner

/-! ## One call -/

/-- **One call of the scanner**: behind the gap there is the end of the text or its first token. -/
theorem scan_cases (s : Scanner) :
    (∃ gap, splitGap s.rest = (gap, []) ∧
      s.scan = (⟨.eof, [], s.line + lineFeeds gap⟩, ⟨[], s.line + lineFeeds gap, s.finished⟩)) ∨
    ∃ gap c cs, splitGap s.rest = (gap, c :: cs) ∧
      s.scan = (⟨(Lexeme.ofChars c cs).kind, (Lexeme.ofChars c cs).span, s.line + lineFeeds gap⟩,
        ⟨(Lexeme.ofChars c cs).rest,
          s.line + lineFeeds gap + lineFeeds (Lexeme.ofChars c cs).span, s.finished⟩) := by
  cases hsplit : splitGap s.rest with
  | mk gap text =>
    cases text with
    | nil => exact .inl ⟨gap, rfl, by simp [scan, hsplit]⟩
    | cons c cs => exact .inr ⟨gap, c, cs, rfl, by simp [scan, hsplit]⟩

/-- The gap, the token and what is then left are what was left before: no character is lost. -/
theorem gap_append_span_append_rest (s : Scanner) :
    (splitGap s.rest).1 ++ s.scan.1.span ++ s.scan.2.rest = s.rest := by
  have happend := splitGap_append s.rest
  rcases s.scan_cases with ⟨gap, hsplit, hscan⟩ | ⟨gap, c, cs, hsplit, hscan⟩
  · rw [hsplit] at happend ⊢
    simpa [hscan] using happend
  · rw [hsplit] at happend ⊢
    rw [hscan, List.append_assoc, Lexeme.span_append_rest]
    exact happend

/-- A token stands on the line where the gap ends, and not on the one where it ends itself. -/
theorem line_scan (s : Scanner) : s.scan.1.line = s.line + lineFeeds (splitGap s.rest).1 := by
  rcases s.scan_cases with ⟨gap, hsplit, hscan⟩ | ⟨gap, c, cs, hsplit, hscan⟩ <;>
    rw [hsplit, hscan]

/-- Behind a token its line feeds have been passed, too. Only strings have any. -/
theorem line_next (s : Scanner) : s.scan.2.line = s.scan.1.line + lineFeeds s.scan.1.span := by
  rcases s.scan_cases with ⟨gap, -, hscan⟩ | ⟨gap, c, cs, -, hscan⟩
  · rw [hscan]
    simp
  · rw [hscan]

/-- The end of the text is handed out if and only if nothing but a gap is left. -/
theorem kind_scan_eq_eof_iff (s : Scanner) : s.scan.1.kind = .eof ↔ (splitGap s.rest).2 = [] := by
  rcases s.scan_cases with ⟨gap, hsplit, hscan⟩ | ⟨gap, c, cs, hsplit, hscan⟩
  · simp [hsplit, hscan]
  · simp [hsplit, hscan, (firstToken_ofChars c cs).kind_ne_eof]

/-- Behind the end of the text nothing is left, and it covers nothing. -/
theorem rest_scan_of_eof {s : Scanner} (h : s.scan.1.kind = .eof) :
    s.scan.1.span = [] ∧ s.scan.2.rest = [] := by
  rcases s.scan_cases with ⟨gap, hsplit, hscan⟩ | ⟨gap, c, cs, hsplit, hscan⟩
  · simp [hscan]
  · rw [kind_scan_eq_eof_iff, hsplit] at h
    contradiction

/-- A token covers at least one character, unless it is the end of the text. -/
theorem span_scan_ne_nil {s : Scanner} (h : s.scan.1.kind ≠ .eof) : s.scan.1.span ≠ [] := by
  rcases s.scan_cases with ⟨gap, hsplit, hscan⟩ | ⟨gap, c, cs, hsplit, hscan⟩
  · rw [hscan] at h
    contradiction
  · rw [hscan]
    exact Lexeme.span_ne_nil c cs

/-- A token is the first one of the text behind the gap, in the sense of the grammar. -/
theorem firstToken_scan {s : Scanner} (h : s.scan.1.kind ≠ .eof) :
    FirstToken s.scan.1.kind s.scan.1.span s.scan.2.rest := by
  rcases s.scan_cases with ⟨gap, hsplit, hscan⟩ | ⟨gap, c, cs, hsplit, hscan⟩
  · rw [hscan] at h
    contradiction
  · rw [hscan]
    exact firstToken_ofChars c cs

/-- Every token takes bytes away. Their number bounds that of the calls. -/
theorem length_encode_scan_lt {s : Scanner} (h : s.scan.1.kind ≠ .eof) :
    (Text.encode s.scan.2.rest).length < (Text.encode s.rest).length := by
  have hbytes := congrArg (fun cs => (Text.encode cs).length) s.gap_append_span_append_rest
  simp only [Text.encode_append, List.length_append] at hbytes
  have hpos : (Text.encode s.scan.1.span).length ≠ 0 := fun hzero =>
    span_scan_ne_nil h (Text.eq_nil_of_length_encode hzero)
  omega

/-! ## Many calls -/

/-- The scanner after some calls of `Scanner.scan`, whatever these gave. -/
def after (s : Scanner) : Nat → Scanner
  | 0 => s
  | n + 1 => (s.after n).scan.2

/-- The first call may be taken apart from the others, instead of the last one. -/
theorem after_succ (s : Scanner) (n : Nat) : s.after (n + 1) = s.scan.2.after n := by
  induction n with
  | zero => rfl
  | succ n ih => exact congrArg (fun s => s.scan.2) ih

/-- Where nothing is left every call hands out the end of the text, again and again. -/
theorem kind_scan_after_of_rest {s : Scanner} (h : s.rest = []) (n : Nat) :
    (s.after n).scan.1.kind = .eof := by
  have hrest : ∀ k, (s.after k).rest = [] := by
    intro k
    induction k with
    | zero => exact h
    | succ k ih => exact (rest_scan_of_eof (by rw [kind_scan_eq_eof_iff, ih]; rfl)).2
  rw [kind_scan_eq_eof_iff, hrest]
  rfl

/-- **The call that reaches the end of the text** comes after at most as many calls as bytes are
left, and all later calls hand out the end of the text again.

**Proof sketch.** Induction on the number of bytes that are left. A call that reaches the end of the
text leaves nothing, and every other one takes bytes away. -/
theorem exists_calls (s : Scanner) :
    ∃ n ≤ (Text.encode s.rest).length, ∀ k, (s.after k).scan.1.kind = .eof ↔ n ≤ k := by
  induction hn : (Text.encode s.rest).length using Nat.strongRecOn generalizing s with
  | ind n ih =>
    by_cases heof : s.scan.1.kind = .eof
    · refine ⟨0, Nat.zero_le _, fun k => iff_of_true ?_ (Nat.zero_le _)⟩
      cases k with
      | zero => exact heof
      | succ k =>
        rw [after_succ]
        exact kind_scan_after_of_rest (rest_scan_of_eof heof).2 k
    · have hlt := length_encode_scan_lt heof
      obtain ⟨m, hm, hcalls⟩ := ih _ (hn ▸ hlt) s.scan.2 rfl
      refine ⟨m + 1, by omega, fun k => ?_⟩
      cases k with
      | zero => exact iff_of_false heof (by omega)
      | succ k => rw [after_succ, hcalls, Nat.succ_le_succ_iff]

/-! ## All tokens -/

/-- The tokens up to the end of the text, which is the last one of them. -/
def tokens (s : Scanner) : List Token := (s.drainFrom #[]).1.toList

/-- The tokens that were taken before only come first, and have no part in taking the others. -/
theorem toList_drainFrom (s : Scanner) (taken : Array Token) :
    (s.drainFrom taken).1.toList = taken.toList ++ s.tokens := by
  induction hn : s.rest.length using Nat.strongRecOn generalizing s taken with
  | ind n ih =>
    by_cases heof : s.scan.1.kind = .eof
    · rw [tokens, drainFrom, if_pos heof, drainFrom, if_pos heof]
      simp
    · have hlt := length_rest_lt heof
      have hfirst : ∀ taken : Array Token, (s.drainFrom taken).1.toList =
          taken.toList ++ s.scan.1 :: s.scan.2.tokens := by
        intro taken
        rw [drainFrom, if_neg heof, ih _ (hn ▸ hlt) _ _ rfl]
        simp
      rw [tokens, hfirst, hfirst]
      rfl

/-- The end of the text is the last token, and the only one if it comes next. -/
theorem tokens_of_eof {s : Scanner} (h : s.scan.1.kind = .eof) : s.tokens = [s.scan.1] := by
  rw [tokens, drainFrom, if_pos h]
  rfl

/-- Every other token is followed by those of the text behind it. -/
theorem tokens_of_ne_eof {s : Scanner} (h : s.scan.1.kind ≠ .eof) :
    s.tokens = s.scan.1 :: s.scan.2.tokens := by
  rw [tokens, drainFrom, if_neg h, toList_drainFrom]
  rfl

/-- **The tokens are the results of the calls** up to the one that reaches the end of the text. -/
theorem tokens_eq_map {s : Scanner} {n : Nat}
    (h : ∀ k, (s.after k).scan.1.kind = .eof ↔ n ≤ k) :
    s.tokens = (List.range (n + 1)).map fun k => (s.after k).scan.1 := by
  induction n generalizing s with
  | zero => exact tokens_of_eof ((h 0).2 (Nat.le_refl 0))
  | succ n ih =>
    have hne : s.scan.1.kind ≠ .eof := fun heof => absurd ((h 0).1 heof) (by omega)
    have htail : ∀ k, (s.scan.2.after k).scan.1.kind = .eof ↔ n ≤ k := by
      intro k
      rw [← after_succ, h, Nat.succ_le_succ_iff]
    rw [tokens_of_ne_eof hne, ih htail, List.range_succ_eq_map (n := n + 1), List.map_cons,
      List.map_map]
    simp only [Function.comp_def, Nat.succ_eq_add_one, after_succ]
    rfl

/-- All tokens of a text are those of the scanner at its start, on line one. -/
theorem tokenize_eq_tokens (text : String) : tokenize text = (ofString text).tokens := rfl

end Scanner

end ChunkMachine
