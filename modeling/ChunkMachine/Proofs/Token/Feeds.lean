import ChunkMachine.Proofs.Token.Calls

set_option relaxedAutoImplicit false
set_option autoImplicit false

/-!
# Scanning across line feeds

A line feed ends a comment, and no word, number or mark reaches across one; only a string does. So
where every string is closed, the tokens before a line feed do not depend on what comes behind it,
and the tokens behind it are those of the text there, on later lines.

## Main definitions

* `Scanner.extend` — a scanner with more text at the end.
* `Scanner.below` — a scanner of the text behind a line feed.

## Main results

* `splitGap_append_feed`, `Lexeme.ofChars_append_feed` — gaps and tokens before a line feed.
* `Scanner.scan_induction` — induction on the calls up to the end of the text.
* `Scanner.tokens_extend` — the tokens on both sides of a line feed.
* `Scanner.tokens_add_line` — lines are counted from the first one.
-/

namespace ChunkMachine

/-! ## Gaps -/

/-- What has been split off goes on behind a line feed if nothing else came before it, and else what
follows goes on.

**Proof sketch.** Induction on the text. A line feed belongs to the gap, in a comment or outside,
and a comment cannot start with it. -/
theorem splitGapFrom_append_feed (inComment : Bool) (gap cs more : List Char) :
    splitGapFrom inComment gap (cs ++ '\n' :: more) =
      if (splitGapFrom inComment gap cs).2 = [] then
        ((splitGapFrom inComment gap cs).1 ++ '\n' :: (splitGap more).1, (splitGap more).2)
      else ((splitGapFrom inComment gap cs).1,
        (splitGapFrom inComment gap cs).2 ++ '\n' :: more) := by
  induction cs generalizing inComment gap with
  | nil =>
    have hfeed : splitGapFrom inComment gap ('\n' :: more) =
        splitGapFrom false ('\n' :: gap) more := by
      cases inComment <;> rfl
    rw [List.nil_append, hfeed, splitGapFrom_eq]
    simp [splitGapFrom, splitGap]
  | cons c rest ih =>
    have hslash : (rest ++ '\n' :: more).head? = some '/' ↔ rest.head? = some '/' := by
      cases rest <;> simp
    simp only [List.cons_append, splitGapFrom, hslash]
    split
    · exact ih _ _
    · split
      · exact ih _ _
      · split
        · exact ih _ _
        · simp

/-- **A gap before a line feed** goes on behind it if nothing else came before it. Otherwise the
token is on this side of the line feed. -/
theorem splitGap_append_feed (cs more : List Char) :
    splitGap (cs ++ '\n' :: more) =
      if (splitGap cs).2 = [] then
        ((splitGap cs).1 ++ '\n' :: (splitGap more).1, (splitGap more).2)
      else ((splitGap cs).1, (splitGap cs).2 ++ '\n' :: more) :=
  splitGapFrom_append_feed false [] cs more

/-! ## Lexemes -/

namespace Lexeme

/-- A number is over at a line feed, and what comes behind that is left. -/
theorem number_append_feed (c : Char) (cs more : List Char) :
    number c (cs ++ '\n' :: more) =
      { number c cs with rest := (number c cs).rest ++ '\n' :: more } := by
  have hfeed : ¬ Char.isDigit '\n' := by decide
  unfold number
  rw [Run.takeWhile_append_cons_stop hfeed, Run.dropWhile_append_cons_stop hfeed]
  cases cs.dropWhile Char.isDigit with
  | nil => simp
  | cons point rest =>
    by_cases hpoint : point = '.'
    · subst hpoint
      cases rest with
      | nil => simp [hfeed]
      | cons d rest =>
        by_cases hd : d.isDigit
        · simp [hd, Run.takeWhile_append_cons_stop hfeed, Run.dropWhile_append_cons_stop hfeed]
        · simp [hd]
    · simp [hpoint]

/-- A string that is closed before a line feed is over there, and what comes behind is left. -/
theorem string_append_feed {c : Char} {cs : List Char}
    (h : (string c cs).kind ≠ .error .unterminatedString) (more : List Char) :
    string c (cs ++ '\n' :: more) =
      { string c cs with rest := (string c cs).rest ++ '\n' :: more } := by
  rcases string_cases c cs with ⟨rest, hdrop, heq⟩ | ⟨-, heq⟩
  · have hcs := List.takeWhile_append_dropWhile (p := (· ≠ '"')) (l := cs)
    have hbody : ∀ d ∈ cs.takeWhile (· ≠ '"'), decide (d ≠ '"') = true := fun _ =>
      Run.of_mem_takeWhile
    have hstop : ∀ d, ('"' :: (rest ++ '\n' :: more)).head? = some d →
        ¬ decide (d ≠ '"') = true := by
      rintro d ⟨⟩
      decide
    have hwhole : cs ++ '\n' :: more =
        cs.takeWhile (· ≠ '"') ++ '"' :: (rest ++ '\n' :: more) := by
      rw [← List.cons_append, ← hdrop, ← List.append_assoc, hcs]
    rw [heq, hwhole, string, Run.takeWhile_append_stop hbody hstop,
      Run.dropWhile_append_stop hbody hstop]
  · rw [heq] at h
    exact absurd rfl h

/-- A mark is over at a line feed, which is no equals sign. -/
theorem punctuation_append_feed (mark : Punctuation) (c : Char) (cs more : List Char) :
    punctuation mark c (cs ++ '\n' :: more) =
      { punctuation mark c cs with rest := (punctuation mark c cs).rest ++ '\n' :: more } := by
  unfold punctuation
  cases cs with
  | nil => simp
  | cons d cs =>
    by_cases hd : d = '='
    · subst hd
      cases mark.withEqual? <;> simp
    · simp [hd]

/-- **A token does not reach across a line feed**, unless it is a string that is not closed
before. -/
theorem ofChars_append_feed {c : Char} {cs : List Char}
    (h : (ofChars c cs).kind ≠ .error .unterminatedString) (more : List Char) :
    ofChars c (cs ++ '\n' :: more) =
      { ofChars c cs with rest := (ofChars c cs).rest ++ '\n' :: more } := by
  have hfeed : ¬ isWordChar '\n' := by decide
  unfold ofChars at h ⊢
  by_cases hletter : isWordStart c
  · simp [hletter, word, Run.takeWhile_append_cons_stop hfeed, Run.dropWhile_append_cons_stop hfeed]
  · by_cases hdigit : c.isDigit
    · simp [hletter, hdigit, number_append_feed]
    · by_cases hquote : c = '"'
      · subst hquote
        simp only [hletter, hdigit] at h ⊢
        exact string_append_feed h more
      · cases Punctuation.ofChar? c with
        | some mark => simp [hletter, hdigit, hquote, punctuation_append_feed]
        | none => simp [hletter, hdigit, hquote]

/-- A string that is not closed is not closed by more text without a quote. So it stays an error. -/
theorem unterminated_append {c : Char} {cs : List Char}
    (h : (ofChars c cs).kind = .error .unterminatedString) {more : List Char} (hmore : '"' ∉ more) :
    (ofChars c (cs ++ more)).kind = .error .unterminatedString := by
  have hfirst := firstToken_ofChars c cs
  have hchars := span_append_rest c cs
  rw [h] at hfirst
  rcases hfirst.of_error with ⟨-, ⟨body, hbody, hspan⟩, hrest⟩ | ⟨hfault, -⟩
  · rw [hspan, hrest, List.append_nil] at hchars
    obtain ⟨rfl, rfl⟩ := List.cons.inj hchars
    have hlonger : FirstToken (.error .unterminatedString) ('"' :: (body ++ more)) [] :=
      .unterminated (by simp [hbody, hmore])
    rw [(firstToken_iff (List.append_nil _)).1 hlonger]
  · contradiction

end Lexeme

/-! ## Calls of the scanner -/

/-- A line feed in front counts as one more. -/
theorem lineFeeds_cons_feed (cs : List Char) : lineFeeds ('\n' :: cs) = 1 + lineFeeds cs :=
  lineFeeds_append ['\n'] cs

/-- Characters without a line feed have none to be counted. -/
theorem lineFeeds_eq_zero {cs : List Char} (h : '\n' ∉ cs) : lineFeeds cs = 0 := by
  rw [lineFeeds, List.count_eq_zero_of_not_mem h]
  rfl

namespace Scanner

variable {s : Scanner}

/-- The scanner with more text at the end, which it cannot see before it gets there. -/
def extend (s : Scanner) (more : List Char) : Scanner := { s with rest := s.rest ++ more }

/-- The scanner of a text that begins on the line below what is left. The line feed in between is
counted. -/
def below (s : Scanner) (more : List Char) : Scanner :=
  { s with rest := more, line := s.line + lineFeeds s.rest + 1 }

/-- Where only a gap is left before a line feed, the next token is the first one behind it. The
scanner goes on as if it had started there, one line below. -/
theorem scan_extend_of_eof (h : s.scan.1.kind = .eof) (more : List Char) :
    (s.extend ('\n' :: more)).scan = (s.below more).scan := by
  rw [kind_scan_eq_eof_iff] at h
  have hgap := splitGap_append s.rest
  rw [h, List.append_nil] at hgap
  simp only [scan, extend, below, splitGap_append_feed, h, if_true, hgap, lineFeeds_append,
    lineFeeds_cons_feed, UInt32.add_assoc]

/-- Where a token is left, it is the next one, unless it is a string that is not closed. What comes
behind the line feed is left for later. -/
theorem scan_extend (heof : s.scan.1.kind ≠ .eof)
    (hclosed : s.scan.1.kind ≠ .error .unterminatedString) (more : List Char) :
    (s.extend ('\n' :: more)).scan = (s.scan.1, s.scan.2.extend ('\n' :: more)) := by
  rcases s.scan_cases with ⟨gap, -, hscan⟩ | ⟨gap, c, cs, hsplit, hscan⟩
  · rw [hscan] at heof
    exact absurd rfl heof
  · rw [hscan] at hclosed ⊢
    have hlexeme := Lexeme.ofChars_append_feed hclosed more
    simp [scan, extend, splitGap_append_feed, hsplit, hlexeme]

/-- A string that is not closed stays so if no quote comes, and takes the line feed and all that
follows. -/
theorem kind_scan_extend_of_unterminated (h : s.scan.1.kind = .error .unterminatedString)
    {more : List Char} (hmore : '"' ∉ more) :
    (s.extend ('\n' :: more)).scan.1.kind = .error .unterminatedString := by
  rcases s.scan_cases with ⟨gap, -, hscan⟩ | ⟨gap, c, cs, hsplit, hscan⟩
  · rw [hscan] at h
    contradiction
  · rw [hscan] at h
    have hfeed : '"' ∉ '\n' :: more := by simp [hmore]
    have hlexeme := Lexeme.unterminated_append h hfeed
    simpa [scan, extend, splitGap_append_feed, hsplit] using hlexeme

/-- Tokens do not change the line below what is left: what they pass is counted as passed. -/
theorem below_scan (s : Scanner) (more : List Char) : s.scan.2.below more = s.below more := by
  have hrest := congrArg lineFeeds s.gap_append_span_append_rest
  have hfinished : s.scan.2.finished = s.finished := by
    rcases s.scan_cases with ⟨gap, -, hscan⟩ | ⟨gap, c, cs, -, hscan⟩ <;> rw [hscan]
  rw [lineFeeds_append, lineFeeds_append] at hrest
  rw [below, below, hfinished, line_next, line_scan, ← hrest]
  simp only [UInt32.add_assoc]

/-! ## Tokens -/

/-- **Induction on the calls**: what holds at the end of the text, and holds before a token if it
holds behind it, holds everywhere. -/
@[elab_as_elim]
theorem scan_induction {motive : Scanner → Prop} (s : Scanner)
    (eof : ∀ s : Scanner, s.scan.1.kind = .eof → motive s)
    (token : ∀ s : Scanner, s.scan.1.kind ≠ .eof → motive s.scan.2 → motive s) : motive s := by
  induction hn : s.rest.length using Nat.strongRecOn generalizing s with
  | ind n ih =>
    by_cases heof : s.scan.1.kind = .eof
    · exact eof s heof
    · exact token s heof (ih _ (hn ▸ length_rest_lt heof) s.scan.2 rfl)

/-- Behind equal calls there are equal tokens, the first ones included. -/
theorem tokens_congr {s' : Scanner} (h : s.scan = s'.scan) : s.tokens = s'.tokens := by
  by_cases heof : s.scan.1.kind = .eof
  · have heof' : s'.scan.1.kind = .eof := h ▸ heof
    rw [tokens_of_eof heof, tokens_of_eof heof', h]
  · have heof' : s'.scan.1.kind ≠ .eof := h ▸ heof
    rw [tokens_of_ne_eof heof, tokens_of_ne_eof heof', h]

/-- There is always a token, if only the end of the text. -/
theorem tokens_ne_nil (s : Scanner) : s.tokens ≠ [] := by
  by_cases heof : s.scan.1.kind = .eof
  · rw [tokens_of_eof heof]
    exact List.cons_ne_nil _ _
  · rw [tokens_of_ne_eof heof]
    exact List.cons_ne_nil _ _

/-- The tokens before the end of the text begin with the next one, unless that is the end. -/
theorem dropLast_tokens (h : s.scan.1.kind ≠ .eof) :
    s.tokens.dropLast = s.scan.1 :: s.scan.2.tokens.dropLast := by
  rw [tokens_of_ne_eof h, List.dropLast_cons_of_ne_nil s.scan.2.tokens_ne_nil]

/-- The last token is the end of the text, whatever comes before it. -/
theorem exists_tokens_eq (s : Scanner) :
    ∃ last, last.kind = .eof ∧ s.tokens = s.tokens.dropLast ++ [last] := by
  induction s using scan_induction with
  | eof s heof => exact ⟨s.scan.1, heof, by rw [tokens_of_eof heof]; rfl⟩
  | token s hne ih =>
    obtain ⟨last, hlast, htokens⟩ := ih
    refine ⟨last, hlast, ?_⟩
    rw [dropLast_tokens hne, List.cons_append, ← htokens, tokens_of_ne_eof hne]

/-- **The tokens on both sides of a line feed** are those of the texts on both sides, if no string
before it is left open.

**Proof sketch.** Induction on the calls before the line feed. Each token there is taken as if
nothing followed, and at the end the scanner goes on with what comes behind the line feed. -/
theorem tokens_extend (h : ∀ t ∈ s.tokens, t.kind ≠ .error .unterminatedString)
    (more : List Char) :
    (s.extend ('\n' :: more)).tokens = s.tokens.dropLast ++ (s.below more).tokens := by
  induction s using scan_induction with
  | eof s heof =>
    rw [tokens_of_eof heof, tokens_congr (scan_extend_of_eof heof more)]
    rfl
  | token s hne ih =>
    rw [tokens_of_ne_eof hne] at h
    obtain ⟨hfirst, hothers⟩ := List.forall_mem_cons.1 h
    have hscan := scan_extend hne hfirst more
    rw [tokens_of_ne_eof (by rw [hscan]; exact hne), hscan, ih hothers, below_scan,
      dropLast_tokens hne, List.cons_append]

/-- A string that is left open is left open before a line feed, too, if no quote comes behind it.

**Proof sketch.** Induction on the calls. A string that is left open in the next token stays so by
`kind_scan_extend_of_unterminated`; any other token is taken as if nothing followed, and the string
is among the tokens behind it. -/
theorem exists_unterminated_extend (h : ∃ t ∈ s.tokens, t.kind = .error .unterminatedString)
    {more : List Char} (hmore : '"' ∉ more) :
    ∃ t ∈ (s.extend ('\n' :: more)).tokens, t.kind = .error .unterminatedString := by
  induction s using scan_induction with
  | eof s heof =>
    obtain ⟨t, hmem, ht⟩ := h
    rw [tokens_of_eof heof, List.mem_singleton] at hmem
    rw [hmem, heof] at ht
    contradiction
  | token s hne ih =>
    by_cases hopen : s.scan.1.kind = .error .unterminatedString
    · have hkind := kind_scan_extend_of_unterminated hopen hmore
      refine ⟨_, ?_, hkind⟩
      rw [tokens_of_ne_eof (by rw [hkind]; nofun)]
      exact List.mem_cons_self
    · obtain ⟨t, hmem, ht⟩ := h
      rw [tokens_of_ne_eof hne, List.mem_cons] at hmem
      have hrest : t ∈ s.scan.2.tokens := by
        rcases hmem with rfl | hmem
        · exact absurd ht hopen
        · exact hmem
      obtain ⟨u, hu, hkind⟩ := ih ⟨t, hrest, ht⟩
      have hscan := scan_extend hne hopen more
      refine ⟨u, ?_, hkind⟩
      rw [tokens_of_ne_eof (by rw [hscan]; exact hne), hscan]
      exact List.mem_cons_of_mem _ hu

/-! ## Lines -/

/-- **Lines are counted from the first one**: on a later first line the same tokens stand on later
lines.

**Proof sketch.** The lines of a call are sums that begin with the line of the scanner. The rest is
an induction on the calls. -/
theorem tokens_add_line (s : Scanner) (n : UInt32) :
    ({ s with line := s.line + n } : Scanner).tokens =
      s.tokens.map fun t => { t with line := t.line + n } := by
  have hscan (s : Scanner) : ({ s with line := s.line + n } : Scanner).scan =
      ({ s.scan.1 with line := s.scan.1.line + n },
        { s.scan.2 with line := s.scan.2.line + n }) := by
    simp only [scan]
    cases (splitGap s.rest).2 with
    | nil => simp only [UInt32.add_assoc, UInt32.add_comm n]
    | cons c cs => simp only [UInt32.add_assoc, UInt32.add_comm n]
  induction s using scan_induction with
  | eof s heof =>
    rw [tokens_of_eof (by rw [hscan]; exact heof), tokens_of_eof heof, hscan]
    rfl
  | token s hne ih =>
    rw [tokens_of_ne_eof (by rw [hscan]; exact hne), tokens_of_ne_eof hne, hscan, ih]
    rfl

/-- Without line feeds all tokens stand on the first line, the end of the text as well.

**Proof sketch.** Neither the gap nor the token nor the rest of a call has a line feed, so every
call keeps the line. -/
theorem line_of_mem_tokens (h : '\n' ∉ s.rest) {t : Token} (ht : t ∈ s.tokens) :
    t.line = s.line := by
  have hparts {s : Scanner} (h : '\n' ∉ s.rest) :
      s.scan.1.line = s.line ∧ s.scan.2.line = s.line ∧ '\n' ∉ s.scan.2.rest := by
    rw [← s.gap_append_span_append_rest, List.mem_append, List.mem_append, not_or, not_or] at h
    obtain ⟨⟨hgap, hspan⟩, hrest⟩ := h
    have hfirst : s.scan.1.line = s.line := by
      rw [line_scan, lineFeeds_eq_zero hgap, UInt32.add_zero]
    refine ⟨hfirst, ?_, hrest⟩
    rw [line_next, lineFeeds_eq_zero hspan, UInt32.add_zero, hfirst]
  induction s using scan_induction with
  | eof s heof =>
    rw [tokens_of_eof heof, List.mem_singleton] at ht
    rw [ht, (hparts h).1]
  | token s hne ih =>
    obtain ⟨hfirst, hnext, hrest⟩ := hparts h
    rw [tokens_of_ne_eof hne, List.mem_cons] at ht
    rcases ht with rfl | ht
    · exact hfirst
    · rw [ih hrest ht, hnext]

end Scanner

end ChunkMachine
