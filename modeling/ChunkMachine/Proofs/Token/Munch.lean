import ChunkMachine.Proofs.Text.Run
import ChunkMachine.Proofs.Token.Grammar

set_option relaxedAutoImplicit false
set_option autoImplicit false

/-!
# Maximal munch

The first token of a text is the longest spelling that the text starts with. The scanner never goes
back over a character, and still what it takes is the longest spelling: each rule of the grammar
goes on as long as the next character fits, and the one rule with a choice, the point of a number,
is settled by the character behind it.

## Main definitions

* `LongestSpelling` — a spelling that no longer one of any kind replaces.
* `FirstToken` — the first token of a text: the longest spelling, or one of the two errors.

## Main results

* `firstToken_ofChars` — the scanner takes the first token.
* `FirstToken.unique` — a text has only one first token.
* `firstToken_iff` — what the scanner takes is the first token.
-/

namespace ChunkMachine

/-- A spelling before `rest` that is at least as long as every other spelling, of whatever kind,
that the text starts with. -/
structure LongestSpelling (kind : TokenKind) (span rest : List Char) : Prop where
  /-- It is a spelling. -/
  spelling : Spelling kind span
  /-- No other spelling in front of the same text is longer. -/
  length_le : ∀ kind' span' rest', span' ++ rest' = span ++ rest → Spelling kind' span' →
    span'.length ≤ span.length

/-- The first token of a text that starts with none of the gaps: its kind, the characters it covers
and what follows it. A quote that no other quote follows takes the rest of the text, and any other
character that starts no spelling is an error of its own. -/
inductive FirstToken : (kind : TokenKind) → (span rest : List Char) → Prop where
  /-- The longest spelling is taken. -/
  | spelled {kind : TokenKind} {span rest : List Char} (h : LongestSpelling kind span rest) :
      FirstToken kind span rest
  /-- A string that is not closed is an error, and takes all that is left. -/
  | unterminated {body : List Char} (hbody : '"' ∉ body) :
      FirstToken (.error .unterminatedString) ('"' :: body) []
  /-- Where no spelling starts, a single character is an error. -/
  | unexpected {c : Char} {rest : List Char} (hc : c ≠ '"')
      (h : ∀ kind span rest', span ++ rest' = c :: rest → ¬ Spelling kind span) :
      FirstToken (.error .unexpectedCharacter) [c] rest

/-! ## What the scanner takes -/

namespace Lexeme

/-- A number goes on behind its first digits if a point and a digit come next, and else ends. A
point without a digit is left for later. -/
theorem number_cases (c : Char) (cs : List Char) :
    (∃ d rest, cs.dropWhile Char.isDigit = '.' :: d :: rest ∧ d.isDigit ∧
      number c cs = ⟨.number, c :: (cs.takeWhile Char.isDigit ++ '.' :: d ::
        rest.takeWhile Char.isDigit), rest.dropWhile Char.isDigit⟩) ∨
    (∀ d rest, cs.dropWhile Char.isDigit = '.' :: d :: rest → ¬ d.isDigit) ∧
      number c cs = ⟨.number, c :: cs.takeWhile Char.isDigit, cs.dropWhile Char.isDigit⟩ := by
  unfold number
  split
  · rename_i d rest hdrop
    by_cases hd : d.isDigit
    · exact .inl ⟨d, rest, hdrop, hd, by simp [hd]⟩
    · refine .inr ⟨fun d' rest' h => ?_, by simp [hd, hdrop]⟩
      rw [hdrop] at h
      cases h
      exact hd
  · rename_i hno
    exact .inr ⟨fun d rest h => absurd h (hno d rest), rfl⟩

/-- A string ends with the next quote, and without one it is an error. Line feeds do not end it. -/
theorem string_cases (c : Char) (cs : List Char) :
    (∃ rest, cs.dropWhile (· ≠ '"') = '"' :: rest ∧
      string c cs = ⟨.string, c :: (cs.takeWhile (· ≠ '"') ++ ['"']), rest⟩) ∨
    cs.dropWhile (· ≠ '"') = [] ∧
      string c cs = ⟨.error .unterminatedString, c :: cs.takeWhile (· ≠ '"'), []⟩ := by
  unfold string
  cases hdrop : cs.dropWhile (· ≠ '"') with
  | nil => exact .inr ⟨rfl, rfl⟩
  | cons quote rest =>
    have hquote : quote = '"' := by
      simpa using Run.not_of_head?_dropWhile (congrArg List.head? hdrop)
    subst hquote
    exact .inl ⟨rest, rfl, rfl⟩

/-- A mark is the longer one if an equals sign comes next and there is one with it. -/
theorem punctuation_cases (mark : Punctuation) (c : Char) (cs : List Char) :
    (∃ rest longer, cs = '=' :: rest ∧ mark.withEqual? = some longer ∧
      punctuation mark c cs = ⟨.punctuation longer, [c, '='], rest⟩) ∨
    (cs.head? = some '=' → mark.withEqual? = none) ∧
      punctuation mark c cs = ⟨.punctuation mark, [c], cs⟩ := by
  unfold punctuation
  split
  · rename_i rest
    cases hlonger : mark.withEqual? with
    | some longer => exact .inl ⟨rest, longer, rfl, rfl, rfl⟩
    | none => exact .inr ⟨fun _ => rfl, rfl⟩
  · rename_i hno
    refine .inr ⟨fun h => ?_, rfl⟩
    obtain ⟨rest, rfl⟩ := List.head?_eq_some_iff.1 h
    exact absurd rfl (hno rest)

end Lexeme

/-! ## Longest spellings -/

/-- A spelling is the longest if it is the longest of those with the same first character, as all
others start with another one. -/
theorem LongestSpelling.of_cons {kind : TokenKind} {c : Char} {cs rest : List Char}
    (h : Spelling kind (c :: cs))
    (hmax : ∀ kind' cs' rest', cs' ++ rest' = cs ++ rest → Spelling kind' (c :: cs') →
      cs'.length ≤ cs.length) : LongestSpelling kind (c :: cs) rest := by
  refine ⟨h, fun kind' span' rest' happend h' => ?_⟩
  obtain ⟨c', cs', rfl⟩ := List.exists_cons_of_ne_nil h'.ne_nil
  obtain ⟨rfl, hcs⟩ := List.cons.inj happend
  exact Nat.succ_le_succ (hmax kind' cs' rest' hcs h')

/-- A word is read to its end, so that a reserved word in front of more letters is not taken. -/
theorem longestSpelling_word {c : Char} (hc : isWordStart c) (cs : List Char) :
    LongestSpelling (Lexeme.word c cs).kind (Lexeme.word c cs).span (Lexeme.word c cs).rest := by
  refine .of_cons (spelling_cons_iff.2 (.inl ⟨hc, fun d => Run.of_mem_takeWhile, rfl⟩)) ?_
  intro kind' cs' rest' happend h'
  have hcs : cs' ++ rest' = cs := happend.trans List.takeWhile_append_dropWhile
  exact Run.length_le_of_append_eq (h'.of_letter hc).1 hcs

/-- A number is read to its end.

**Proof sketch.** Of a longer spelling the digits before the point would be the same, since the
point is no digit; behind it the run of digits is the longest again. -/
theorem longestSpelling_number {c : Char} (hc : c.isDigit) (cs : List Char) :
    LongestSpelling (Lexeme.number c cs).kind (Lexeme.number c cs).span
      (Lexeme.number c cs).rest := by
  -- the fraction of a spelling is what the scanner finds behind the first digits
  have hpoint : ∀ {ds rest : List Char} {d : Char}, (∀ d ∈ ds, d.isDigit) →
      ds ++ '.' :: d :: rest = cs →
        cs.takeWhile Char.isDigit = ds ∧ cs.dropWhile Char.isDigit = '.' :: d :: rest := by
    rintro ds rest d hds rfl
    have hstop : ∀ y, ('.' :: d :: rest).head? = some y → ¬ y.isDigit := by
      rintro y ⟨⟩
      decide
    exact ⟨Run.takeWhile_append_stop hds hstop, Run.dropWhile_append_stop hds hstop⟩
  have hcs := List.takeWhile_append_dropWhile (p := Char.isDigit) (l := cs)
  rcases Lexeme.number_cases c cs with ⟨d, rest, hdrop, hd, heq⟩ | ⟨hno, heq⟩ <;> rw [heq]
  · refine .of_cons (spelling_cons_iff.2 (.inr (.inl ⟨hc, ?_, rfl⟩))) ?_
    · exact .inr ⟨_, d, _, rfl, fun _ => Run.of_mem_takeWhile, hd, fun _ => Run.of_mem_takeWhile⟩
    · intro kind' cs' rest' happend h'
      have happend : cs' ++ rest' = cs := by
        rw [happend, List.append_assoc, List.cons_append, List.cons_append,
          List.takeWhile_append_dropWhile, ← hdrop, hcs]
      rcases (h'.of_digit hc).1 with hds | ⟨ds, d', es, rfl, hds, -, hes⟩
      · have hle := Run.length_le_of_append_eq hds happend
        rw [List.length_append]
        omega
      · rw [List.append_assoc] at happend
        obtain ⟨htake, hdrop'⟩ := hpoint hds happend
        rw [hdrop] at hdrop'
        obtain ⟨rfl, rfl⟩ : d = d' ∧ rest = es ++ rest' := by simpa using hdrop'
        have hle := Run.length_le_of_append_eq hes (rfl : es ++ rest' = es ++ rest')
        simp only [htake, List.length_append, List.length_cons]
        omega
  · refine .of_cons (spelling_cons_iff.2 (.inr (.inl ⟨hc, .inl fun _ => Run.of_mem_takeWhile,
      rfl⟩))) ?_
    intro kind' cs' rest' happend h'
    rw [hcs] at happend
    rcases (h'.of_digit hc).1 with hds | ⟨ds, d', es, rfl, hds, hd', -⟩
    · exact Run.length_le_of_append_eq hds happend
    · rw [List.append_assoc] at happend
      exact absurd hd' (hno d' _ (hpoint hds happend).2)

/-- A string is read to the quote that closes it, and cannot be read any further. -/
theorem longestSpelling_string {cs rest : List Char}
    (hdrop : cs.dropWhile (· ≠ '"') = '"' :: rest) :
    LongestSpelling .string ('"' :: (cs.takeWhile (· ≠ '"') ++ ['"'])) rest := by
  have hbody : '"' ∉ cs.takeWhile (· ≠ '"') := fun h => by simpa using Run.of_mem_takeWhile h
  refine .of_cons (.string hbody) ?_
  intro kind' cs' rest' happend h'
  obtain ⟨body, hbody', rfl⟩ := h'.of_quote.1
  have hall : ∀ d ∈ body, decide (d ≠ '"') = true := fun d hd =>
    decide_eq_true (ne_of_mem_of_not_mem hd hbody')
  have hcs : body ++ '"' :: rest' = cs := by
    rw [List.append_assoc, List.append_assoc, List.singleton_append, List.singleton_append]
      at happend
    rw [happend, ← hdrop, List.takeWhile_append_dropWhile]
  have hle := Run.length_le_of_append_eq hall hcs
  simp only [List.length_append, List.length_singleton]
  omega

/-- A mark is read with the equals sign that belongs to it, and with nothing else.

**Proof sketch.** Behind its first character a mark has nothing or an equals sign. If it could have
one and the text does, it is taken; otherwise no longer spelling is there. -/
theorem longestSpelling_punctuation {c : Char} {mark : Punctuation}
    (hc : Punctuation.ofChar? c = some mark) (cs : List Char) :
    LongestSpelling (Lexeme.punctuation mark c cs).kind (Lexeme.punctuation mark c cs).span
      (Lexeme.punctuation mark c cs).rest := by
  obtain ⟨hletter, hdigit, hquote⟩ := classes_of_ofChar? hc
  -- behind the first character at most an equals sign belongs to a mark
  have htail : ∀ {kind' cs'}, Spelling kind' (c :: cs') →
      cs' = [] ∨ cs' = ['='] ∧ mark.withEqual? ≠ none := by
    intro kind' cs' h'
    obtain ⟨mark', hmark', -⟩ := h'.of_other hletter hdigit hquote
    obtain ⟨single, hsingle, ⟨hnil, -⟩ | ⟨hequal, hlonger⟩⟩ :=
      Punctuation.spelling_eq_cons_iff.1 hmark'
    · exact .inl hnil
    · cases hc.symm.trans hsingle
      exact .inr ⟨hequal, by simp [hlonger]⟩
  rcases Lexeme.punctuation_cases mark c cs with ⟨rest, longer, rfl, hlonger, heq⟩ | ⟨hno, heq⟩ <;>
    rw [heq]
  · have hspelling := Punctuation.spelling_eq_cons_iff.2 ⟨mark, hc, .inr ⟨rfl, hlonger⟩⟩
    refine .of_cons (hspelling ▸ .punctuation longer) ?_
    intro kind' cs' rest' _ h'
    rcases htail h' with rfl | ⟨rfl, -⟩ <;> decide
  · have hspelling := Punctuation.spelling_eq_cons_iff.2 ⟨mark, hc, .inl ⟨rfl, rfl⟩⟩
    refine .of_cons (hspelling ▸ .punctuation mark) ?_
    intro kind' cs' rest' happend h'
    rcases htail h' with rfl | ⟨rfl, hsome⟩
    · exact Nat.le_refl _
    · exact absurd (hno (by rw [← List.nil_append cs, ← happend]; rfl)) hsome

/-! ## First tokens -/

/-- **The scanner takes the first token** of the grammar, be it a spelling or an error.

**Proof sketch.** The scanner goes by the class of the first character, and so do the spellings.
Where no class is met there is no spelling, and the character is an error. -/
theorem firstToken_ofChars (c : Char) (cs : List Char) :
    FirstToken (Lexeme.ofChars c cs).kind (Lexeme.ofChars c cs).span
      (Lexeme.ofChars c cs).rest := by
  unfold Lexeme.ofChars
  split
  · rename_i hletter
    exact .spelled (longestSpelling_word hletter cs)
  · rename_i hletter
    split
    · rename_i hdigit
      exact .spelled (longestSpelling_number hdigit cs)
    · rename_i hdigit
      split
      · rename_i hquote
        subst hquote
        rcases Lexeme.string_cases '"' cs with ⟨rest, hdrop, heq⟩ | ⟨hdrop, heq⟩ <;> rw [heq]
        · exact .spelled (longestSpelling_string hdrop)
        · exact .unterminated fun h => by simpa using Run.of_mem_takeWhile h
      · rename_i hquote
        cases hmark : Punctuation.ofChar? c with
        | some mark => exact .spelled (longestSpelling_punctuation hmark cs)
        | none =>
          -- a spelling would start with a character of one of the classes
          refine .unexpected hquote fun kind span rest' happend h => ?_
          obtain ⟨c', cs', rfl⟩ := List.exists_cons_of_ne_nil h.ne_nil
          cases happend
          obtain ⟨mark, hspelling, -⟩ := h.of_other hletter hdigit hquote
          obtain ⟨single, hc, -⟩ := Punctuation.spelling_eq_cons_iff.1 hspelling
          rw [hmark] at hc
          contradiction

/-- A quote that no other quote follows starts no spelling, as a string would have to be closed. -/
theorem not_spelling_of_unterminated {kind : TokenKind} {body span rest : List Char}
    (hbody : '"' ∉ body) (happend : span ++ rest = '"' :: body) : ¬ Spelling kind span := by
  intro h
  obtain ⟨c, cs, rfl⟩ := List.exists_cons_of_ne_nil h.ne_nil
  obtain ⟨rfl, rfl⟩ := List.cons.inj happend
  obtain ⟨inner, -, rfl⟩ := h.of_quote.1
  simp at hbody

/-- **A text has only one first token.** Spellings of the same length are the same, and errors start
no spelling.

**Proof sketch.** By the ways of both tokens. Two longest spellings of one text have the same
length, and so they are the same. An error is where no spelling starts, and the two errors are told
apart by their first character. -/
theorem FirstToken.unique {kind kind' : TokenKind} {span span' rest rest' : List Char}
    (h : FirstToken kind span rest) (h' : FirstToken kind' span' rest')
    (happend : span ++ rest = span' ++ rest') : kind = kind' ∧ span = span' ∧ rest = rest' := by
  cases h with
  | spelled hlongest =>
    cases h' with
    | spelled hlongest' =>
      have hle := hlongest.length_le _ _ _ happend.symm hlongest'.spelling
      have hge := hlongest'.length_le _ _ _ happend hlongest.spelling
      obtain ⟨rfl, rfl⟩ := List.append_inj happend (Nat.le_antisymm hge hle)
      exact ⟨hlongest.spelling.kind_unique hlongest'.spelling, rfl, rfl⟩
    | unterminated hbody =>
      rw [List.append_nil] at happend
      exact absurd hlongest.spelling (not_spelling_of_unterminated hbody happend)
    | unexpected _ hno => exact absurd hlongest.spelling (hno _ _ _ happend)
  | unterminated hbody =>
    rw [List.append_nil] at happend
    cases h' with
    | spelled hlongest' =>
      exact absurd hlongest'.spelling (not_spelling_of_unterminated hbody happend.symm)
    | unterminated _ =>
      rw [List.append_nil] at happend
      exact ⟨rfl, happend, rfl⟩
    | unexpected hc _ => exact absurd (List.cons.inj happend).1.symm hc
  | unexpected hc hno =>
    cases h' with
    | spelled hlongest' => exact absurd hlongest'.spelling (hno _ _ _ happend.symm)
    | unterminated _ => exact absurd (List.cons.inj happend).1 hc
    | unexpected _ _ =>
      obtain ⟨rfl, rfl⟩ := List.cons.inj happend
      exact ⟨rfl, rfl, rfl⟩

/-- What the scanner takes is the first token, and nothing else is. So the grammar may be used in
its place. -/
theorem firstToken_iff {kind : TokenKind} {span rest : List Char} {c : Char} {cs : List Char}
    (happend : span ++ rest = c :: cs) :
    FirstToken kind span rest ↔ Lexeme.ofChars c cs = ⟨kind, span, rest⟩ := by
  constructor
  · intro h
    have hchars := Lexeme.span_append_rest c cs
    obtain ⟨hkind, hspan, hrest⟩ := (firstToken_ofChars c cs).unique h (hchars.trans happend.symm)
    rw [← hkind, ← hspan, ← hrest]
  · intro h
    have hfirst := firstToken_ofChars c cs
    rwa [h] at hfirst

/-- A number has one fraction at most. -/
example : Lexeme.ofChars '1' ['.', '2', '.', '3'] =
    ⟨.number, ['1', '.', '2'], ['.', '3']⟩ := by decide

/-- Of three equals signs behind a bang, one belongs to it. -/
example : Lexeme.ofChars '!' ['=', '=', '='] =
    ⟨.punctuation .bangEqual, ['!', '='], ['=', '=']⟩ := by decide

end ChunkMachine
