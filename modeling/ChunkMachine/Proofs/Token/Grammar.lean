import ChunkMachine.Token.Scanner

set_option relaxedAutoImplicit false
set_option autoImplicit false

/-!
# The grammar of tokens

How the tokens of each kind are written, without a word on how they are read. No two kinds have a
spelling in common, and the first character of a spelling already decides which rule it is of.

## Main definitions

* `Spelling` — how the tokens of a kind are written.
* `Punctuation.spelling` — how a mark is written.

## Main results

* `spelling_cons_iff` — the first character of a spelling decides which rule it is of.
* `Spelling.kind_unique` — a spelling is of one kind only.
-/

namespace ChunkMachine

/-- The letters of words: those of the Latin alphabet and the underscore. -/
def IsLetter (c : Char) : Prop := 'A' ≤ c ∧ c ≤ 'Z' ∨ 'a' ≤ c ∧ c ≤ 'z' ∨ c = '_'

/-- The ten digits. -/
def IsDigit (c : Char) : Prop := '0' ≤ c ∧ c ≤ '9'

/-- How a mark is written: a character, or a character and an equals sign. -/
def Punctuation.spelling : Punctuation → List Char
  | leftParen => ['(']
  | rightParen => [')']
  | leftBrace => ['\x7b']
  | rightBrace => ['\x7d']
  | comma => [',']
  | dot => ['.']
  | minus => ['-']
  | plus => ['+']
  | semicolon => [';']
  | slash => ['/']
  | star => ['*']
  | bang => ['!']
  | bangEqual => ['!', '=']
  | equal => ['=']
  | equalEqual => ['=', '=']
  | greater => ['>']
  | greaterEqual => ['>', '=']
  | less => ['<']
  | lessEqual => ['<', '=']

/-- The characters `span` are a way to write a token of the kind. Nothing is said here of what comes
behind them. -/
inductive Spelling : (kind : TokenKind) → (span : List Char) → Prop where
  /-- A reserved word is written in one way. -/
  | keyword (word : Keyword) : Spelling (.keyword word) word.spelling.toList
  /-- Any other word is an identifier. -/
  | identifier {c : Char} {cs : List Char} (hc : IsLetter c)
      (hcs : ∀ d ∈ cs, IsLetter d ∨ IsDigit d)
      (hfree : ∀ word : Keyword, word.spelling.toList ≠ c :: cs) : Spelling .identifier (c :: cs)
  /-- A number is written with one digit at least. -/
  | integer {c : Char} {ds : List Char} (hc : IsDigit c) (hds : ∀ d ∈ ds, IsDigit d) :
      Spelling .number (c :: ds)
  /-- Behind a point there is one digit at least. -/
  | fraction {c d : Char} {ds es : List Char} (hc : IsDigit c) (hds : ∀ d ∈ ds, IsDigit d)
      (hd : IsDigit d) (hes : ∀ e ∈ es, IsDigit e) : Spelling .number (c :: (ds ++ '.' :: d :: es))
  /-- A string has quotes around it and none within. -/
  | string {body : List Char} (hbody : '"' ∉ body) : Spelling .string ('"' :: (body ++ ['"']))
  /-- A mark is written in one way. -/
  | punctuation (mark : Punctuation) : Spelling (.punctuation mark) mark.spelling

/-! ## Classes of characters -/

/-- The letters are those that start a word, be they large or small. -/
theorem isWordStart_iff {c : Char} : isWordStart c ↔ IsLetter c := by
  show ((decide ('A' ≤ c ∧ c ≤ 'Z') || (decide ('a' ≤ c) && decide (c ≤ 'z'))) ||
    decide (c = '_')) = true ↔ _
  simp only [IsLetter, Bool.or_eq_true, Bool.and_eq_true, decide_eq_true_eq, or_assoc]

/-- The digits are those that start a number, and no other characters are. -/
theorem isDigit_iff {c : Char} : c.isDigit ↔ IsDigit c := by
  simp only [IsDigit, Char.isDigit, Bool.and_eq_true, decide_eq_true_eq, Char.le_def]

/-- Words go on with letters and digits, in any order. -/
theorem isWordChar_iff {c : Char} : isWordChar c ↔ IsLetter c ∨ IsDigit c := by
  simp only [isWordChar, Bool.or_eq_true, isWordStart_iff, isDigit_iff]

/-- No letter is a digit, so that words and numbers are told apart at once. -/
theorem not_isDigit_of_isWordStart {c : Char} (h : isWordStart c) : ¬ c.isDigit := by
  intro hdigit
  have hle := (isDigit_iff.1 hdigit).2
  rcases isWordStart_iff.1 h with ⟨hge, -⟩ | ⟨hge, -⟩ | rfl
  · exact absurd (Char.le_trans hge hle) (by decide)
  · exact absurd (Char.le_trans hge hle) (by decide)
  · exact absurd hle (by decide)

/-- The characters that start a mark are of no other class, so a token is known by its first
character. -/
theorem classes_of_ofChar? {c : Char} {mark : Punctuation}
    (h : Punctuation.ofChar? c = some mark) : ¬ isWordStart c ∧ ¬ c.isDigit ∧ c ≠ '"' := by
  unfold Punctuation.ofChar? at h
  split at h
  all_goals first | decide | contradiction

/-! ## Words and marks -/

/-- Reserved words are made of letters, of one at least. So each of them could be an identifier. -/
theorem Keyword.exists_spelling_eq_cons (word : Keyword) :
    ∃ c cs, word.spelling.toList = c :: cs ∧ isWordStart c ∧ ∀ d ∈ cs, isWordChar d := by
  have hall : word.spelling.toList.all isWordChar := by cases word <;> decide
  have hhead : word.spelling.toList.head?.any isWordStart := by cases word <;> decide
  cases hspelling : word.spelling.toList with
  | nil =>
    rw [hspelling] at hhead
    contradiction
  | cons c cs =>
    rw [hspelling] at hall hhead
    exact ⟨c, cs, rfl, hhead, fun d hd => List.all_eq_true.1 hall d (List.mem_cons_of_mem c hd)⟩

/-- A word is reserved if and only if it is written like a reserved word, in small letters. -/
theorem Keyword.ofSpelling?_eq_some_iff {cs : List Char} {word : Keyword} :
    ofSpelling? cs = some word ↔ word.spelling.toList = cs := by
  constructor
  · intro h
    simpa using List.find?_some h
  · rintro rfl
    cases word <;> decide

/-- Every other word is an identifier. Reserved words may be parts of it. -/
theorem Keyword.ofSpelling?_eq_none_iff {cs : List Char} :
    ofSpelling? cs = none ↔ ∀ word : Keyword, word.spelling.toList ≠ cs := by
  simp [ofSpelling?, List.find?_eq_none, mem_all]

/-- What a mark is written as, by its first character: that character alone is a mark, and the mark
is that one or the longer one with an equals sign. -/
theorem Punctuation.spelling_eq_cons_iff {mark : Punctuation} {c : Char} {cs : List Char} :
    mark.spelling = c :: cs ↔ ∃ single, ofChar? c = some single ∧
      (cs = [] ∧ mark = single ∨ cs = ['='] ∧ single.withEqual? = some mark) := by
  constructor
  · intro h
    cases mark <;> cases h <;> simp [ofChar?, withEqual?]
  · rintro ⟨single, hc, ⟨rfl, rfl⟩ | ⟨rfl, hlonger⟩⟩
    · unfold ofChar? at hc
      split at hc
      all_goals first | contradiction | (cases hc; rfl)
    · unfold ofChar? at hc
      split at hc
      all_goals first | contradiction | (cases hc; cases hlonger; rfl) | (cases hc; contradiction)

/-! ## Spellings by their first character -/

/-- What may follow the first digit of a number. -/
def IsNumberTail (cs : List Char) : Prop :=
  (∀ d ∈ cs, d.isDigit) ∨ ∃ ds d es, cs = ds ++ '.' :: d :: es ∧ (∀ d ∈ ds, d.isDigit) ∧
    d.isDigit ∧ ∀ e ∈ es, e.isDigit

/-- **Which rule a spelling is of**, by its first character.

**Proof sketch.** By the rules of the grammar, each of which begins with a character of its own
class. For words it is the lookup of reserved words that tells the two rules apart. -/
theorem spelling_cons_iff {kind : TokenKind} {c : Char} {cs : List Char} :
    Spelling kind (c :: cs) ↔
      (isWordStart c ∧ (∀ d ∈ cs, isWordChar d) ∧ kind = .ofWord (c :: cs)) ∨
      (c.isDigit ∧ IsNumberTail cs ∧ kind = .number) ∨
      (c = '"' ∧ (∃ body, '"' ∉ body ∧ cs = body ++ ['"']) ∧ kind = .string) ∨
      ∃ mark, mark.spelling = c :: cs ∧ kind = .punctuation mark := by
  simp only [isWordStart_iff, isWordChar_iff, IsNumberTail, isDigit_iff]
  constructor
  · intro h
    generalize hspan : c :: cs = span at h
    cases h with
    | keyword word =>
      obtain ⟨c', cs', hword, hc, hcs⟩ := word.exists_spelling_eq_cons
      rw [hword] at hspan ⊢
      cases hspan
      refine .inl ⟨isWordStart_iff.1 hc, fun d hd => isWordChar_iff.1 (hcs d hd), ?_⟩
      rw [TokenKind.ofWord, Keyword.ofSpelling?_eq_some_iff.2 hword]
    | identifier hc hcs hfree =>
      cases hspan
      refine .inl ⟨hc, hcs, ?_⟩
      rw [TokenKind.ofWord, Keyword.ofSpelling?_eq_none_iff.2 hfree]
    | integer hc hds =>
      cases hspan
      exact .inr (.inl ⟨hc, .inl hds, rfl⟩)
    | fraction hc hds hd hes =>
      cases hspan
      exact .inr (.inl ⟨hc, .inr ⟨_, _, _, rfl, hds, hd, hes⟩, rfl⟩)
    | string hbody =>
      cases hspan
      exact .inr (.inr (.inl ⟨rfl, ⟨_, hbody, rfl⟩, rfl⟩))
    | punctuation mark => exact .inr (.inr (.inr ⟨mark, rfl, rfl⟩))
  · rintro (⟨hc, hcs, rfl⟩ | ⟨hc, hds | ⟨ds, d, es, rfl, hds, hd, hes⟩, rfl⟩ |
      ⟨rfl, ⟨body, hbody, rfl⟩, rfl⟩ | ⟨mark, hspan, rfl⟩)
    · cases hword : Keyword.ofSpelling? (c :: cs) with
      | some word =>
        have hspan := Keyword.ofSpelling?_eq_some_iff.1 hword
        rw [TokenKind.ofWord, hword, ← hspan]
        exact .keyword word
      | none =>
        rw [TokenKind.ofWord, hword]
        exact .identifier hc hcs (Keyword.ofSpelling?_eq_none_iff.1 hword)
    · exact .integer hc hds
    · exact .fraction hc hds hd hes
    · exact .string hbody
    · rw [← hspan]
      exact .punctuation mark

/-- Every spelling has a first character, by which its rule is told. -/
theorem Spelling.ne_nil {kind : TokenKind} {span : List Char} (h : Spelling kind span) :
    span ≠ [] := by
  cases h with
  | keyword word => cases word <;> decide
  | punctuation mark => cases mark <;> decide
  | _ => exact List.cons_ne_nil _ _

/-- No two marks are written alike, so a mark is known by its spelling. -/
theorem Punctuation.spelling_injective {mark mark' : Punctuation}
    (h : mark.spelling = mark'.spelling) : mark = mark' := by
  obtain ⟨c, cs, hmark⟩ := List.exists_cons_of_ne_nil (Spelling.punctuation mark).ne_nil
  obtain ⟨single, hc, hcs⟩ := spelling_eq_cons_iff.1 hmark
  obtain ⟨single', hc', hcs'⟩ := spelling_eq_cons_iff.1 (h ▸ hmark)
  rw [hc] at hc'
  cases hc'
  rcases hcs with ⟨rfl, rfl⟩ | ⟨rfl, hlonger⟩ <;> rcases hcs' with ⟨hnil, rfl⟩ | ⟨hequal, hlonger'⟩
  · rfl
  · contradiction
  · contradiction
  · exact Option.some.inj (hlonger.symm.trans hlonger')

/-- No mark starts like a word, a number or a string. -/
theorem Punctuation.classes_of_spelling {mark : Punctuation} {c : Char} {cs : List Char}
    (h : mark.spelling = c :: cs) : ¬ isWordStart c ∧ ¬ c.isDigit ∧ c ≠ '"' := by
  obtain ⟨single, hc, -⟩ := Punctuation.spelling_eq_cons_iff.1 h
  exact classes_of_ofChar? hc

namespace Spelling

variable {kind : TokenKind} {c : Char} {cs : List Char}

/-- What starts with a letter is a word, reserved or not. -/
theorem of_letter (h : Spelling kind (c :: cs)) (hc : isWordStart c) :
    (∀ d ∈ cs, isWordChar d) ∧ kind = .ofWord (c :: cs) := by
  rcases spelling_cons_iff.1 h with hword | ⟨hdigit, -⟩ | ⟨rfl, -⟩ | ⟨mark, hmark, -⟩
  · exact hword.2
  · exact absurd hdigit (not_isDigit_of_isWordStart hc)
  · exact absurd hc (by decide)
  · exact absurd hc (Punctuation.classes_of_spelling hmark).1

/-- What starts with a digit is a number, with a fraction or without. -/
theorem of_digit (h : Spelling kind (c :: cs)) (hc : c.isDigit) :
    IsNumberTail cs ∧ kind = .number := by
  rcases spelling_cons_iff.1 h with ⟨hword, -⟩ | hnumber | ⟨rfl, -⟩ | ⟨mark, hmark, -⟩
  · exact absurd hc (not_isDigit_of_isWordStart hword)
  · exact hnumber.2
  · exact absurd hc (by decide)
  · exact absurd hc (Punctuation.classes_of_spelling hmark).2.1

/-- What starts with a quote is a string, and ends with the next quote. -/
theorem of_quote (h : Spelling kind ('"' :: cs)) :
    (∃ body, '"' ∉ body ∧ cs = body ++ ['"']) ∧ kind = .string := by
  rcases spelling_cons_iff.1 h with ⟨hword, -⟩ | ⟨hdigit, -⟩ | hstring | ⟨mark, hmark, -⟩
  · exact absurd hword (by decide)
  · exact absurd hdigit (by decide)
  · exact hstring.2
  · exact absurd rfl (Punctuation.classes_of_spelling hmark).2.2

/-- What starts with any other character is a mark, if it is a spelling at all. -/
theorem of_other (h : Spelling kind (c :: cs)) (hletter : ¬ isWordStart c) (hdigit : ¬ c.isDigit)
    (hquote : c ≠ '"') : ∃ mark, mark.spelling = c :: cs ∧ kind = .punctuation mark := by
  rcases spelling_cons_iff.1 h with ⟨hword, -⟩ | ⟨hc, -⟩ | ⟨hc, -⟩ | hmark
  · exact absurd hword hletter
  · exact absurd hc hdigit
  · exact absurd hc hquote
  · exact hmark

/-- A spelling is of one kind only. Reserved words are no identifiers. -/
theorem kind_unique {kind' : TokenKind} {span : List Char} (h : Spelling kind span)
    (h' : Spelling kind' span) : kind = kind' := by
  obtain ⟨c, cs, rfl⟩ := List.exists_cons_of_ne_nil h.ne_nil
  rcases spelling_cons_iff.1 h with ⟨hc, -, rfl⟩ | ⟨hc, -, rfl⟩ | ⟨rfl, -, rfl⟩ | ⟨mark, hmark, rfl⟩
  · exact (h'.of_letter hc).2.symm
  · exact (h'.of_digit hc).2.symm
  · exact h'.of_quote.2.symm
  · obtain ⟨hletter, hdigit, hquote⟩ := Punctuation.classes_of_spelling hmark
    obtain ⟨mark', hmark', rfl⟩ := h'.of_other hletter hdigit hquote
    rw [Punctuation.spelling_injective (hmark.trans hmark'.symm)]

end Spelling

end ChunkMachine
