import ChunkMachine.Numeric.Power
import ChunkMachine.Proofs.Text.Numeral
import ChunkMachine.Proofs.Token.Lines
import ChunkMachine.Proofs.Token.Spacing
import ChunkMachine.Samples

set_option relaxedAutoImplicit false
set_option autoImplicit false

/-!
# Generated source text

Source text of any size is valid: it is made of whole statements, each written token by token, so it
has sixteen tokens for each of them, whatever the numbers in it are. A name with a number behind it
is never reserved, a number and a name end before the space or the mark that follows, and what a
comment or a string tells does not end it.

## Main definitions

* `Samples.statements` — the text of some statements.
* `Samples.statementTokens` — the tokens of a statement.

## Main results

* `Samples.exists_source` — source text is made of as many statements as its length needs.
* `Samples.written_statements` — statements are written token by token.
* `Samples.tokenize_source` — source text has no errors, and how many tokens and lines it has.
-/

namespace ChunkMachine

/-- A word with a digit in it is an identifier, since no keyword has one. -/
theorem Spelling.identifier_of_isDigit {c d : Char} {cs : List Char} (hc : isWordStart c)
    (hcs : ∀ e ∈ cs, isWordChar e) (hd : d ∈ cs) (hdigit : d.isDigit) :
    Spelling .identifier (c :: cs) := by
  refine .identifier (isWordStart_iff.1 hc) (fun e he => isWordChar_iff.1 (hcs e he)) ?_
  intro word hword
  -- reserved words have no digits
  have hletters : word.spelling.toList.all fun e => !e.isDigit := by cases word <;> decide
  rw [hword, List.all_eq_true] at hletters
  have hno := hletters d (List.mem_cons_of_mem c hd)
  rw [hdigit] at hno
  contradiction

namespace Samples

/-! ## Statements -/

/-- The text of `k` statements, from number `i` on, one after another without anything in
between. -/
def statements (i k : Nat) : String := String.join ((List.range' i k).map statement)

/-- No statements have no text. -/
theorem statements_zero (i : Nat) : statements i 0 = "" := rfl

/-- The first of some statements stands in front of the others, which are numbered from the next one
on. -/
theorem statements_succ (i k : Nat) :
    statements i (k + 1) = statement i ++ statements (i + 1) k := by
  rw [statements, List.range'_succ, List.map_cons, String.join_cons]
  rfl

/-- The text of more statements begins with that of fewer. Both are needed to see where a text is
cut off. -/
theorem statements_add (i j k : Nat) :
    statements i (j + k) = statements i j ++ statements (i + j) k := by
  induction j generalizing i with
  | zero => simp [statements_zero]
  | succ j ih =>
    rw [Nat.succ_add j k, statements_succ, ih, statements_succ, String.append_assoc,
      Nat.add_right_comm i 1 j, Nat.add_assoc i j 1]

/-- The text of more statements is at least as long as that of fewer. -/
theorem utf8ByteSize_statements_mono (i : Nat) {j k : Nat} (h : j ≤ k) :
    (statements i j).utf8ByteSize ≤ (statements i k).utf8ByteSize := by
  obtain ⟨n, rfl⟩ := Nat.exists_eq_add_of_le h
  rw [statements_add, String.utf8ByteSize_append]
  exact Nat.le_add_right _ _

/-- **A text gets as many statements as it needs**: it is long enough with them, and without the
last of them it is not.

**Proof sketch.** Induction on the calls. A statement is appended exactly if the text before it is
too short. -/
theorem exists_statementsFrom (target i written : Nat) (taken : List String) :
    ∃ k, statementsFrom target i written taken =
        taken.reverse ++ (List.range' i k).map statement ∧
      target ≤ written + (statements i k).utf8ByteSize ∧
      ∀ j < k, written + (statements i j).utf8ByteSize < target := by
  fun_induction statementsFrom target i written taken with
  | case1 i written taken hshort ih =>
    obtain ⟨k, hresult, hlong, hbefore⟩ := ih
    refine ⟨k + 1, ?_, ?_, fun j hj => ?_⟩
    · rw [hresult, List.range'_succ, List.map_cons, List.reverse_cons, List.append_assoc]
      rfl
    · rw [statements_succ, String.utf8ByteSize_append, ← Nat.add_assoc]
      exact hlong
    · cases j with
      | zero => simpa [statements_zero] using hshort
      | succ j =>
        -- the first statement counts as written for those behind it
        rw [statements_succ, String.utf8ByteSize_append, ← Nat.add_assoc]
        exact hbefore j (Nat.lt_of_succ_lt_succ hj)
  | case2 i written taken hlong =>
    refine ⟨0, by simp, ?_, fun j hj => absurd hj (Nat.not_lt_zero j)⟩
    simpa [statements_zero] using hlong

/-- **Source text is made of whole statements**, no more than its length needs. This tells their
number up to the lengths of the statements. -/
theorem exists_source (kibibytes : Nat) :
    ∃ k, source kibibytes = statements 0 k ∧
      1024 * kibibytes ≤ (statements 0 k).utf8ByteSize ∧
      ∀ j < k, (statements 0 j).utf8ByteSize < 1024 * kibibytes := by
  obtain ⟨k, hresult, hlong, hbefore⟩ := exists_statementsFrom (kibibytes * 1024) 0 0 []
  rw [Nat.mul_comm 1024]
  refine ⟨k, ?_, by simpa using hlong, fun j hj => by simpa using hbefore j hj⟩
  rw [source, hresult]
  rfl

/-! ## Lines -/

/-- The first line of a statement: a declaration, which refers to the variable before, and a
comment. -/
def declarationLine (i : Nat) : String :=
  "var v" ++ toString i ++ " = " ++ toString i ++ ".5 * (v" ++ toString (i - 1) ++
    " + 3) / 7; // step " ++ toString i

/-- The second line of a statement, on which a string is printed. -/
def printLine (i : Nat) : String := "print \"value " ++ toString i ++ "\";"

/-- Numbers are told without line feeds and quotes, and so they neither end a line nor a string. -/
theorem ne_of_mem_toDigits {n : Nat} {c : Char} (h : c ∈ Nat.toDigits 10 n) :
    c ≠ '\n' ∧ c ≠ '"' := by
  have hdigit := Text.isDigit_of_mem_toDigits h
  constructor <;> rintro rfl <;> contradiction

/-- **A statement has two lines**, whatever its number is. -/
theorem lines_statement (i : Nat) :
    '\n' ∉ (declarationLine i).toList ∧ '\n' ∉ (printLine i).toList ∧
      statement i = declarationLine i ++ "\n" ++ (printLine i ++ "\n") := by
  have hno : ∀ n, '\n' ∉ Nat.toDigits 10 n := fun n h => (ne_of_mem_toDigits h).1 rfl
  refine ⟨by simp [declarationLine, hno], by simp [printLine, hno], ?_⟩
  apply String.toList_inj.1
  simp [statement, declarationLine, printLine]

/-- Each statement has two line feeds, which tells the line that the end of the text is on. -/
theorem count_statements (i k : Nat) : (statements i k).toList.count '\n' = 2 * k := by
  induction k generalizing i with
  | zero => rfl
  | succ k ih =>
    obtain ⟨hfirst, hsecond, hlines⟩ := lines_statement i
    have htwo : (statement i).toList.count '\n' = 2 := by
      simp [hlines, List.count_eq_zero_of_not_mem hfirst, List.count_eq_zero_of_not_mem hsecond]
    rw [statements_succ, String.toList_append, List.count_append, ih, htwo]
    omega

/-! ## Tokens -/

/-- The tokens on the first line of a statement, each with its kind and its lexeme. The comment
makes none. -/
def declarationTokens (i : Nat) : List (TokenKind × List Char) :=
  [(.keyword .var, Keyword.var.spelling.toList),
    (.identifier, 'v' :: Nat.toDigits 10 i),
    (.punctuation .equal, ['=']),
    (.number, Nat.toDigits 10 i ++ ['.', '5']),
    (.punctuation .star, ['*']),
    (.punctuation .leftParen, ['(']),
    (.identifier, 'v' :: Nat.toDigits 10 (i - 1)),
    (.punctuation .plus, ['+']),
    (.number, ['3']),
    (.punctuation .rightParen, [')']),
    (.punctuation .slash, ['/']),
    (.number, ['7']),
    (.punctuation .semicolon, [';'])]

/-- The tokens on the second line of a statement. The string is a single one, whatever number it
tells. -/
def printTokens (i : Nat) : List (TokenKind × List Char) :=
  [(.keyword .print, Keyword.print.spelling.toList),
    (.string, '"' :: ("value ".toList ++ Nat.toDigits 10 i ++ ['"'])),
    (.punctuation .semicolon, [';'])]

/-- The tokens of a statement: those of its first line, and then those of its second. -/
def statementTokens (i : Nat) : List (TokenKind × List Char) :=
  declarationTokens i ++ printTokens i

/-- Every statement has sixteen tokens, so that they can be counted without knowing the numbers in
them. -/
theorem length_flatMap_statementTokens (i k : Nat) :
    ((List.range' i k).flatMap statementTokens).length = 16 * k := by
  have hlength : ∀ j, (statementTokens j).length = 16 := fun _ => rfl
  simp [List.length_flatMap, hlength, List.map_const', Nat.mul_comm]

/-- The names in a statement are identifiers: a letter and a number. -/
theorem spelling_name (n : Nat) : Spelling .identifier ('v' :: Nat.toDigits 10 n) := by
  obtain ⟨d, ds, hdigits⟩ := List.exists_cons_of_ne_nil (Nat.toDigits_ne_nil (n := n) (b := 10))
  have hd : d ∈ Nat.toDigits 10 n := hdigits ▸ List.mem_cons_self
  refine .identifier_of_isDigit rfl (fun e he => ?_) hd (Text.isDigit_of_mem_toDigits hd)
  exact isWordChar_iff.2 (.inr (isDigit_iff.1 (Text.isDigit_of_mem_toDigits he)))

/-- A whole number and a half is a single number, with its point and what stands behind it. -/
theorem spelling_andHalf (n : Nat) : Spelling .number (Nat.toDigits 10 n ++ ['.', '5']) := by
  obtain ⟨d, ds, hdigits⟩ := List.exists_cons_of_ne_nil (Nat.toDigits_ne_nil (n := n) (b := 10))
  have hall : ∀ e ∈ d :: ds, IsDigit e := fun e he =>
    isDigit_iff.1 (Text.isDigit_of_mem_toDigits (hdigits ▸ he))
  obtain ⟨hd, hds⟩ := List.forall_mem_cons.1 hall
  rw [hdigits]
  exact .fraction hd hds (isDigit_iff.1 rfl) nofun

/-- A digit on its own is a number. -/
theorem spelling_digit {d : Char} (h : d.isDigit) : Spelling .number [d] :=
  .integer (isDigit_iff.1 h) nofun

/-- What a string tells of a number has no quote in it, so that the string is closed by its own. -/
theorem spelling_value (n : Nat) :
    Spelling .string ('"' :: ("value ".toList ++ Nat.toDigits 10 n ++ ['"'])) := by
  refine .string fun h => ?_
  rcases List.mem_append.1 h with hvalue | hdigit
  · simp at hvalue
  · exact (ne_of_mem_toDigits hdigit).2 rfl

/-- The first line is written token by token, with a comment behind them.

**Proof sketch.** The characters are cut where a token or a blank is over, and then each token is a
step of the judgment. -/
theorem written_declarationLine (i : Nat) (rest : List Char) :
    Written (declarationTokens i) ((declarationLine i).toList ++ '\n' :: rest) ('\n' :: rest) := by
  -- the same characters, cut where a token or a blank is over
  have hchars : (declarationLine i).toList ++ '\n' :: rest =
      Keyword.var.spelling.toList ++ ' ' :: (('v' :: Nat.toDigits 10 i) ++ ' ' :: (['='] ++
      ' ' :: ((Nat.toDigits 10 i ++ ['.', '5']) ++ ' ' :: (['*'] ++ ' ' :: (['('] ++
      (('v' :: Nat.toDigits 10 (i - 1)) ++ ' ' :: (['+'] ++ ' ' :: (['3'] ++ ([')'] ++
      ' ' :: (['/'] ++ ' ' :: (['7'] ++ ([';'] ++ ' ' :: '/' :: '/' ::
      ((" step ".toList ++ Nat.toDigits 10 i) ++ '\n' :: rest))))))))))))) := by
    simp [declarationLine, Keyword.spelling]
  have hcomment : '\n' ∉ " step ".toList ++ Nat.toDigits 10 i := by
    intro h
    rcases List.mem_append.1 h with hstep | hdigit
    · simp at hstep
    · exact (ne_of_mem_toDigits hdigit).1 rfl
  rw [hchars]
  refine .token (.keyword .var) rfl (.blank rfl ?_)
  refine .token (spelling_name i) rfl (.blank rfl ?_)
  refine .token (.punctuation .equal) rfl (.blank rfl ?_)
  refine .token (spelling_andHalf i) rfl (.blank rfl ?_)
  refine .token (.punctuation .star) rfl (.blank rfl ?_)
  refine .token (.punctuation .leftParen) rfl ?_
  refine .token (spelling_name (i - 1)) rfl (.blank rfl ?_)
  refine .token (.punctuation .plus) rfl (.blank rfl ?_)
  refine .token (spelling_digit rfl) rfl ?_
  refine .token (.punctuation .rightParen) rfl (.blank rfl ?_)
  refine .token (.punctuation .slash) rfl (.blank rfl ?_)
  refine .token (spelling_digit rfl) rfl ?_
  refine .token (.punctuation .semicolon) rfl (.blank rfl ?_)
  exact .comment hcomment .nil

/-- The second line is written token by token. There is a blank behind the first one, and none
before the last one. -/
theorem written_printLine (i : Nat) (rest : List Char) :
    Written (printTokens i) ((printLine i).toList ++ '\n' :: rest) ('\n' :: rest) := by
  have hchars : (printLine i).toList ++ '\n' :: rest =
      Keyword.print.spelling.toList ++ ' ' :: (('"' :: ("value ".toList ++
      Nat.toDigits 10 i ++ ['"'])) ++ ([';'] ++ '\n' :: rest)) := by
    simp [printLine, Keyword.spelling]
  rw [hchars]
  refine .token (.keyword .print) rfl (.blank rfl ?_)
  refine .token (spelling_value i) rfl ?_
  exact .token (.punctuation .semicolon) rfl .nil

/-- **A statement is written token by token**, whatever its number is. -/
theorem written_statement (i : Nat) (rest : List Char) :
    Written (statementTokens i) ((statement i).toList ++ rest) rest := by
  have hchars : (statement i).toList ++ rest =
      (declarationLine i).toList ++ '\n' :: ((printLine i).toList ++ '\n' :: rest) := by
    simp [(lines_statement i).2.2]
  rw [hchars]
  have hprint := (written_printLine i rest).append (.blank rfl .nil)
  rw [List.append_nil] at hprint
  exact (written_declarationLine i _).append (.blank rfl hprint)

/-- Numbers of two digits make no difference. -/
example : (tokenize (statement 10)).length = 17 := by decide +kernel

/-- Statements are written one by one, and nothing is left behind the last one. -/
theorem written_statements (i k : Nat) :
    Written ((List.range' i k).flatMap statementTokens) (statements i k).toList [] := by
  induction k generalizing i with
  | zero => exact .nil
  | succ k ih =>
    rw [List.range'_succ, List.flatMap_cons, statements_succ, String.toList_append]
    exact (written_statement i _).append (ih (i + 1))

/-- **Generated source text is valid, of every size.** A text of at least so many kibibytes is the
text of `k` statements of two lines each, and

* it is as long as it should be, and without its last statement it is not;
* it has no errors, and sixteen tokens for each statement before the end of the text;
* the end of the text stands behind the last line, if the number of that line fits into a word.

**Proof sketch.** Statements are written token by token, so they are read so, and each has two line
feeds, before which the end of the text stands. -/
theorem tokenize_source (kibibytes : Nat) :
    ∃ k, source kibibytes = statements 0 k ∧
      (∀ i, ∃ first second : String, '\n' ∉ first.toList ∧ '\n' ∉ second.toList ∧
        statement i = first ++ "\n" ++ (second ++ "\n")) ∧
      1024 * kibibytes ≤ (source kibibytes).utf8ByteSize ∧
      (0 < k → (statements 0 (k - 1)).utf8ByteSize < 1024 * kibibytes) ∧
      checkTokens (tokenize (source kibibytes)) = .ok (tokenize (source kibibytes)) ∧
      (tokenize (source kibibytes)).length = 16 * k + 1 ∧
      (2 * k < 2 ^ 32 - 1 → ∃ last, (tokenize (source kibibytes)).getLast? = some last ∧
        last.kind = .eof ∧ last.line.toNat = 2 * k + 1) := by
  obtain ⟨k, hsource, hlong, hbefore⟩ := exists_source kibibytes
  rw [hsource]
  have hwritten := written_statements 0 k
  refine ⟨k, rfl, fun i => ⟨_, _, lines_statement i⟩, hlong,
    fun hk => hbefore _ (Nat.sub_one_lt_of_lt hk), checkTokens_of_written hwritten, ?_,
    fun hlines => ?_⟩
  · have htokens := congrArg List.length
      (Scanner.tokens_of_written (s := .ofString (statements 0 k)) hwritten)
    rw [List.length_map, List.length_append, length_flatMap_statementTokens] at htokens
    exact htokens
  · obtain ⟨last, hlast, htokens⟩ := (Scanner.ofString (statements 0 k)).exists_tokens_eq
    have hmem : last ∈ tokenize (statements 0 k) := by
      rw [Scanner.tokenize_eq_tokens, htokens]
      simp
    have hcount := count_statements 0 k
    refine ⟨last, ?_, hlast, ?_⟩
    · rw [Scanner.tokenize_eq_tokens, htokens, List.getLast?_concat]
    · rw [toNat_line_of_eof (by rw [hcount]; exact hlines) hmem hlast, hcount, Nat.add_comm]

/-- One kibibyte takes eighteen statements: seventeen are 986 bytes long. The end of the text is on
line 37. -/
theorem tokenize_source_kibibyte :
    (source 1 = statements 0 18 ∧ 2 * 18 < 2 ^ 32 - 1) ∧
      checkTokens (tokenize (source 1)) = .ok (tokenize (source 1)) ∧
      (tokenize (source 1)).length = 289 ∧
      ∃ last, (tokenize (source 1)).getLast? = some last ∧
        last.kind = .eof ∧ last.line.toNat = 37 := by
  obtain ⟨k, hsource, -, hlong, hbefore, hcheck, hlength, hlast⟩ := tokenize_source 1
  have hseventeen : (statements 0 17).utf8ByteSize < 1024 := by decide +kernel
  have heighteen : 1024 ≤ (statements 0 18).utf8ByteSize := by decide +kernel
  have hge : 18 ≤ k := by
    refine Nat.le_of_not_lt fun hlt => ?_
    have hle := utf8ByteSize_statements_mono 0 (show k ≤ 17 by omega)
    rw [hsource] at hlong
    omega
  have hle : k ≤ 18 := by
    refine Nat.le_of_not_lt fun hgt => ?_
    have hmono := utf8ByteSize_statements_mono 0 (show 18 ≤ k - 1 by omega)
    have hshort := hbefore (by omega)
    omega
  obtain rfl : k = 18 := Nat.le_antisymm hle hge
  have hfits : 2 * 18 < 2 ^ 32 - 1 := by decide
  exact ⟨⟨hsource, hfits⟩, hcheck, hlength, hlast hfits⟩

end Samples

end ChunkMachine
