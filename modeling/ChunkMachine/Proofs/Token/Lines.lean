import ChunkMachine.Numeric.Power
import ChunkMachine.Proofs.Token.Feeds
import ChunkMachine.Proofs.Token.Tiling

set_option relaxedAutoImplicit false
set_option autoImplicit false

/-!
# Lines of tokens

The scanner counts line feeds as it passes them: in blanks, behind comments and in strings. So the
line on which it says that a token starts is one more than the number of line feeds before the
token, wherever these stand. As long as the count fits into a word, lines are exact; they go up
along the tokens, they are the lines of the lexical errors, and a text that is put below another one
has the same tokens on lower lines.

## Main definitions

* `Text.feedsBefore` — the line feeds before a byte of a text.
* `Reports` — the errors that some tokens mark, one by one.
* `Token.lower` — a token some lines further down.

## Main results

* `Cursor.exists_follows_after_line` — the line after some calls of the scanner.
* `Cursor.Follows.toNat_line_scan` — the line of the next token, in line feeds before its first
  byte.
* `tokenize_lines` — the lines of all tokens, and of all errors.
* `tokenize_append_feed` — the tokens of two texts with a line feed between them.
-/

namespace ChunkMachine

/-- The number of line feeds among the first `i` bytes of a text. It is a number, and not a word. -/
def Text.feedsBefore (text : String) (i : Nat) : Nat :=
  (text.toUTF8.data.toList.take i).count '\n'.toUInt8

/-- The lexical errors that some tokens mark: one for each token that is an error, in the order of
the tokens and with its line, and none for the other tokens. -/
inductive Reports : (tokens : List Token) → (errors : List LexicalError) → Prop where
  /-- No tokens mark no errors. -/
  | nil : Reports [] []
  /-- A token that is an error marks one, on its line. -/
  | error {fault : LexicalFault} {span : List Char} {line : UInt32} {tokens : List Token}
      {errors : List LexicalError} (h : Reports tokens errors) :
      Reports (⟨.error fault, span, line⟩ :: tokens) (⟨line, fault⟩ :: errors)
  /-- Any other token marks none. -/
  | other {t : Token} {tokens : List Token} {errors : List LexicalError}
      (ht : ∀ fault, t.kind ≠ .error fault) (h : Reports tokens errors) :
      Reports (t :: tokens) errors

/-- A token some lines further down. If its line left the range of words, it would start again at
zero. -/
def Token.lower (n : Nat) (t : Token) : Token := { t with line := UInt32.ofNat (t.line.toNat + n) }

/-! ## Line feeds as bytes and as words -/

/-- Before the byte with which some characters end there are their line feeds, and no others. -/
theorem Text.feedsBefore_eq {text : String} {before after : List Char}
    (h : text.toList = before ++ after) :
    feedsBefore text (encode before).length = before.count '\n' := by
  rw [feedsBefore, toUTF8_toList, h, encode_append, List.take_left, count_encode]

/-- The line behind some characters of a text is counted exactly as long as it fits into a word. -/
theorem toNat_line_behind {cs : List Char} (h : cs.count '\n' < 2 ^ 32 - 1) :
    (1 + lineFeeds cs).toNat = 1 + cs.count '\n' := by
  have hsize : UInt32.size = 2 ^ 32 := rfl
  rw [lineFeeds, UInt32.toNat_add, UInt32.toNat_ofNat_of_lt' (by omega)]
  exact Nat.mod_eq_of_lt (by show 1 + cs.count '\n' < 2 ^ 32; omega)

/-! ## Lines along the calls -/

/-- A token stands on the line of the place behind the gap, counted from the start of the text. -/
theorem Scanner.line_scan_behind {s : Scanner} {before : List Char}
    (h : s.line = 1 + lineFeeds before) :
    s.scan.1.line = 1 + lineFeeds (before ++ (splitGap s.rest).1) := by
  rw [s.line_scan, h, lineFeeds_append, UInt32.add_assoc]

/-- A call counts the line feeds of the gap and of the token, so that the line behind it is right
again. -/
theorem Scanner.line_next_behind {s : Scanner} {before : List Char}
    (h : s.line = 1 + lineFeeds before) :
    s.scan.2.line = 1 + lineFeeds (before ++ (splitGap s.rest).1 ++ s.scan.1.span) := by
  rw [s.line_next, line_scan_behind h, lineFeeds_append _ s.scan.1.span, UInt32.add_assoc]

namespace Cursor

variable {text : String} {before : List Char} {c : Cursor} {s : Scanner}

/-- **The line after some calls**: behind the characters that were passed the line is one more than
the number of their line feeds. -/
theorem exists_follows_after_line (text : String) (n : Nat) :
    ∃ before, Follows text before ((ofString text).after n) ((Scanner.ofString text).after n) ∧
      ((Scanner.ofString text).after n).line = 1 + lineFeeds before := by
  induction n with
  | zero => exact ⟨[], follows_ofString text, rfl⟩
  | succ n ih =>
    obtain ⟨before, h, hline⟩ := ih
    exact ⟨_, h.next, Scanner.line_next_behind hline⟩

/-- **The line of the next token** is one more than the number of line feeds before its first
byte. -/
theorem Follows.toNat_line_scan (h : Follows text before c s)
    (hline : s.line = 1 + lineFeeds before) (hfeeds : text.toList.count '\n' < 2 ^ 32 - 1) :
    s.scan.1.line.toNat = 1 + Text.feedsBefore text c.scan.2.start := by
  obtain ⟨-, hstart, -⟩ := h.bounds
  -- what was passed and the gap are the characters before the token
  have htext := h.toList_eq
  rw [List.append_assoc] at htext
  have hcount := congrArg (List.count '\n') htext
  rw [List.count_append] at hcount
  rw [Scanner.line_scan_behind hline, toNat_line_behind (by omega), hstart,
    Text.feedsBefore_eq htext]

/-- Tokens start one behind the other, so that their lines do not go down. -/
theorem start_after_mono (text : String) {k l : Nat} (h : k < l) :
    ((ofString text).after k).scan.2.start ≤ ((ofString text).after l).scan.2.start := by
  obtain ⟨before, hk⟩ := exists_follows_after text k
  obtain ⟨before', hl⟩ := exists_follows_after text l
  have hbehind := current_after_mono text (j := k + 1) h
  exact Nat.le_trans hk.tile.start_le_current (Nat.le_trans hbehind hl.tile.current_le_start)

end Cursor

/-- The tokens of a scanner are the results of its calls: the one with a number is that of the
call. -/
theorem Scanner.scan_after_of_getElem? {s : Scanner} {k : Nat} {t : Token}
    (h : s.tokens[k]? = some t) : (s.after k).scan.1 = t := by
  obtain ⟨n, -, hcalls⟩ := s.exists_calls
  rw [tokens_eq_map hcalls, List.getElem?_map, Option.map_eq_some_iff] at h
  obtain ⟨k', hk, rfl⟩ := h
  obtain ⟨hlt, hget⟩ := List.getElem?_eq_some_iff.1 hk
  rw [List.getElem_range] at hget
  rw [hget]

/-! ## Lines of errors -/

/-- The errors of some tokens are those that the tokens mark, one by one. -/
theorem reports_iff {tokens : List Token} {errors : List LexicalError} :
    Reports tokens errors ↔ tokens.filterMap Token.error? = errors := by
  constructor
  · intro h
    induction h with
    | nil => rfl
    | error _ ih => exact congrArg (List.cons _) ih
    | other ht _ ih => rw [List.filterMap_cons_none (Token.error?_eq_none_iff.2 ht), ih]
  · rintro rfl
    induction tokens with
    | nil => exact .nil
    | cons t tokens ih =>
      obtain ⟨kind, span, line⟩ := t
      cases kind with
      | error fault => exact .error ih
      | _ => exact .other nofun ih

/-- A text is refused exactly if its tokens mark errors, and with these. There is no other reason to
refuse one. -/
theorem checkTokens_eq_error_iff {tokens : List Token} {errors : List LexicalError} :
    checkTokens tokens = .error errors ↔ errors ≠ [] ∧ Reports tokens errors := by
  rw [reports_iff, checkTokens]
  split
  · rename_i hnil
    rw [hnil]
    exact ⟨nofun, fun h => absurd h.2.symm h.1⟩
  · rename_i hne
    constructor
    · rintro ⟨⟩
      exact ⟨hne, rfl⟩
    · rintro ⟨-, rfl⟩
      rfl

/-! ## Lines of all tokens -/

/-- There are no fewer line feeds before a later byte. -/
theorem Text.feedsBefore_mono (text : String) {i j : Nat} (h : i ≤ j) :
    feedsBefore text i ≤ feedsBefore text j :=
  (List.take_sublist_take_left h).count_le _

/-- Before no byte there are more line feeds than in all of the text. -/
theorem Text.feedsBefore_le (text : String) (i : Nat) :
    feedsBefore text i ≤ text.toList.count '\n' := by
  rw [feedsBefore, ← count_encode, ← toUTF8_toList]
  exact (List.take_sublist i _).count_le _

/-- Before the end of the text there are all of its line feeds. -/
theorem Text.feedsBefore_size (text : String) :
    feedsBefore text text.utf8ByteSize = text.toList.count '\n' := by
  rw [← length_encode_toList]
  exact feedsBefore_eq (List.append_nil _).symm

/-- **The line of every token** is one more than the number of line feeds before its first byte. -/
theorem toNat_line_of_getElem? {text : String} (h : text.toList.count '\n' < 2 ^ 32 - 1) {k : Nat}
    {t : Token} (hk : (tokenize text)[k]? = some t) :
    t.line.toNat = 1 + Text.feedsBefore text ((Cursor.ofString text).after k).scan.2.start := by
  obtain ⟨before, hfollows, hline⟩ := Cursor.exists_follows_after_line text k
  rw [← Scanner.scan_after_of_getElem? hk]
  exact hfollows.toNat_line_scan hline h

/-- No token stands below the last line, the end of the text included. -/
theorem toNat_line_le {text : String} (h : text.toList.count '\n' < 2 ^ 32 - 1) {t : Token}
    (hmem : t ∈ tokenize text) : t.line.toNat ≤ 1 + text.toList.count '\n' := by
  obtain ⟨k, hk⟩ := List.mem_iff_getElem?.1 hmem
  rw [toNat_line_of_getElem? h hk]
  exact Nat.add_le_add_left (Text.feedsBefore_le text _) 1

/-- The end of the text stands on its last line, even if that one is empty. -/
theorem toNat_line_of_eof {text : String} (h : text.toList.count '\n' < 2 ^ 32 - 1) {t : Token}
    (hmem : t ∈ tokenize text) (ht : t.kind = .eof) :
    t.line.toNat = 1 + text.toList.count '\n' := by
  obtain ⟨k, hk⟩ := List.mem_iff_getElem?.1 hmem
  obtain ⟨before, hfollows⟩ := Cursor.exists_follows_after text k
  have hkind : ((Cursor.ofString text).after k).scan.1 = .eof := by
    rw [hfollows.scan_eq, Scanner.scan_after_of_getElem? hk]
    exact ht
  rw [toNat_line_of_getElem? h hk, (hfollows.tile.bounds_of_eof hkind).1, Text.feedsBefore_size]

/-- **Lines are exact.** Take a text whose last line has a number that fits into a word. Then

* every token, an error or the end of the text as well, stands on the line whose number is one more
  than the number of line feeds before its first byte;
* along the tokens lines do not go down;
* the end of the text comes last, on the last line;
* the text is refused exactly if some tokens mark errors, and then with one error for each of them,
  in their order and on their lines.

**Proof sketch.** The line of every token is `toNat_line_of_getElem?`. Lines do not go down, since
tokens start one behind the other and line feeds are only added. The end of the text starts behind
all of them. -/
theorem tokenize_lines {text : String} (h : text.toList.count '\n' < 2 ^ 32 - 1) :
    (∀ k t, (tokenize text)[k]? = some t →
      let c := ((Cursor.ofString text).after k).scan.2
      Text.slice? text c.start c.current = some t.span ∧ c.startLine = t.line ∧
        t.line.toNat = 1 + Text.feedsBefore text c.start) ∧
    (tokenize text).Pairwise (fun t u => t.line ≤ u.line) ∧
    (∃ last, (tokenize text).getLast? = some last ∧ last.kind = .eof ∧
      last.line.toNat = 1 + text.toList.count '\n') ∧
    ∀ errors, checkTokens (tokenize text) = .error errors ↔
      errors ≠ [] ∧ Reports (tokenize text) errors := by
  refine ⟨fun k t hk => ?_, ?_, ?_, fun errors => checkTokens_eq_error_iff⟩
  · obtain ⟨before, hfollows⟩ := Cursor.exists_follows_after text k
    obtain rfl := Scanner.scan_after_of_getElem? hk
    exact ⟨hfollows.tile.span_eq, hfollows.startLine_eq, toNat_line_of_getElem? h hk⟩
  · rw [List.pairwise_iff_getElem]
    intro k l hk hl hlt
    -- lines are numbers here, which do not wrap around
    have hstart := Text.feedsBefore_mono text (Cursor.start_after_mono text hlt)
    rw [UInt32.le_iff_toNat_le, toNat_line_of_getElem? h (List.getElem?_eq_getElem hk),
      toNat_line_of_getElem? h (List.getElem?_eq_getElem hl)]
    omega
  · obtain ⟨last, hlast, htokens⟩ := (Scanner.ofString text).exists_tokens_eq
    have htokens : tokenize text = (tokenize text).dropLast ++ [last] := htokens
    have hmem : last ∈ tokenize text := by
      rw [htokens]
      simp
    refine ⟨last, ?_, hlast, toNat_line_of_eof h hmem hlast⟩
    rw [htokens, List.getLast?_concat]

/-- Line feeds in a string, behind a comment and in a string that is not closed, and characters of
several bytes before them. -/
theorem tokenize_lines_open_string :
    let text := "\"é\n\" // ü\n§\n\"x\n"
    text.toList.count '\n' < 2 ^ 32 - 1 ∧
    (tokenize text).map (fun t => t.line.toNat) = [1, 3, 4, 5] ∧
    Text.feedsBefore text ((Cursor.ofString text).after 1).scan.2.start = 2 ∧
    checkTokens (tokenize text) =
      .error [⟨3, .unexpectedCharacter⟩, ⟨4, .unterminatedString⟩] := by
  intro text
  have hfeeds : text.toList.count '\n' < 2 ^ 32 - 1 := by decide +kernel
  have htokens : tokenize text =
      [⟨.string, ['"', 'é', '\n', '"'], 1⟩, ⟨.error .unexpectedCharacter, ['§'], 3⟩,
        ⟨.error .unterminatedString, ['"', 'x', '\n'], 4⟩, ⟨.eof, [], 5⟩] := by decide +kernel
  obtain ⟨hlines, -, -, herrors⟩ := tokenize_lines hfeeds
  refine ⟨hfeeds, by rw [htokens]; decide, ?_, (herrors _).2 ⟨nofun, ?_⟩⟩
  · have hsecond := (hlines 1 _ (by rw [htokens]; rfl)).2.2
    exact Nat.add_left_cancel (n := 1) hsecond.symm
  · rw [htokens]
    exact .other nofun (.error (.error (.other nofun .nil)))

/-! ## Texts below each other -/

/-- **The tokens of two texts with a line feed between them** are those of the first one, but for
its end, and then those of the second one, further down by the lines of the first one. A string that
is not closed in the first text must be ruled out, since it would go on in the second one. No line
leaves the range of words.

**Proof sketch.** By `Scanner.tokens_extend` the scanner goes on behind the line feed as it begins
with the second text, but for its line, and by `Scanner.tokens_add_line` the line is only added. -/
theorem tokenize_append_feed {a b : String}
    (hfeeds : a.toList.count '\n' + b.toList.count '\n' < 2 ^ 32 - 2)
    (hclosed : ∀ t ∈ tokenize a, t.kind ≠ .error .unterminatedString) :
    let n := 1 + a.toList.count '\n'
    (∃ before last, tokenize a = before ++ [last] ∧ last.kind = .eof ∧
      tokenize (a ++ "\n" ++ b) = before ++ (tokenize b).map (Token.lower n)) ∧
    ∀ t ∈ tokenize b, (t.lower n).line.toNat = t.line.toNat + n := by
  intro n
  obtain ⟨last, hlast, htokens⟩ := (Scanner.ofString a).exists_tokens_eq
  have hn : 1 + lineFeeds a.toList = UInt32.ofNat n := (UInt32.ofNat_add 1 _).symm
  have hlower : ∀ t : Token, t.lower n = { t with line := t.line + (1 + lineFeeds a.toList) } := by
    intro t
    rw [hn, Token.lower, UInt32.ofNat_add, UInt32.ofNat_toNat]
  refine ⟨⟨_, last, htokens, hlast, ?_⟩, fun t ht => ?_⟩
  · -- lines are words here; that none of them wraps around is the second part
    have hbelow : (Scanner.ofString a).below b.toList =
        { Scanner.ofString b with
          line := (Scanner.ofString b).line + (1 + lineFeeds a.toList) } := by
      simp only [Scanner.below, Scanner.ofString, UInt32.add_comm]
    have htext : Scanner.ofString (a ++ "\n" ++ b) =
        (Scanner.ofString a).extend ('\n' :: b.toList) := by
      simp [Scanner.ofString, Scanner.extend]
    rw [Scanner.tokenize_eq_tokens, htext, Scanner.tokens_extend hclosed, hbelow,
      Scanner.tokens_add_line, funext hlower]
    rfl
  · have hle := toNat_line_le (by omega) ht
    have hsize : UInt32.size = 2 ^ 32 := rfl
    exact UInt32.toNat_ofNat_of_lt' (by omega)

/-- A quote in a comment, and a number that ends with its line: the point behind it does not reach
the digit on the next line. -/
theorem tokenize_append_feed_cut_number :
    let a := "\n1. // \""
    let b := "2\n\"x"
    (a.toList.count '\n' + b.toList.count '\n' < 2 ^ 32 - 2 ∧
      ∀ t ∈ tokenize a, t.kind ≠ .error .unterminatedString) ∧
    tokenize (a ++ "\n" ++ b) =
      [⟨.number, ['1'], 2⟩, ⟨.punctuation .dot, ['.'], 2⟩, ⟨.number, ['2'], 3⟩,
        ⟨.error .unterminatedString, ['"', 'x'], 4⟩, ⟨.eof, [], 4⟩] := by
  intro a b
  have hfeeds : a.toList.count '\n' + b.toList.count '\n' < 2 ^ 32 - 2 := by decide +kernel
  have ha : tokenize a =
      [⟨.number, ['1'], 2⟩, ⟨.punctuation .dot, ['.'], 2⟩] ++ [⟨.eof, [], 2⟩] := by
    decide +kernel
  have hb : tokenize b =
      [⟨.number, ['2'], 1⟩, ⟨.error .unterminatedString, ['"', 'x'], 2⟩, ⟨.eof, [], 2⟩] := by
    decide +kernel
  have hclosed : ∀ t ∈ tokenize a, t.kind ≠ .error .unterminatedString := by
    rw [ha]
    decide
  obtain ⟨⟨before, last, htokens, -, hboth⟩, -⟩ := tokenize_append_feed hfeeds hclosed
  refine ⟨⟨hfeeds, hclosed⟩, ?_⟩
  rw [ha] at htokens
  rw [hboth, hb, ← (List.append_inj' htokens rfl).1]
  decide

end ChunkMachine
