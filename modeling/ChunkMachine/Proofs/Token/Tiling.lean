import ChunkMachine.Proofs.Token.Following

set_option relaxedAutoImplicit false
set_option autoImplicit false

/-!
# Tokens tile the text

The byte positions between which the scanner cuts its tokens go up through the text without a break:
every token starts behind the one before it, with only a gap between the two, and the last one, the
end of the text, is empty and stands at the end. All positions lie between characters, so that the
cuts are always possible, and no byte is left out or belongs to two pieces.

## Main definitions

* `Tile` — what one call of the scanner takes from a text.

## Main results

* `Cursor.Follows.tile` — every call takes a tile.
* `Cursor.scan_tiles` — the tiles cover the text.
-/

namespace ChunkMachine

/-- What one call takes from a text: from the position of the cursor `c` on a gap, and behind it the
token of the given kind, between the bytes `start` and `current` of the cursor `c'`. The token is
the token `t` of the scanner on characters. -/
structure Tile (text : String) (c : Cursor) (kind : TokenKind) (c' : Cursor) (t : Token)
    (gap rest : List Char) : Prop where
  /-- The token starts at the cursor or behind it. -/
  current_le_start : c.current ≤ c'.start
  /-- It does not end before it starts. -/
  start_le_current : c'.start ≤ c'.current
  /-- It ends within the text. -/
  current_le_size : c'.current ≤ text.utf8ByteSize
  /-- It starts between two characters. -/
  start_isValid : (⟨c'.start⟩ : String.Pos.Raw).IsValid text
  /-- It ends between two characters. -/
  current_isValid : (⟨c'.current⟩ : String.Pos.Raw).IsValid text
  /-- What comes before it can be cut out of the text. -/
  gap_eq : Text.slice? text c.current c'.start = some gap
  /-- So can what it covers. -/
  span_eq : Text.slice? text c'.start c'.current = some t.span
  /-- So can what comes behind it. -/
  rest_eq : Text.slice? text c'.current text.utf8ByteSize = some rest
  /-- What comes before it is a gap. -/
  isGap : Gap gap (t.span ++ rest)
  /-- It is of the kind that the other scanner gives. -/
  kind_eq : kind = t.kind
  /-- It stands on the same line. -/
  line_eq : c'.startLine = t.line
  /-- It shows the same. -/
  lexeme_eq : c'.lexeme? kind = some t.lexeme
  /-- It shows what it covers, unless it is an error. -/
  lexeme_of_ne_error : (∀ fault, kind ≠ .error fault) → t.lexeme = t.span
  /-- An error covers a character, or all that is left. -/
  span_of_error : ∀ fault, kind = .error fault →
    (∃ ch, t.span = [ch]) ∨ t.span.head? = some '"' ∧ c'.current = text.utf8ByteSize
  /-- It covers something, unless it is the end of the text. -/
  start_lt_of_ne_eof : kind ≠ .eof → c'.start < c'.current
  /-- The end of the text stands at the end. -/
  bounds_of_eof : kind = .eof → c'.start = text.utf8ByteSize ∧ c'.current = text.utf8ByteSize

namespace Cursor

/-- The byte `i` belongs to the call number `k`: it lies between the positions before and behind it.
Bytes of the gap belong to the call, too. -/
def Covers (text : String) (k i : Nat) : Prop :=
  ((ofString text).after k).current ≤ i ∧ i < ((ofString text).after (k + 1)).current

/-- **Every call takes a tile.**

**Proof sketch.** The text is what is behind, the gap, the token and the rest, and the positions of
the call are the sizes of the first parts. What the token covers is known from its being the first
token of the text behind the gap. -/
theorem Follows.tile {text : String} {before : List Char} {c : Cursor} {s : Scanner}
    (h : Follows text before c s) :
    Tile text c c.scan.1 c.scan.2 s.scan.1 (splitGap s.rest).1 s.scan.2.rest := by
  obtain ⟨hcurrent, hstart, hstop⟩ := h.bounds
  have htext := h.toList_eq
  have hkind : c.scan.1 = s.scan.1.kind := by rw [h.scan_eq]
  have hsize : text.utf8ByteSize = (Text.encode (before ++ (splitGap s.rest).1 ++ s.scan.1.span ++
      s.scan.2.rest)).length := by rw [← htext, Text.length_encode_toList]
  have hbehind : (splitGap s.rest).2 = s.scan.1.span ++ s.scan.2.rest := by
    have happend := s.gap_append_span_append_rest
    rw [List.append_assoc] at happend
    exact List.append_cancel_left ((splitGap_append s.rest).trans happend.symm)
  refine
    { current_le_start := ?_
      start_le_current := ?_
      current_le_size := ?_
      start_isValid := ?_
      current_isValid := ?_
      gap_eq := ?_
      span_eq := ?_
      rest_eq := ?_
      isGap := ?_
      kind_eq := hkind
      line_eq := h.startLine_eq
      lexeme_eq := h.lexeme?_eq
      lexeme_of_ne_error := fun hne => ?_
      span_of_error := fun fault hfault => ?_
      start_lt_of_ne_eof := fun hne => ?_
      bounds_of_eof := fun heof => ?_ }
  · rw [hcurrent, hstart]
    simp
  · rw [hstart, hstop]
    simp
  · rw [hstop, hsize]
    simp
  · exact Text.isValid_iff.2 ⟨_, s.scan.1.span ++ s.scan.2.rest,
      htext.trans (List.append_assoc _ _ _), hstart⟩
  · exact Text.isValid_iff.2 ⟨_, _, htext, hstop⟩
  · exact Text.slice?_eq_some_iff.2 ⟨before, s.scan.1.span ++ s.scan.2.rest,
      htext.trans (List.append_assoc _ _ _), hcurrent, hstart⟩
  · exact Text.slice?_eq_some_iff.2 ⟨_, _, htext, hstart, hstop⟩
  · exact Text.slice?_eq_some_iff.2 ⟨_, [], htext.trans (List.append_nil _).symm, hstop, hsize⟩
  · rw [← hbehind]
    exact gap_splitGap s.rest
  · rw [hkind] at hne
    unfold Token.lexeme
    split
    · rename_i fault hfault
      exact absurd hfault (hne fault)
    · rfl
  · rw [hkind] at hfault
    have hfirst := Scanner.firstToken_scan (s := s) (by rw [hfault]; nofun)
    rw [hfault] at hfirst
    rcases hfirst.of_error with ⟨-, ⟨body, -, hspan⟩, hrest⟩ | ⟨-, ch, hspan⟩
    · refine .inr ⟨by rw [hspan]; rfl, ?_⟩
      rw [hstop, hsize, hrest, List.append_nil]
    · exact .inl ⟨ch, hspan⟩
  · rw [hkind] at hne
    have hpos : (Text.encode s.scan.1.span).length ≠ 0 := fun hzero =>
      Scanner.span_scan_ne_nil hne (Text.eq_nil_of_length_encode hzero)
    rw [hstart, hstop, Text.encode_append _ s.scan.1.span, List.length_append]
    omega
  · rw [hkind] at heof
    obtain ⟨hspan, hrest⟩ := Scanner.rest_scan_of_eof heof
    rw [hstart, hstop, hsize, hspan, hrest]
    simp

/-- From call to call the cursor does not go back. At the end of the text it stays where it is. -/
theorem current_after_mono (text : String) {j k : Nat} (h : j ≤ k) :
    ((ofString text).after j).current ≤ ((ofString text).after k).current := by
  induction h with
  | refl => exact Nat.le_refl _
  | @step k _ ih =>
    obtain ⟨before, hfollows⟩ := exists_follows_after text k
    have htile := hfollows.tile
    exact Nat.le_trans ih (Nat.le_trans htile.current_le_start htile.start_le_current)

/-- A byte belongs to at most one call, since the calls take one piece of the text behind the
other. -/
theorem covers_unique {text : String} {j k i : Nat} (hj : Covers text j i) (hk : Covers text k i) :
    j = k := by
  rcases Nat.lt_trichotomy j k with hlt | heq | hlt
  · have hmono := current_after_mono text (j := j + 1) hlt
    exact absurd (Nat.lt_of_lt_of_le hj.2 (Nat.le_trans hmono hk.1)) (Nat.lt_irrefl i)
  · exact heq
  · have hmono := current_after_mono text (j := k + 1) hlt
    exact absurd (Nat.lt_of_lt_of_le hk.2 (Nat.le_trans hmono hj.1)) (Nat.lt_irrefl i)

/-- The bytes that have been passed belong to the calls that have been made. Each was passed in one
of them. -/
theorem exists_covers {text : String} {k i : Nat} (h : i < ((ofString text).after k).current) :
    ∃ j < k, Covers text j i := by
  induction k with
  | zero => exact absurd h (Nat.not_lt_zero i)
  | succ k ih =>
    by_cases hk : i < ((ofString text).after k).current
    · obtain ⟨j, hj, hcovers⟩ := ih hk
      exact ⟨j, Nat.lt_succ_of_lt hj, hcovers⟩
    · exact ⟨k, Nat.lt_succ_self k, Nat.le_of_not_lt hk, h⟩

/-- **Tokens tile the text.** There is a call, after at most as many as the text has bytes, from
which on the end of the text is handed out; every call takes a tile; and every byte of the text
belongs to just one call up to that one.

**Proof sketch.** Cursor and scanner go side by side, so the number of calls is that of the scanner
on characters, and every call takes a tile. The call that hands out the end of the text ends at the
end, so up to it all bytes have been passed. -/
theorem scan_tiles (text : String) :
    ∃ n ≤ text.utf8ByteSize,
      (∀ k, ((ofString text).after k).scan.1 = .eof ↔ n ≤ k) ∧
      (∀ k, ∃ gap rest, Tile text ((ofString text).after k) ((ofString text).after k).scan.1
        ((ofString text).after k).scan.2 ((Scanner.ofString text).after k).scan.1 gap rest) ∧
      ∀ i < text.utf8ByteSize, ∃ k ≤ n, Covers text k i ∧ ∀ j, Covers text j i → j = k := by
  obtain ⟨n, hn, hcalls⟩ := (Scanner.ofString text).exists_calls
  have htiles : ∀ k, ∃ gap rest, Tile text ((ofString text).after k)
      ((ofString text).after k).scan.1 ((ofString text).after k).scan.2
      ((Scanner.ofString text).after k).scan.1 gap rest := by
    intro k
    obtain ⟨before, hfollows⟩ := exists_follows_after text k
    exact ⟨_, _, hfollows.tile⟩
  have heof : ∀ k, ((ofString text).after k).scan.1 = .eof ↔ n ≤ k := by
    intro k
    obtain ⟨gap, rest, htile⟩ := htiles k
    rw [htile.kind_eq, hcalls]
  refine ⟨n, ?_, heof, htiles, fun i hi => ?_⟩
  · rwa [← Text.length_encode_toList]
  · obtain ⟨gap, rest, htile⟩ := htiles n
    have hend := (htile.bounds_of_eof ((heof n).2 (Nat.le_refl n))).2
    obtain ⟨k, hk, hcovers⟩ := exists_covers (k := n + 1) (hend ▸ hi)
    exact ⟨k, Nat.le_of_lt_succ hk, hcovers, fun j hj => covers_unique hj hcovers⟩

end Cursor

end ChunkMachine
