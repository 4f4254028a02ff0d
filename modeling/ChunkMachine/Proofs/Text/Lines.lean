import ChunkMachine.Assembly
import ChunkMachine.Shell.Repl

set_option relaxedAutoImplicit false
set_option autoImplicit false

/-!
# Texts that arrive line by line

Bytes that arrive line by line are decoded line by line. Nothing is lost by that: a line feed is
neither the start nor a part of a longer character, so it completes whatever came before it, and no
character other than a line feed is read as one. The lines that were decoded are those of the whole
text.

## Main definitions

* `Utf8State.Sound` — the states of the decoder between and within characters.
* `Lined` — lines that each end with their only line feed, the last one perhaps with none.

## Main results

* `Text.decodeUtf8_append_feed`, `Text.not_mem_decodeUtf8` — line feeds stay what they are.
* `lined_byteLines` — the lines of bytes, one after the other, are the bytes.
* `Lined.decodeUtf8` — decoding line by line is decoding at once.
* `Lined.mem_lineWords_iff` — the words of the lines are those of the lines of the text.
-/

namespace ChunkMachine

/-! ## Decoding across line feeds -/

namespace Utf8State

/-- The state between characters, and states within a character of several bytes: the next byte is
no ASCII byte, and neither will be the character. -/
def Sound : Utf8State → Prop
  | boundary => True
  | inside missing low _ bits =>
    0x80 ≤ low.toNat ∧ 2 ≤ bits * 64 + (low.toNat - 0x80) ∧ (missing = 1 → 2 ≤ bits)

/-- A character is a line feed only by its code. Codes that are no characters are read as another
one. -/
theorem ofNat_ne_feed {n : Nat} (h : n ≠ 10) : Char.ofNat n ≠ '\n' := by
  intro heq
  by_cases hvalid : n.isValidChar
  · have hn : Char.ofNat n = Char.ofNatAux n hvalid := dif_pos hvalid
    exact h (congrArg Char.toNat (hn.symm.trans heq))
  · have hzero : Char.ofNat n = '\x00' := dif_neg hvalid
    exact absurd (hzero.symm.trans heq) (by decide)

/-- What starts a character is followed by what may be within it, and only a line feed is one.

**Proof sketch.** By the range of the byte. The bounds for the next byte leave out the codes that
fewer bytes are enough for, which would be those of ASCII characters. -/
theorem sound_start (byte : UInt8) :
    (start byte).2.Sound ∧ ('\n' ∈ (start byte).1 → byte = 10) := by
  have h10 : byte.toNat = 10 → byte = 10 := fun h => UInt8.toNat_inj.1 h
  unfold start
  simp only
  generalize byte.toNat = n at h10 ⊢
  split
  · refine ⟨trivial, fun hmem => h10 (Decidable.byContradiction fun hn => ?_)⟩
    exact ofNat_ne_feed hn (List.mem_singleton.1 hmem).symm
  · split
    · exact ⟨trivial, fun hmem => absurd (List.mem_singleton.1 hmem) (by decide)⟩
    · split
      · refine ⟨⟨by decide, ?_, fun _ => ?_⟩, nofun⟩
        · omega
        · omega
      · split
        · refine ⟨⟨?_, ?_, nofun⟩, nofun⟩
          · split <;> decide
          · split
            · exact Nat.le_add_left_of_le (by decide)
            · omega
        · split
          · refine ⟨⟨?_, ?_, nofun⟩, nofun⟩
            · split <;> decide
            · split
              · exact Nat.le_add_left_of_le (by decide)
              · omega
          · exact ⟨trivial, fun hmem => absurd (List.mem_singleton.1 hmem) (by decide)⟩

variable {s : Utf8State}

/-- A sound state is followed by sound states, and only a line feed is read as one. With this the
invariant holds along all bytes.

**Proof sketch.** A byte within the bounds adds to the code, which stays above that of a line feed,
and any other byte starts a character after the replacement. -/
theorem Sound.feed (h : s.Sound) (byte : UInt8) :
    (s.feed byte).2.Sound ∧ ('\n' ∈ (s.feed byte).1 → byte = 10) := by
  cases s with
  | boundary => exact sound_start byte
  | inside missing low high bits =>
    obtain ⟨hlow, hbits, hlast⟩ := h
    unfold Utf8State.feed
    simp only
    split
    · rename_i hbounds
      have hle : low.toNat ≤ byte.toNat := UInt8.le_iff_toNat_le.1 hbounds.1
      split
      · rename_i hone
        have hmany := hlast hone
        refine ⟨trivial, fun hmem => absurd (List.mem_singleton.1 hmem).symm ?_⟩
        exact ofNat_ne_feed (by omega)
      · refine ⟨⟨by decide, ?_, fun _ => ?_⟩, nofun⟩
        · show 2 ≤ _ * 64 + (128 - 128)
          omega
        · omega
    · obtain ⟨hsound, hfeed⟩ := sound_start byte
      refine ⟨hsound, fun hmem => ?_⟩
      rcases List.mem_cons.1 hmem with hreplaced | hmem
      · exact absurd hreplaced (by decide)
      · exact hfeed hmem

/-- A line feed ends whatever was started, and is read as itself. What was started is replaced. -/
theorem Sound.feed_lineFeed (h : s.Sound) : s.feed 10 = (s.finish ++ ['\n'], boundary) := by
  cases s with
  | boundary => rfl
  | inside missing low high bits =>
    have hbounds : ¬ (low ≤ 10 ∧ (10 : UInt8) ≤ high) := by
      rintro ⟨hle, -⟩
      have hle' : low.toNat ≤ 10 := UInt8.le_iff_toNat_le.1 hle
      obtain ⟨hlow, -⟩ := h
      omega
    unfold Utf8State.feed
    simp only [if_neg hbounds]
    rfl

/-- A byte that completes nothing leaves a character that is not complete, so that something is
still to be read. -/
theorem feed_ne_boundary {byte : UInt8} (h : (s.feed byte).1 = []) :
    (s.feed byte).2 ≠ boundary := by
  have hstart : (start byte).1 = [] → (start byte).2 ≠ boundary := by
    unfold start
    simp only
    repeat' split
    all_goals simp
  cases s with
  | boundary => exact hstart h
  | inside missing low high bits =>
    unfold Utf8State.feed at h ⊢
    simp only at h ⊢
    split at h
    · split at h
      · contradiction
      · simp [*]
    · contradiction

end Utf8State

namespace Text

open Utf8State

/-- What has been read already only comes before the rest, and has no part in reading it. -/
theorem decodeUtf8From_eq (s : Utf8State) (chars : List Char) (bytes : List UInt8) :
    decodeUtf8From s chars bytes = chars.reverse ++ decodeUtf8From s [] bytes := by
  induction bytes generalizing s chars with
  | nil => cases s <;> simp [decodeUtf8From, finish]
  | cons byte rest ih =>
    unfold decodeUtf8From
    simp only
    rw [ih _ (_ ++ chars), ih _ (_ ++ [])]
    simp

/-- A byte completes some characters, and the rest follows. There may be none, one or two of
them. -/
theorem decodeUtf8From_cons (s : Utf8State) (byte : UInt8) (rest : List UInt8) :
    decodeUtf8From s [] (byte :: rest) =
      (s.feed byte).1 ++ decodeUtf8From (s.feed byte).2 [] rest := by
  rw [decodeUtf8From]
  simp only
  rw [decodeUtf8From_eq]
  simp

/-- Bytes before a line feed and bytes behind it are decoded apart. -/
theorem decodeUtf8From_append_feed {s : Utf8State} (h : s.Sound) (line rest : List UInt8) :
    decodeUtf8From s [] (line ++ 10 :: rest) =
      decodeUtf8From s [] line ++ '\n' :: decodeUtf8 rest := by
  induction line generalizing s with
  | nil =>
    rw [List.nil_append, decodeUtf8From_cons, h.feed_lineFeed]
    cases s <;> rfl
  | cons byte line ih =>
    rw [List.cons_append, decodeUtf8From_cons, decodeUtf8From_cons, ih (h.feed byte).1,
      List.append_assoc]

/-- Where no line feed is, none is read, whatever was started before. -/
theorem not_mem_decodeUtf8From {s : Utf8State} (h : s.Sound) {line : List UInt8}
    (hline : 10 ∉ line) : '\n' ∉ decodeUtf8From s [] line := by
  induction line generalizing s with
  | nil => cases s <;> simp [decodeUtf8From, finish, replacement]
  | cons byte line ih =>
    rw [List.mem_cons, not_or] at hline
    rw [decodeUtf8From_cons, List.mem_append, not_or]
    exact ⟨fun hmem => hline.1 ((h.feed byte).2 hmem).symm, ih (h.feed byte).1 hline.2⟩

/-- Something is read of what was started or is still to come, if only the character that stands for
errors. -/
theorem decodeUtf8From_ne_nil {s : Utf8State} {bytes : List UInt8}
    (h : s = .boundary → bytes ≠ []) : decodeUtf8From s [] bytes ≠ [] := by
  induction bytes generalizing s with
  | nil => cases s <;> simp_all [decodeUtf8From, finish]
  | cons byte rest ih =>
    rw [decodeUtf8From_cons]
    by_cases hnew : (s.feed byte).1 = []
    · exact List.append_ne_nil_of_right_ne_nil _
        (ih fun hboundary => absurd hboundary (feed_ne_boundary hnew))
    · exact List.append_ne_nil_of_left_ne_nil hnew _

/-- **Bytes before a line feed and bytes behind it are decoded apart.** -/
theorem decodeUtf8_append_feed (line rest : List UInt8) :
    decodeUtf8 (line ++ 10 :: rest) = decodeUtf8 line ++ '\n' :: decodeUtf8 rest :=
  decodeUtf8From_append_feed (s := .boundary) trivial line rest

/-- **No other bytes are read as a line feed.** So the lines of bytes are the lines of their
text. -/
theorem not_mem_decodeUtf8 {line : List UInt8} (h : 10 ∉ line) : '\n' ∉ decodeUtf8 line :=
  not_mem_decodeUtf8From (s := .boundary) trivial h

end Text

/-! ## Lines -/

/-- Lines each of which ends with its only line feed. The last one may do without it if there is
anything else on it. -/
inductive Lined {α : Type} (feed : α) : List (List α) → Prop where
  /-- No text has no lines. -/
  | nil : Lined feed []
  /-- The last line may do without a line feed. -/
  | last {line : List α} (hline : feed ∉ line) (hne : line ≠ []) : Lined feed [line]
  /-- A line with its line feed stands before other lines. -/
  | cons {body : List α} {rest : List (List α)} (hbody : feed ∉ body) (hrest : Lined feed rest) :
      Lined feed ((body ++ [feed]) :: rest)

namespace Lined

variable {α : Type} {feed : α} {ls ls' : List (List α)}

/-- The lines at the end are lines on their own. -/
theorem of_append_right (h : Lined feed (ls ++ ls')) : Lined feed ls' := by
  induction ls with
  | nil => exact h
  | cons line ls ih =>
    cases hls : ls ++ ls' with
    | nil =>
      rw [(List.append_eq_nil_iff.1 hls).2]
      exact .nil
    | cons next rest =>
      rw [List.cons_append, hls] at h
      cases h with
      | cons hbody hrest => exact ih (hls ▸ hrest)

/-- The lines at the front are lines, too. The last of them has its line feed if there are any
behind it. -/
theorem of_append_left (h : Lined feed (ls ++ ls')) : Lined feed ls := by
  induction ls with
  | nil => exact .nil
  | cons line ls ih =>
    rw [List.cons_append] at h
    generalize hmore : ls ++ ls' = more at h
    cases h with
    | last hline hne =>
      rw [(List.append_eq_nil_iff.1 hmore).1]
      exact .last hline hne
    | cons hbody hrest => exact .cons hbody (ih (hmore ▸ hrest))

end Lined

/-! ### Lines of bytes -/

/-- What was gathered before belongs to the line that the next line feed ends. -/
theorem byteLinesFrom_append {line : List UInt8} (h : 10 ∉ line) (current rest : List UInt8) :
    byteLinesFrom current (line ++ 10 :: rest) =
      (current.reverse ++ line ++ [10]) :: byteLines rest := by
  induction line generalizing current with
  | nil => simp [byteLinesFrom, byteLines]
  | cons byte line ih =>
    rw [List.mem_cons, not_or] at h
    rw [List.cons_append, byteLinesFrom, if_neg fun heq => h.1 heq.symm, ih h.2]
    simp

/-- Bytes without a line feed belong to the line that was begun, and it is the last one. -/
theorem byteLinesFrom_of_not_mem {line : List UInt8} (h : 10 ∉ line) (current : List UInt8) :
    byteLinesFrom current line =
      if current.reverse ++ line = [] then [] else [current.reverse ++ line] := by
  induction line generalizing current with
  | nil => simp [byteLinesFrom]
  | cons byte line ih =>
    rw [List.mem_cons, not_or] at h
    rw [byteLinesFrom, if_neg fun heq => h.1 heq.symm, ih h.2]
    simp

/-- A line ends with the first line feed, and keeps it. -/
theorem byteLines_append {line : List UInt8} (h : 10 ∉ line) (rest : List UInt8) :
    byteLines (line ++ 10 :: rest) = (line ++ [10]) :: byteLines rest :=
  byteLinesFrom_append h [] rest

/-- Bytes without a line feed are a line of their own, if there are any. -/
theorem byteLines_of_not_mem {line : List UInt8} (h : 10 ∉ line) :
    byteLines line = if line = [] then [] else [line] :=
  byteLinesFrom_of_not_mem h []

/-- **The lines of bytes are lines, and one after the other they are the bytes.**

**Proof sketch.** Induction on the number of bytes, which the first line makes less. -/
theorem lined_byteLines (bytes : List UInt8) :
    Lined 10 (byteLines bytes) ∧ (byteLines bytes).flatten = bytes := by
  induction hn : bytes.length using Nat.strongRecOn generalizing bytes with
  | ind n ih =>
    by_cases hfeed : 10 ∈ bytes
    · obtain ⟨line, rest, rfl, hline⟩ := List.eq_append_cons_of_mem hfeed
      have hlt : rest.length < n := by
        rw [← hn, List.length_append, List.length_cons]
        omega
      obtain ⟨hlined, hflatten⟩ := ih _ hlt rest rfl
      rw [byteLines_append hline]
      refine ⟨.cons hline hlined, ?_⟩
      rw [List.flatten_cons, hflatten, List.append_assoc, List.singleton_append]
    · rw [byteLines_of_not_mem hfeed]
      split
      · rename_i hnil
        exact ⟨.nil, hnil.symm⟩
      · rename_i hne
        exact ⟨.last hfeed hne, List.append_nil bytes⟩

/-- **Decoding line by line is decoding at once**, and gives lines. -/
theorem Lined.decodeUtf8 {ls : List (List UInt8)} (h : Lined 10 ls) :
    Lined '\n' (ls.map Text.decodeUtf8) ∧
      (ls.map Text.decodeUtf8).flatten = Text.decodeUtf8 ls.flatten := by
  induction h with
  | nil => exact ⟨.nil, rfl⟩
  | @last line hline hne =>
    refine ⟨.last (Text.not_mem_decodeUtf8 hline) (Text.decodeUtf8From_ne_nil fun _ => hne), ?_⟩
    simp
  | @cons body rest hbody hrest ih =>
    have hline : Text.decodeUtf8 (body ++ [10]) = Text.decodeUtf8 body ++ ['\n'] :=
      Text.decodeUtf8_append_feed body []
    rw [List.map_cons, hline]
    refine ⟨.cons (Text.not_mem_decodeUtf8 hbody) ih.1, ?_⟩
    rw [List.flatten_cons, List.flatten_cons, ih.2, List.append_assoc, List.singleton_append,
      List.append_assoc, List.singleton_append, Text.decodeUtf8_append_feed]

/-! ### Lines of a text -/

namespace Text

/-- The pieces that are finished only come before the others. -/
theorem splitOnFrom_eq (separator : Char) (finished : List (List Char)) (current cs : List Char) :
    splitOnFrom separator finished current cs =
      finished.reverse ++ splitOnFrom separator [] current cs := by
  induction cs generalizing finished current with
  | nil => simp [splitOnFrom]
  | cons c rest ih =>
    unfold splitOnFrom
    split
    · rw [ih, ih [current.reverse]]
      simp
    · exact ih finished (c :: current)

/-- What was gathered before belongs to the piece that the next separator ends. -/
theorem splitOnFrom_append {separator : Char} {piece : List Char} (h : separator ∉ piece)
    (current rest : List Char) :
    splitOnFrom separator [] current (piece ++ separator :: rest) =
      (current.reverse ++ piece) :: splitOn separator rest := by
  induction piece generalizing current with
  | nil => simp [splitOnFrom, splitOnFrom_eq separator [current.reverse], splitOn]
  | cons c piece ih =>
    rw [List.mem_cons, not_or] at h
    rw [List.cons_append, splitOnFrom, if_neg fun heq => h.1 heq.symm, ih h.2]
    simp

/-- What has no separator belongs to the piece that was begun, and it is the last one. -/
theorem splitOnFrom_of_not_mem {separator : Char} {piece : List Char} (h : separator ∉ piece)
    (current : List Char) :
    splitOnFrom separator [] current piece = [current.reverse ++ piece] := by
  induction piece generalizing current with
  | nil => simp [splitOnFrom]
  | cons c piece ih =>
    rw [List.mem_cons, not_or] at h
    rw [splitOnFrom, if_neg fun heq => h.1 heq.symm, ih h.2]
    simp

/-- The first line of a text ends with its first line feed, which is left out. -/
theorem lines_append {line : List Char} (h : '\n' ∉ line) (rest : List Char) :
    lines (line ++ '\n' :: rest) = line :: lines rest :=
  splitOnFrom_append h [] rest

/-- A text without a line feed is its only line, even if it is empty. -/
theorem lines_of_not_mem {line : List Char} (h : '\n' ∉ line) : lines line = [line] :=
  splitOnFrom_of_not_mem h []

/-- A blank ends the word that was begun, and behind it words are read as at the start. -/
theorem wordsFrom_append_blank {blank : Char} (h : isBlank blank) (current cs rest : List Char) :
    wordsFrom current (cs ++ blank :: rest) = wordsFrom current cs ++ words rest := by
  induction cs generalizing current with
  | nil =>
    simp only [List.nil_append, wordsFrom, if_pos h]
    split <;> rfl
  | cons c cs ih =>
    rw [List.cons_append, wordsFrom, wordsFrom, ih, ih]
    split
    · split <;> rfl
    · rfl

/-- Words on the two sides of a blank have nothing to do with each other, so texts may be cut
there. -/
theorem words_append_blank {blank : Char} (h : isBlank blank) (cs rest : List Char) :
    words (cs ++ blank :: rest) = words cs ++ words rest :=
  wordsFrom_append_blank h [] cs rest

end Text

/-- The line feed behind a line is no part of a word, whether it is in the comment or not.

**Proof sketch.** Behind a semicolon the line feed is part of the comment. Without one it is a blank
behind the last word. -/
theorem Assembly.lineWords_append_feed (line : List Char) :
    lineWords (line ++ ['\n']) = lineWords line := by
  unfold lineWords withoutComment
  by_cases hcomment : ';' ∈ line
  · obtain ⟨code, comment, rfl, hcode⟩ := List.eq_append_cons_of_mem hcomment
    have hall : ∀ c ∈ code, decide (c ≠ ';') = true := by
      intro c hc
      simpa using fun heq : c = ';' => hcode (heq ▸ hc)
    rw [List.append_assoc, List.cons_append, List.takeWhile_append_of_pos hall,
      List.takeWhile_append_of_pos hall]
    rfl
  · have hall : ∀ c ∈ line, decide (c ≠ ';') = true := by
      intro c hc
      simpa using fun heq : c = ';' => hcomment (heq ▸ hc)
    have hpass (suffix : List Char) : (line ++ suffix).takeWhile (· ≠ ';') =
        line ++ suffix.takeWhile (· ≠ ';') := List.takeWhile_append_of_pos hall
    have hwhole : line.takeWhile (· ≠ ';') = line := by simpa using hpass []
    have hfeed : ['\n'].takeWhile (· ≠ ';') = '\n' :: [] := by decide
    rw [hpass, hwhole, hfeed, Text.words_append_blank (by decide)]
    exact List.append_nil _

/-- **The words of lines are those of the lines of their text**, but for lines without words.

**Proof sketch.** Induction on the lines. A line of the text lacks the line feed, which is a blank,
and a text that ends with a line feed has one more line, without words. -/
theorem Lined.mem_lineWords_iff {ls : List (List Char)} (h : Lined '\n' ls)
    {words : List (List Char)} (hne : words ≠ []) :
    (∃ line ∈ Text.lines ls.flatten, Assembly.lineWords line = words) ↔
      ∃ line ∈ ls, Assembly.lineWords line = words := by
  induction h with
  | nil =>
    have hempty : Text.lines ([] : List (List Char)).flatten = [[]] := rfl
    rw [hempty]
    constructor
    · rintro ⟨line, hline, rfl⟩
      exact absurd (List.mem_singleton.1 hline ▸ rfl) hne
    · rintro ⟨line, hline, -⟩
      contradiction
  | @last line hline _ => rw [List.flatten_singleton, Text.lines_of_not_mem hline]
  | @cons body rest hbody hrest ih =>
    rw [List.flatten_cons, List.append_assoc, List.singleton_append, Text.lines_append hbody]
    simp only [List.mem_cons, exists_eq_or_imp, ih, Assembly.lineWords_append_feed]

end ChunkMachine
