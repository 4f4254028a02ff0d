import ChunkMachine.Proofs.Text.Run
import ChunkMachine.Token.Scanner

set_option relaxedAutoImplicit false
set_option autoImplicit false

/-!
# Gaps between tokens

What may stand before a token: blanks, and comments that run up to the next line feed or to the end
of the text. The scanner splits off all of it, and what it splits off is the only longest gap.

## Main definitions

* `Gap` — a text that is a gap where another text follows it.
* `LongestGap` — a gap that no longer one replaces.

## Main results

* `gap_splitGap` — the scanner splits off a gap.
* `Gap.length_le` — no gap is longer than that.
* `longestGap_iff` — what the scanner splits off is the longest gap.
-/

namespace ChunkMachine

/-- A text is a gap before the text `rest`: it is made of blanks, and of comments that end where a
line feed comes next or nothing at all. -/
inductive Gap : (gap rest : List Char) → Prop where
  /-- Nothing is a gap. -/
  | nil {rest : List Char} : Gap [] rest
  /-- A blank stands before a gap. -/
  | blank {c : Char} {gap rest : List Char} (hc : c = ' ' ∨ c = '\r' ∨ c = '\t' ∨ c = '\n')
      (h : Gap gap rest) : Gap (c :: gap) rest
  /-- A comment stands before a gap, and ends where its line does. -/
  | comment {body gap rest : List Char} (hbody : '\n' ∉ body)
      (hend : (gap ++ rest).head? = some '\n' ∨ gap ++ rest = []) (h : Gap gap rest) :
      Gap ('/' :: '/' :: (body ++ gap)) rest

/-- A gap before `rest` that is at least as long as every other gap that the text starts with. -/
structure LongestGap (gap rest : List Char) : Prop where
  /-- It is a gap. -/
  isGap : Gap gap rest
  /-- No other gap in front of the same text is longer. -/
  length_le : ∀ gap' rest', gap' ++ rest' = gap ++ rest → Gap gap' rest' → gap'.length ≤ gap.length

/-- A text that starts with a blank or with a comment. A single slash starts neither. -/
def StartsGap : List Char → Prop
  | [] => False
  | c :: cs => isGapChar c ∨ c = '/' ∧ cs.head? = some '/'

/-- Blanks are the four of the grammar, the line feed being one of them. -/
theorem isGapChar_iff {c : Char} :
    isGapChar c ↔ c = ' ' ∨ c = '\r' ∨ c = '\t' ∨ c = '\n' := by
  simp [isGapChar, or_assoc]

/-! ## How a gap is split off -/

/-- What has been split off already only comes before the rest of the gap, in a comment or
outside. -/
theorem splitGapFrom_eq (inComment : Bool) (gap cs : List Char) :
    splitGapFrom inComment gap cs =
      (gap.reverse ++ (splitGapFrom inComment [] cs).1, (splitGapFrom inComment [] cs).2) := by
  induction cs generalizing inComment gap with
  | nil => simp [splitGapFrom]
  | cons c rest ih =>
    unfold splitGapFrom
    split
    · rw [ih _ (c :: gap), ih _ [c]]
      simp
    · split
      · rw [ih _ (c :: gap), ih _ [c]]
        simp
      · split
        · rw [ih _ (c :: gap), ih _ [c]]
          simp
        · simp

/-- A blank belongs to the gap, and behind it the gap goes on. -/
theorem splitGap_blank {c : Char} (hc : isGapChar c) (cs : List Char) :
    splitGap (c :: cs) = (c :: (splitGap cs).1, (splitGap cs).2) := by
  rw [splitGap, splitGapFrom, if_neg (by simp), if_pos hc, splitGapFrom_eq]
  rfl

/-- A run of blanks belongs to the gap. The cursor passes it at once. -/
theorem splitGap_blanks (cs : List Char) :
    splitGap cs = (cs.takeWhile isGapChar ++ (splitGap (cs.dropWhile isGapChar)).1,
      (splitGap (cs.dropWhile isGapChar)).2) := by
  induction cs with
  | nil => rfl
  | cons c cs ih =>
    by_cases hc : isGapChar c
    · rw [splitGap_blank hc, ih, List.takeWhile_cons, if_pos hc, List.dropWhile_cons, if_pos hc]
      rfl
    · rw [List.takeWhile_cons, if_neg hc, List.dropWhile_cons, if_neg hc]
      rfl

/-- In a comment everything belongs to the gap up to the next line feed.

**Proof sketch.** Induction on the text. A line feed is a blank, so behind it the gap goes on as it
does outside of comments. -/
theorem splitGapFrom_comment (cs : List Char) :
    splitGapFrom true [] cs =
      (cs.takeWhile (· ≠ '\n') ++ (splitGap (cs.dropWhile (· ≠ '\n'))).1,
        (splitGap (cs.dropWhile (· ≠ '\n'))).2) := by
  induction cs with
  | nil => rfl
  | cons c rest ih =>
    rw [splitGapFrom, if_pos rfl, splitGapFrom_eq]
    by_cases hc : c = '\n'
    · subst hc
      have hblank := splitGap_blank (c := '\n') rfl rest
      simp only [splitGap] at hblank ⊢
      simp [hblank]
    · simp [hc, ih]

/-- A comment belongs to the gap, but for its line feed, which is a blank like any other. -/
theorem splitGap_comment (cs : List Char) :
    splitGap ('/' :: '/' :: cs) =
      ('/' :: '/' :: (cs.takeWhile (· ≠ '\n') ++ (splitGap (cs.dropWhile (· ≠ '\n'))).1),
        (splitGap (cs.dropWhile (· ≠ '\n'))).2) := by
  rw [splitGap, splitGapFrom, if_neg (by simp), if_neg (by decide), if_pos ⟨rfl, rfl⟩,
    splitGapFrom, if_pos rfl, splitGapFrom_eq]
  simp [splitGapFrom_comment]

/-- Where neither a blank nor a comment starts there is no gap, and all of the text is left. -/
theorem splitGap_of_not_startsGap {cs : List Char} (h : ¬ StartsGap cs) :
    splitGap cs = ([], cs) := by
  cases cs with
  | nil => rfl
  | cons c rest =>
    simp only [StartsGap, not_or] at h
    rw [splitGap, splitGapFrom, if_neg (by simp), if_neg h.1, if_neg h.2]
    rfl

/-- A text starts with a blank, with a comment, or with neither. These are the cases of all that
follows. -/
theorem startsGap_cases (cs : List Char) :
    (∃ c rest, cs = c :: rest ∧ isGapChar c) ∨ (∃ rest, cs = '/' :: '/' :: rest) ∨
      ¬ StartsGap cs := by
  cases cs with
  | nil => exact .inr (.inr id)
  | cons c rest =>
    by_cases hc : isGapChar c
    · exact .inl ⟨c, rest, rfl, hc⟩
    · by_cases hslash : c = '/' ∧ rest.head? = some '/'
      · obtain ⟨rfl, hhead⟩ := hslash
        obtain ⟨rest', rfl⟩ := List.head?_eq_some_iff.1 hhead
        exact .inr (.inl ⟨rest', rfl⟩)
      · exact .inr (.inr (not_or.2 ⟨hc, hslash⟩))

/-! ## Longest gaps -/

/-- **The scanner splits off a gap.**

**Proof sketch.** Induction on the length of the text, with the three cases of `startsGap_cases`. -/
theorem gap_splitGap (cs : List Char) : Gap (splitGap cs).1 (splitGap cs).2 := by
  induction hn : cs.length using Nat.strongRecOn generalizing cs with
  | ind n ih =>
    rcases startsGap_cases cs with ⟨c, rest, rfl, hc⟩ | ⟨rest, rfl⟩ | hstop
    · rw [splitGap_blank hc]
      exact .blank (isGapChar_iff.1 hc) (ih rest.length (by simp at hn; omega) rest rfl)
    · have hlength := Run.length_dropWhile_le (· ≠ '\n') rest
      rw [splitGap_comment]
      refine .comment ?_ ?_ (ih _ (by simp at hn; omega) _ rfl)
      · intro hmem
        simpa using Run.of_mem_takeWhile hmem
      · rw [splitGap_append]
        cases hdrop : rest.dropWhile (· ≠ '\n') with
        | nil => exact .inr rfl
        | cons c cs =>
          have hstop : ¬ (c ≠ '\n') := by
            simpa using Run.not_of_head?_dropWhile (congrArg List.head? hdrop)
          exact .inl (by rw [Decidable.not_not.1 hstop]; rfl)
    · rw [splitGap_of_not_startsGap hstop]
      exact .nil

/-- **No gap is longer** than what the scanner splits off.

**Proof sketch.** Induction on the gap. A comment of a gap is a whole comment, so the scanner passes
it exactly and is then where the gap goes on. -/
theorem Gap.length_le {gap rest : List Char} (h : Gap gap rest) :
    gap.length ≤ (splitGap (gap ++ rest)).1.length := by
  induction h with
  | nil => exact Nat.zero_le _
  | @blank c gap rest hc _ ih =>
    rw [List.cons_append, splitGap_blank (isGapChar_iff.2 hc)]
    exact Nat.succ_le_succ ih
  | @comment body gap rest hbody hend _ ih =>
    have hall : ∀ c ∈ body, decide (c ≠ '\n') = true := fun c hc =>
      decide_eq_true (ne_of_mem_of_not_mem hc hbody)
    have hstop : ∀ c, (gap ++ rest).head? = some c → ¬ decide (c ≠ '\n') = true := by
      intro c hc
      rcases hend with hfeed | hnil
      · rw [hfeed] at hc
        cases hc
        simp
      · rw [hnil] at hc
        contradiction
    rw [List.cons_append, List.cons_append, List.append_assoc, splitGap_comment,
      Run.takeWhile_append_stop hall hstop, Run.dropWhile_append_stop hall hstop]
    simp only [List.length_cons, List.length_append]
    omega

/-- What the scanner splits off is the longest gap, and nothing else is. So there is one longest gap
of a text. -/
theorem longestGap_iff {gap rest : List Char} :
    LongestGap gap rest ↔ splitGap (gap ++ rest) = (gap, rest) := by
  constructor
  · rintro ⟨hgap, hmax⟩
    have hle := hmax _ _ (splitGap_append (gap ++ rest)) (gap_splitGap (gap ++ rest))
    have hlength := Nat.le_antisymm hle hgap.length_le
    obtain ⟨h1, h2⟩ := List.append_inj (splitGap_append (gap ++ rest)) hlength
    exact Prod.ext h1 h2
  · intro h
    have hgap := gap_splitGap (gap ++ rest)
    rw [h] at hgap
    refine ⟨hgap, fun gap' rest' heq hgap' => ?_⟩
    have hle := hgap'.length_le
    rwa [heq, h] at hle

end ChunkMachine
