import ChunkMachine.Text.Split

set_option relaxedAutoImplicit false
set_option autoImplicit false

/-!
# Words between blanks

The words of a text are read in one pass. What is read can be told without the pass: the text is
made of the words, in their order, with blanks between any two of them and perhaps around them.

## Main definitions

* `Text.Spaced` — a text is made of words with blanks between them.

## Main results

* `Text.words_eq_iff` — the words that are read are those that the text is made of.
-/

namespace ChunkMachine.Text

/-- A text is made of words with blanks between them, and perhaps blanks before the first and behind
the last one. -/
inductive Spaced : List Char → List (List Char) → Prop where
  /-- Blanks only are a text without words. -/
  | blanks {blanks : List Char} (h : ∀ c ∈ blanks, isBlank c) : Spaced blanks []
  /-- A word stands behind blanks, and before a blank or the end of the text. -/
  | word {blanks word rest : List Char} {words : List (List Char)}
      (hblanks : ∀ c ∈ blanks, isBlank c) (hne : word ≠ []) (hword : ∀ c ∈ word, ¬ isBlank c)
      (hstop : ∀ c, rest.head? = some c → isBlank c) (hrest : Spaced rest words) :
      Spaced (blanks ++ word ++ rest) (word :: words)

/-- A blank in front changes nothing, be it before a word or before nothing. -/
theorem Spaced.cons_blank {cs : List Char} {ws : List (List Char)} (h : Spaced cs ws) {c : Char}
    (hc : isBlank c) : Spaced (c :: cs) ws := by
  cases h with
  | blanks h => exact .blanks (List.forall_mem_cons.2 ⟨hc, h⟩)
  | word hblanks hne hword hstop hrest =>
    exact .word (List.forall_mem_cons.2 ⟨hc, hblanks⟩) hne hword hstop hrest

/-- There need not be blanks before a word at the front, but there have to be behind it unless the
text ends there. -/
theorem Spaced.word_append {word rest : List Char} {ws : List (List Char)} (hrest : Spaced rest ws)
    (hne : word ≠ []) (hword : ∀ c ∈ word, ¬ isBlank c)
    (hstop : ∀ c, rest.head? = some c → isBlank c) : Spaced (word ++ rest) (word :: ws) := by
  show Spaced ([] ++ word ++ rest) (word :: ws)
  exact .word nofun hne hword hstop hrest

/-- What is read is what the text is made of, the start of a word included.

**Proof sketch.** Induction on the text. A blank ends the word that was started, if there is one. -/
theorem spaced_wordsFrom {current : List Char} (h : ∀ c ∈ current, ¬ isBlank c) (cs : List Char) :
    Spaced (current.reverse ++ cs) (wordsFrom current cs) := by
  induction cs generalizing current with
  | nil =>
    rw [wordsFrom]
    split
    · rename_i hnil
      subst hnil
      exact .blanks nofun
    · rename_i hne
      have hend : Spaced [] [] := .blanks nofun
      refine hend.word_append ?_ ?_ ?_
      · simpa using hne
      · simpa using h
      · simp
  | cons c rest ih =>
    unfold wordsFrom
    by_cases hc : isBlank c
    · have hrest : Spaced (c :: rest) (wordsFrom [] rest) := by
        have hnone : ∀ x ∈ ([] : List Char), ¬ isBlank x := nofun
        exact (ih hnone).cons_blank hc
      rw [if_pos hc]
      split
      · rename_i hnil
        subst hnil
        exact hrest
      · rename_i hne
        refine hrest.word_append ?_ ?_ ?_
        · simpa using hne
        · simpa using h
        · rintro x ⟨⟩
          exact hc
    · rw [if_neg hc]
      have hmore := ih (List.forall_mem_cons.2 ⟨hc, h⟩)
      rwa [List.reverse_cons, List.append_assoc, List.singleton_append] at hmore

/-- Blanks in front are passed without any word. -/
theorem words_blanks_append {blanks : List Char} (h : ∀ c ∈ blanks, isBlank c) (rest : List Char) :
    words (blanks ++ rest) = words rest := by
  induction blanks with
  | nil => rfl
  | cons c blanks ih =>
    obtain ⟨hc, hothers⟩ := List.forall_mem_cons.1 h
    rw [List.cons_append, ← ih hothers, words, wordsFrom, if_pos hc, if_pos rfl]
    rfl

/-- The characters of a word are gathered, behind those that were gathered before. -/
theorem wordsFrom_word_append {word : List Char} (h : ∀ c ∈ word, ¬ isBlank c)
    (current rest : List Char) :
    wordsFrom current (word ++ rest) = wordsFrom (word.reverse ++ current) rest := by
  induction word generalizing current with
  | nil => rfl
  | cons c word ih =>
    obtain ⟨hc, hothers⟩ := List.forall_mem_cons.1 h
    rw [List.cons_append, wordsFrom, if_neg hc, ih hothers]
    simp

/-- A word that ends, before a blank or with the text, is the first one. -/
theorem words_word_append {word rest : List Char} (hne : word ≠ [])
    (hword : ∀ c ∈ word, ¬ isBlank c) (hstop : ∀ c, rest.head? = some c → isBlank c) :
    words (word ++ rest) = word :: words rest := by
  rw [words, wordsFrom_word_append hword, List.append_nil]
  cases rest with
  | nil => simp [words, wordsFrom, hne]
  | cons c rest => simp [words, wordsFrom, hstop c rfl, hne]

/-- **The words that are read** are those that the text is made of, in their order. So a text is
made of words in one way only. -/
theorem words_eq_iff {cs : List Char} {ws : List (List Char)} : words cs = ws ↔ Spaced cs ws := by
  constructor
  · rintro rfl
    have hnone : ∀ c ∈ ([] : List Char), ¬ isBlank c := nofun
    exact spaced_wordsFrom hnone cs
  · intro h
    induction h with
    | @blanks blanks h => simpa [words, wordsFrom] using words_blanks_append h []
    | word hblanks hne hword hstop _ ih =>
      rw [List.append_assoc, words_blanks_append hblanks, words_word_append hne hword hstop, ih]

end ChunkMachine.Text
