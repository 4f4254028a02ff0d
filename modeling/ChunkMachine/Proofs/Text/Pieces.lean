import ChunkMachine.Proofs.Text.Lines

set_option relaxedAutoImplicit false
set_option autoImplicit false

/-!
# Pieces of texts

A text is cut at a separator into pieces, none of which holds the separator. Two texts with a
separator between them have the pieces of both, so pieces that were joined are cut apart again.

## Main results

* `Text.splitOn_append_separator` — the pieces of two texts with a separator between them.
* `Text.not_mem_of_mem_splitOn` — no piece holds the separator.
* `Text.splitOn_intercalate` — the pieces of a text that was joined.
-/

namespace ChunkMachine.Text

variable {separator : Char} {cs piece : List Char}

/-- The pieces of two texts with a separator between them, behind what was read of the first. The
last piece of the one and the first piece of the other do not run together. -/
theorem splitOnFrom_append_separator (separator : Char) (current before after : List Char) :
    splitOnFrom separator [] current (before ++ separator :: after) =
      splitOnFrom separator [] current before ++ splitOn separator after := by
  induction before generalizing current with
  | nil =>
    rw [splitOnFrom_append List.not_mem_nil, splitOnFrom_of_not_mem List.not_mem_nil]
    rfl
  | cons c before ih =>
    rw [List.cons_append, splitOnFrom, splitOnFrom]
    split
    · rw [splitOnFrom_eq, ih, splitOnFrom_eq separator [current.reverse], List.append_assoc]
    · exact ih _

/-- **The pieces of two texts with a separator between them** are those of the one and those of the
other. -/
theorem splitOn_append_separator (separator : Char) (before after : List Char) :
    splitOn separator (before ++ separator :: after) =
      splitOn separator before ++ splitOn separator after :=
  splitOnFrom_append_separator separator [] before after

/-- A text without a separator is one piece, the empty text included. -/
theorem splitOn_of_not_mem (h : separator ∉ cs) : splitOn separator cs = [cs] :=
  splitOnFrom_of_not_mem h []

/-- There is always a piece, as the empty text is one. -/
theorem splitOn_ne_nil (separator : Char) (cs : List Char) : splitOn separator cs ≠ [] := by
  by_cases h : separator ∈ cs
  · obtain ⟨before, after, rfl, hbefore⟩ := List.eq_append_cons_of_mem h
    rw [splitOn_append_separator, splitOn_of_not_mem hbefore]
    exact List.cons_ne_nil _ _
  · rw [splitOn_of_not_mem h]
    exact List.cons_ne_nil _ _

/-- **No piece holds the separator**, so that a piece cannot be cut again.

**Proof sketch.** Induction on the text, for every piece that is being read and holds no separator
so far. -/
theorem not_mem_of_mem_splitOn (h : piece ∈ splitOn separator cs) : separator ∉ piece := by
  -- the piece that is being read holds none either
  suffices hfrom : ∀ current : List Char, separator ∉ current →
      piece ∈ splitOnFrom separator [] current cs → separator ∉ piece from
    hfrom [] List.not_mem_nil h
  clear h
  induction cs with
  | nil =>
    intro current hcurrent h
    rw [List.mem_singleton.1 h, List.mem_reverse]
    exact hcurrent
  | cons c rest ih =>
    intro current hcurrent h
    rw [splitOnFrom] at h
    split at h
    · rw [splitOnFrom_eq] at h
      rcases List.mem_append.1 h with h | h
      · rw [List.mem_singleton.1 (List.mem_reverse.1 h), List.mem_reverse]
        exact hcurrent
      · exact ih [] List.not_mem_nil h
    · rename_i hc
      exact ih (c :: current) (List.not_mem_cons_of_ne_of_not_mem (Ne.symm hc) hcurrent) h

/-- **Pieces that were joined** are cut apart again, if there is one at least and none holds the
separator. -/
theorem splitOn_intercalate {pieces : List (List Char)} (hne : pieces ≠ [])
    (h : ∀ piece ∈ pieces, separator ∉ piece) :
    splitOn separator (List.intercalate [separator] pieces) = pieces := by
  induction pieces with
  | nil => contradiction
  | cons piece rest ih =>
    obtain ⟨hpiece, hrest⟩ := List.forall_mem_cons.1 h
    cases rest with
    | nil => rw [List.intercalate_singleton, splitOn_of_not_mem hpiece]
    | cons next rest =>
      rw [List.intercalate_cons_cons, List.append_assoc, List.singleton_append,
        splitOn_append_separator, splitOn_of_not_mem hpiece, ih (List.cons_ne_nil _ _) hrest]
      rfl

end ChunkMachine.Text
