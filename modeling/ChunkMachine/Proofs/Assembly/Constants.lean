import ChunkMachine.Proofs.Assembly.Grammar
import ChunkMachine.Proofs.Listing.Rows
import ChunkMachine.Proofs.Numeric.Reading
import ChunkMachine.Proofs.Text.Lines

set_option relaxedAutoImplicit false
set_option autoImplicit false

/-!
# Constants that were shown are assembled again

The text of a value is one word, without a semicolon and on one line. Behind the name of the
instruction it is an operand, and the value of that operand is the one that was shown.

## Main results

* `Assembly.worded_constant` — the words of a line that names a shown value.
* `Assembly.assemble_constant_text` — such a line is assembled to a load of that very value.
-/

namespace ChunkMachine

/-- No letter or digit is a blank. Both classes are ranges of numbers, so that is arithmetic. -/
theorem Text.not_isBlank_of_isAlphanum {c : Char} (h : c.isAlphanum) : ¬ isBlank c := by
  have hrange : (65 ≤ c.toNat ∧ c.toNat ≤ 90) ∨ (97 ≤ c.toNat ∧ c.toNat ≤ 122) ∨
      (48 ≤ c.toNat ∧ c.toNat ≤ 57) := by
    -- capital letters, small letters and digits
    change ((decide (65 ≤ c.val ∧ c.val ≤ 90) || (decide (97 ≤ c.val) && decide (c.val ≤ 122))) ||
      (decide (48 ≤ c.val) && decide (c.val ≤ 57))) = true at h
    simp only [Bool.or_eq_true, Bool.and_eq_true, decide_eq_true_eq, UInt32.le_iff_toNat_le,
      or_assoc] at h
    exact h
  simp only [isBlank, Bool.or_eq_true, Bool.and_eq_true, decide_eq_true_eq, beq_iff_eq]
  omega

/-- So none of them ends a word, or begins a comment. -/
theorem Text.ne_and_not_isBlank_of_isAlphanum {c : Char} (h : c.isAlphanum) :
    c ≠ ';' ∧ ¬ isBlank c :=
  ⟨fun heq => absurd (heq ▸ h) (by decide), not_isBlank_of_isAlphanum h⟩

/-- A value is shown by one word that no comment ends: its text is made of letters, digits, a point
and a minus sign. -/
theorem Value.ne_and_not_isBlank {v : Value} {c : Char} (h : c ∈ v.chars) :
    c ≠ ';' ∧ ¬ Text.isBlank c := by
  rcases of_mem_chars h with hletter | rfl | rfl
  · exact Text.ne_and_not_isBlank_of_isAlphanum hletter
  · decide
  · decide

namespace Assembly

/-- A line that names a shown value has two words, the second of which is the text of the value.

**Proof sketch.** Both words are spaced as a grammar of blanks and words demands, by
`Text.Spaced.word_append`, and neither has a semicolon in it: one is of letters, and the other of
what values are shown by. -/
theorem worded_constant (v : Value) :
    Worded ("CONSTANT " ++ v.text).toList ["CONSTANT".toList, v.chars] := by
  have hblank : Text.isBlank ' ' := by decide
  have hname : ∀ c ∈ "CONSTANT".toList, c ≠ ';' ∧ ¬ Text.isBlank c := by
    have hletters : "CONSTANT".toList.all Char.isAlphanum := by decide
    exact fun c hc => Text.ne_and_not_isBlank_of_isAlphanum (List.all_eq_true.1 hletters c hc)
  have htext : ("CONSTANT " ++ v.text).toList = "CONSTANT".toList ++ ' ' :: v.chars := by
    simp [Value.text]
  have hoperand : Text.Spaced v.chars [v.chars] := by
    have hend : Text.Spaced [] [] := .blanks (List.forall_mem_nil _)
    have hword :=
      hend.word_append v.chars_ne_nil (fun c hc => (Value.ne_and_not_isBlank hc).2) (by simp)
    rwa [List.append_nil] at hword
  have hspaced :
      Text.Spaced ("CONSTANT".toList ++ ' ' :: v.chars) ["CONSTANT".toList, v.chars] := by
    refine (hoperand.cons_blank hblank).word_append (by decide) (fun c hc => (hname c hc).2) ?_
    rintro c ⟨⟩
    exact hblank
  rw [htext]
  refine ⟨_, [], (List.append_nil _).symm, ?_, by simp, hspaced⟩
  intro hmem
  rcases List.mem_append.1 hmem with hmem | hmem
  · exact (hname _ hmem).1 rfl
  · rcases List.mem_cons.1 hmem with hspace | hmem
    · exact absurd hspace (by decide)
    · exact (Value.ne_and_not_isBlank hmem).1 rfl

/-- **A value that was shown is assembled again**, bit by bit, unless it is not a number: the text
that loads it as it is shown becomes a chunk whose only constant it is.

**Proof sketch.** The text is one line of two words. The second one is a literal of the value, since
the decimal fraction that shows its magnitude was picked among those that are read as it. -/
theorem assemble_constant_text {v : Value} (h : v.isNaN = false) :
    assemble ("CONSTANT " ++ v.text) = .ok ⟨#[0, 0], #[1, 1], #[v]⟩ := by
  have hline : '\n' ∉ ("CONSTANT " ++ v.text).toList := by
    rw [String.toList_append, List.mem_append]
    rintro (hword | hvalue)
    · exact absurd hword (by decide)
    · exact v.not_mem_text hvalue
  have hreads : Reads ("CONSTANT " ++ v.text).toList (some (.load v)) :=
    .load (worded_constant v) (.inl (by decide)) (Value.read?_chars h)
  rw [assemble, Text.lines_of_not_mem hline, assembleLines, hreads.readLine_eq]
  rfl

/-- The negative value closest to zero is shown with three hundred and twenty-four places, and is
read back from them. -/
theorem assemble_constant_text_subnormal :
    let v : Value := ⟨0x8000000000000001⟩
    v.isNaN = false ∧ v.text = "-0." ++ String.ofList (List.replicate 323 '0') ++ "5" ∧
      assemble ("CONSTANT " ++ v.text) = .ok ⟨#[0, 0], #[1, 1], #[v]⟩ :=
  ⟨by decide, by decide +kernel, assemble_constant_text (by decide)⟩

end Assembly

end ChunkMachine
