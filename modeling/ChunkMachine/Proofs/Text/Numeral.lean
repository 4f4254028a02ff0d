import ChunkMachine.Proofs.Text.Run
import ChunkMachine.Text.Column

set_option relaxedAutoImplicit false
set_option autoImplicit false

/-!
# Numbers in texts

A text that tells a number ends it with something that is no digit, or with its own end. So the
number can be read out of the text again, with what comes behind it.

## Main results

* `Text.toDigits_append_inj` — texts that begin with numbers are the same only if the numbers are.
* `Text.number_append_inj` — so it is with numbers in columns.
-/

namespace ChunkMachine.Text

/-- The digits of a number tell it, since it can be read back from them. -/
theorem toDigits_inj {m n : Nat} (h : Nat.toDigits 10 m = Nat.toDigits 10 n) : m = n := by
  rw [← Nat.ofDigitChars_ten_toDigits (n := m), h, Nat.ofDigitChars_ten_toDigits]

/-- Numbers are written with digits and nothing else. -/
theorem isDigit_of_mem_toDigits {n : Nat} {c : Char} (h : c ∈ Nat.toDigits 10 n) : c.isDigit :=
  Nat.isDigit_of_mem_toDigits (by decide) (by decide) h

/-- Numbers with zeros in front of them are written with digits, too. -/
theorem isDigit_of_mem_leftpad {width n : Nat} {c : Char}
    (h : c ∈ (Nat.toDigits 10 n).leftpad width '0') : c.isDigit := by
  rcases List.mem_append.1 h with hzero | hdigit
  · rw [List.eq_of_mem_replicate hzero]
    rfl
  · exact isDigit_of_mem_toDigits hdigit

/-- **Texts that begin with numbers** are the same only if the numbers are, and what comes behind
them, unless that goes on with a digit. -/
theorem toDigits_append_inj {m n : Nat} {rest rest' : List Char}
    (hrest : ∀ c, rest.head? = some c → ¬ c.isDigit)
    (hrest' : ∀ c, rest'.head? = some c → ¬ c.isDigit)
    (h : Nat.toDigits 10 m ++ rest = Nat.toDigits 10 n ++ rest') : m = n ∧ rest = rest' := by
  obtain ⟨hdigits, hothers⟩ := Run.append_stop_inj (fun _ => isDigit_of_mem_toDigits)
    (fun _ => isDigit_of_mem_toDigits) hrest hrest' h
  exact ⟨toDigits_inj hdigits, hothers⟩

/-- A space ends a number, as it is no digit. Columns are set apart in this way. -/
theorem not_isDigit_of_head?_space {rest : List Char} :
    ∀ c, (' ' :: rest).head? = some c → ¬ c.isDigit := by
  rintro c ⟨⟩
  decide

/-! ## Columns -/

/-- A number in a column is padded before its digits. One that is wider than its column is not
cut. -/
theorem toList_number (width : Nat) (fill : Char) (n : Nat) :
    (number width fill n).toList =
      List.replicate (width - (Nat.toDigits 10 n).length) fill ++ Nat.toDigits 10 n := by
  simp [number, padLeft, List.leftpad]

/-- A number begins with a digit, whatever comes behind it. -/
theorem isDigit_of_head?_toDigits {n : Nat} {rest : List Char} {c : Char}
    (h : (Nat.toDigits 10 n ++ rest).head? = some c) : c.isDigit := by
  obtain ⟨d, ds, hdigits⟩ := List.exists_cons_of_ne_nil (Nat.toDigits_ne_nil (n := n) (b := 10))
  rw [hdigits] at h
  cases h
  exact isDigit_of_mem_toDigits (hdigits ▸ List.mem_cons_self)

/-- What comes behind some spaces is told by the whole, unless it goes on with a space. -/
theorem spaces_append_inj {j k : Nat} {rest rest' : List Char}
    (hrest : rest.head? ≠ some ' ') (hrest' : rest'.head? ≠ some ' ')
    (h : List.replicate j ' ' ++ rest = List.replicate k ' ' ++ rest') : rest = rest' := by
  have hspaces : ∀ n, ∀ c ∈ List.replicate n ' ', (c == ' ') = true := by
    intro n c hc
    simp [List.eq_of_mem_replicate hc]
  have hstop : ∀ {cs : List Char}, cs.head? ≠ some ' ' →
      ∀ c, cs.head? = some c → ¬ (c == ' ') = true := by
    intro cs hcs c hc heq
    rw [hc, eq_of_beq heq] at hcs
    exact hcs rfl
  exact (Run.append_stop_inj (hspaces j) (hspaces k) (hstop hrest) (hstop hrest') h).2

/-- No number begins with a space, so that the padding of a column is told from its number. -/
theorem head?_toDigits_append_ne (n : Nat) (rest : List Char) :
    (Nat.toDigits 10 n ++ rest).head? ≠ some ' ' := by
  intro h
  have hdigit := isDigit_of_head?_toDigits h
  contradiction

/-- **Texts that begin with columns** are the same only if the numbers in the columns are, and what
comes behind them, unless that goes on with a digit. -/
theorem number_append_inj {width m n : Nat} {rest rest' : List Char}
    (hrest : ∀ c, rest.head? = some c → ¬ c.isDigit)
    (hrest' : ∀ c, rest'.head? = some c → ¬ c.isDigit)
    (h : (number width ' ' m).toList ++ rest = (number width ' ' n).toList ++ rest') :
    m = n ∧ rest = rest' := by
  rw [toList_number, toList_number, List.append_assoc, List.append_assoc] at h
  have hdigits := spaces_append_inj (head?_toDigits_append_ne m rest)
    (head?_toDigits_append_ne n rest') h
  exact toDigits_append_inj hrest hrest' hdigits

/-- A column with a number in it is not one with something else behind its spaces. The mark for the
same line is told from a line in this way. -/
theorem number_append_ne {width n k : Nat} {c : Char} {rest rest' : List Char}
    (hc : ¬ c.isDigit) (hspace : c ≠ ' ') :
    (number width ' ' n).toList ++ rest ≠ List.replicate k ' ' ++ c :: rest' := by
  intro h
  rw [toList_number, List.append_assoc] at h
  have hdigits := spaces_append_inj (head?_toDigits_append_ne n rest) (by simpa using hspace) h
  exact hc (isDigit_of_head?_toDigits (congrArg List.head? hdigits))

end ChunkMachine.Text
