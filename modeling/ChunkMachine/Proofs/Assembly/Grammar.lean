import ChunkMachine.Assembly
import ChunkMachine.Proofs.Machine.Instruction
import ChunkMachine.Proofs.Text.Run
import ChunkMachine.Proofs.Text.Words

set_option relaxedAutoImplicit false
set_option autoImplicit false

/-!
# The grammar of assembly lines

A line of assembly is blank, or a word that names an instruction, or the name of the constant load
and a number, each with a comment behind it or without. Everything else is wrong in one of five
ways, and of several ways in which a line may be wrong the first one counts: too many words, then a
name that is none, then an operand that is missing, no number, or too much.

## Main definitions

* `Assembly.Names` — a word names an opcode.
* `Assembly.Worded` — the words of a line before its comment.
* `Assembly.Reads`, `Assembly.Wrong` — what a line says, and what is wrong with it.

## Main results

* `Assembly.ofMnemonic?_eq_some_iff` — the names of opcodes.
* `Assembly.lineWords_eq_iff` — the words of a line.
* `Assembly.readLine_eq_ok_iff`, `Assembly.readLine_eq_error_iff` — lines are read by the grammar.
-/

namespace ChunkMachine.Assembly

/-- A word names an opcode: with its ASCII letters in capitals it is the bare name of the opcode, or
the marker with that name behind it. -/
def Names (word : List Char) (op : Opcode) : Prop :=
  word.map Char.toUpper = op.bareName.toList ∨
    word.map Char.toUpper = "OP_".toList ++ op.bareName.toList

/-- The part of a line before its first semicolon is made of some words. What follows the semicolon
is a comment, whatever it holds. -/
def Worded (line : List Char) (words : List (List Char)) : Prop :=
  ∃ code comment, line = code ++ comment ∧ ';' ∉ code ∧
    (∀ c, comment.head? = some c → c = ';') ∧ Text.Spaced code words

/-- What a line says: nothing, an instruction without operand, or the load of a number. The cases
exclude each other, as the words of a line and the names of opcodes are unique. -/
inductive Reads (line : List Char) : Option Instruction → Prop where
  /-- There are no words. -/
  | blank (hwords : Worded line []) : Reads line none
  /-- There is one word, the name of an instruction that has no operand. -/
  | plain {word : List Char} {i : Instruction} (hwords : Worded line [word])
      (hname : Names word i.opcode) (hplain : i.opcode ≠ .constant) : Reads line (some i)
  /-- There are two words, the name of a load and a number. -/
  | load {word number : List Char} {v : Value} (hwords : Worded line [word, number])
      (hname : Names word .constant) (hnumber : Literal.read? number = some v) :
      Reads line (some (.load v))

/-- What is wrong with a line. Of several things the first one in this order is told. -/
inductive Wrong (line : List Char) : Fault → Prop where
  /-- There are three words or more. -/
  | extra {first second third : List Char} {more : List (List Char)}
      (hwords : Worded line (first :: second :: third :: more)) :
      Wrong line (.unexpectedToken third)
  /-- The first word names nothing. -/
  | unknown {word : List Char} {operands : List (List Char)}
      (hwords : Worded line (word :: operands))
      (hfew : operands.length ≤ 1) (hname : ∀ op, ¬ Names word op) :
      Wrong line (.unknownInstruction word)
  /-- A load has no number. -/
  | missing {word : List Char} (hwords : Worded line [word]) (hname : Names word .constant) :
      Wrong line .missingNumber
  /-- What follows a load is no number. -/
  | invalid {word number : List Char} (hwords : Worded line [word, number])
      (hname : Names word .constant) (hnumber : Literal.read? number = none) :
      Wrong line (.invalidNumber number)
  /-- What follows an instruction without operand is one. -/
  | operand {word operand : List Char} {op : Opcode} (hwords : Worded line [word, operand])
      (hname : Names word op) (hplain : op ≠ .constant) : Wrong line (.unexpectedOperand op operand)

/-! ## Names -/

/-- Different opcodes have different names, so a word names one opcode at most. -/
theorem bareName_injective {a b : Opcode} (h : a.bareName = b.bareName) : a = b := by
  rcases a with _ | ⟨_ | _ | _ | _⟩ | _ | _ <;> rcases b with _ | ⟨_ | _ | _ | _⟩ | _ | _ <;>
    first | rfl | exact absurd h (by decide)

/-- The marker is taken away if it is there, and no name begins with it. So a name that is found
behind a marker is not found again without it. -/
theorem stripMarker_eq_iff {word : List Char} {op : Opcode} :
    Opcode.stripMarker word = op.bareName.toList ↔
      word = op.bareName.toList ∨ word = "OP_".toList ++ op.bareName.toList := by
  constructor
  · unfold Opcode.stripMarker
    split
    · intro h
      exact .inr (congrArg ("OP_".toList ++ ·) h)
    · exact .inl
  · rintro (rfl | rfl)
    · rcases op with _ | ⟨_ | _ | _ | _⟩ | _ | _ <;> decide
    · rfl

/-- **The names of opcodes** are found in any case, with and without the marker.

**Proof sketch.** The opcode is looked for by its bare name among all opcodes, and no two have the
same. -/
theorem ofMnemonic?_eq_some_iff {word : List Char} {op : Opcode} :
    Opcode.ofMnemonic? word = some op ↔ Names word op := by
  unfold Opcode.ofMnemonic? Names
  rw [← stripMarker_eq_iff]
  constructor
  · intro h
    have hfound := List.find?_some h
    simpa using (of_decide_eq_true hfound).symm
  · intro h
    cases hfind : Opcode.all.find? fun op' =>
        op'.bareName.toList = Opcode.stripMarker (word.map Char.toUpper) with
    | none =>
      have hnone := List.find?_eq_none.1 hfind op op.mem_all
      simp [h] at hnone
    | some op' =>
      have hfound := List.find?_some hfind
      have hname := of_decide_eq_true hfound
      rw [bareName_injective (String.toList_inj.1 (hname.trans h))]

/-- What is not found among the names of opcodes is the name of none. -/
theorem ofMnemonic?_eq_none_iff {word : List Char} :
    Opcode.ofMnemonic? word = none ↔ ∀ op, ¬ Names word op := by
  rw [Option.eq_none_iff_forall_ne_some]
  simp only [ne_eq, ofMnemonic?_eq_some_iff]

/-! ## Lines -/

/-- **The words of a line** are those before its first semicolon. The line is cut there by a
function and described by a relation, which agree.

**Proof sketch.** The code of a line is the longest run without a semicolon. It is followed by a
semicolon or by nothing, and the relation cuts the line in the same place. -/
theorem lineWords_eq_iff {line : List Char} {words : List (List Char)} :
    lineWords line = words ↔ Worded line words := by
  rw [lineWords, Text.words_eq_iff, withoutComment]
  constructor
  · intro h
    refine ⟨_, _, List.takeWhile_append_dropWhile.symm, ?_, ?_, h⟩
    · intro hmem
      simpa using Run.of_mem_takeWhile hmem
    · intro c hc
      simpa using Run.not_of_head?_dropWhile hc
  · rintro ⟨code, comment, rfl, hcode, hcomment, hwords⟩
    have htake : (code ++ comment).takeWhile (· ≠ ';') = code := by
      apply Run.takeWhile_append_stop
      · intro c hc
        simpa using fun h : c = ';' => hcode (h ▸ hc)
      · intro c hc
        simp [hcomment c hc]
    rwa [htake]

/-- A line that says something is read so. Together with the next lemma this is one half of both
equivalences below. -/
theorem Reads.readLine_eq {line : List Char} {i : Option Instruction} (h : Reads line i) :
    readLine line = .ok i := by
  unfold readLine
  cases h with
  | blank hwords => rw [lineWords_eq_iff.2 hwords]
  | @plain word i hwords hname hplain =>
    rw [lineWords_eq_iff.2 hwords]
    simp only [readInstruction, ofMnemonic?_eq_some_iff.2 hname]
    cases i with
    | load v => exact absurd rfl hplain
    | binary op => rfl
    | negate => rfl
    | ret => rfl
  | load hwords hname hnumber =>
    rw [lineWords_eq_iff.2 hwords]
    simp only [readInstruction, ofMnemonic?_eq_some_iff.2 hname, hnumber]
    rfl

/-- A line that is wrong is refused for that.

**Proof sketch.** By the ways in which a line can be wrong, each of which is a case of the
reader. -/
theorem Wrong.readLine_eq {line : List Char} {f : Fault} (h : Wrong line f) :
    readLine line = .error f := by
  unfold readLine
  cases h with
  | extra hwords => rw [lineWords_eq_iff.2 hwords]
  | @unknown word operands hwords hfew hname =>
    have hnone := ofMnemonic?_eq_none_iff.2 hname
    rw [lineWords_eq_iff.2 hwords]
    match operands, hfew with
    | [], _ =>
      simp only [readInstruction, hnone]
      rfl
    | [_], _ =>
      simp only [readInstruction, hnone]
      rfl
  | missing hwords hname =>
    rw [lineWords_eq_iff.2 hwords]
    simp only [readInstruction, ofMnemonic?_eq_some_iff.2 hname]
    rfl
  | invalid hwords hname hnumber =>
    rw [lineWords_eq_iff.2 hwords]
    simp only [readInstruction, ofMnemonic?_eq_some_iff.2 hname, hnumber]
    rfl
  | @operand word operand op hwords hname hplain =>
    rw [lineWords_eq_iff.2 hwords]
    simp only [readInstruction, ofMnemonic?_eq_some_iff.2 hname]
    cases op with
    | constant => exact absurd rfl hplain
    | binary op => rfl
    | negate => rfl
    | ret => rfl

/-- Every line says something or is wrong.

**Proof sketch.** The cases are the number of words, then whether the first one is a name and of
what, then whether the second one is a number. -/
theorem reads_or_wrong (line : List Char) : (∃ i, Reads line i) ∨ ∃ f, Wrong line f := by
  have hname {word : List Char} (operands : List (List Char))
      (hwords : Worded line (word :: operands))
      (hfew : operands.length ≤ 1) : (∃ op, Names word op) ∨ ∃ f, Wrong line f := by
    cases hop : Opcode.ofMnemonic? word with
    | none => exact .inr ⟨_, .unknown hwords hfew (ofMnemonic?_eq_none_iff.1 hop)⟩
    | some op => exact .inl ⟨op, ofMnemonic?_eq_some_iff.1 hop⟩
  cases hline : lineWords line with
  | nil => exact .inl ⟨none, .blank (lineWords_eq_iff.1 hline)⟩
  | cons word operands =>
    have hwords := lineWords_eq_iff.1 hline
    match operands, hwords with
    | [], hwords =>
      rcases hname [] hwords (Nat.zero_le 1) with ⟨op, hop⟩ | hwrong
      · cases op with
        | constant => exact .inr ⟨_, .missing hwords hop⟩
        | binary op => exact .inl ⟨some (.binary op), .plain hwords hop nofun⟩
        | negate => exact .inl ⟨some .negate, .plain hwords hop nofun⟩
        | ret => exact .inl ⟨some .ret, .plain hwords hop nofun⟩
      · exact .inr hwrong
    | [operand], hwords =>
      rcases hname [operand] hwords (Nat.le_refl 1) with ⟨op, hop⟩ | hwrong
      · by_cases hconstant : op = .constant
        · subst hconstant
          cases hnumber : Literal.read? operand with
          | none => exact .inr ⟨_, .invalid hwords hop hnumber⟩
          | some v => exact .inl ⟨_, .load hwords hop hnumber⟩
        · exact .inr ⟨_, .operand hwords hop hconstant⟩
      · exact .inr hwrong
    | _ :: _ :: _, hwords => exact .inr ⟨_, .extra hwords⟩

/-- **Lines are read by the grammar.** One direction is `Reads.readLine_eq`. In the other one the
line says something or is wrong, and what it says is what was read. -/
theorem readLine_eq_ok_iff {line : List Char} {i : Option Instruction} :
    readLine line = .ok i ↔ Reads line i := by
  refine ⟨fun h => ?_, Reads.readLine_eq⟩
  rcases reads_or_wrong line with ⟨j, hj⟩ | ⟨f, hf⟩
  · rw [hj.readLine_eq] at h
    cases h
    exact hj
  · rw [hf.readLine_eq] at h
    contradiction

/-- **Lines are refused by the grammar.** As there, every line says something or is wrong. -/
theorem readLine_eq_error_iff {line : List Char} {f : Fault} :
    readLine line = .error f ↔ Wrong line f := by
  refine ⟨fun h => ?_, Wrong.readLine_eq⟩
  rcases reads_or_wrong line with ⟨i, hi⟩ | ⟨g, hg⟩
  · rw [hi.readLine_eq] at h
    contradiction
  · rw [hg.readLine_eq] at h
    cases h
    exact hg

end ChunkMachine.Assembly
