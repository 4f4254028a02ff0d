import ChunkMachine.Listing
import ChunkMachine.Proofs.Assembly.Grammar
import ChunkMachine.Proofs.Text.Numeral

set_option relaxedAutoImplicit false
set_option autoImplicit false

/-!
# What rows of a listing show

A row shows the offset of an instruction, its line or a bar, and the instruction itself. Its columns
have no fixed width: an offset or a line of more than four digits takes as much room as it needs.
All the same a row can be read again, since each column ends with a space and no two instructions
are shown alike.

## Main definitions

* `Listing.Sight` — what is shown of an instruction, with `Listing.sightAt` and `Sight.text`.
* `Listing.Entry` — what is shown in a row, with `Listing.entryAt` and `Entry.row`.

## Main results

* `Value.of_mem_chars` — the characters by which values are shown.
* `Listing.toList_rowAt` — a row is the row of its entry.
* `Listing.Sight.eq_of_text` — no two sights are shown alike.
* `Listing.Entry.row_append_inj` — rows can be read again, one after another.
-/

namespace ChunkMachine

/-! ## Characters of values -/

/-- A decimal fraction is written with digits and a point. There is no exponent and no sign in
it. -/
theorem Decimal.of_mem_text {d : Decimal} {c : Char} (h : c ∈ d.text) : c.isDigit ∨ c = '.' := by
  unfold text at h
  split at h
  · exact .inl (Text.isDigit_of_mem_leftpad h)
  · rcases List.mem_append.1 h with h | h
    · exact .inl (Text.isDigit_of_mem_leftpad (List.mem_of_mem_take h))
    · rcases List.mem_cons.1 h with rfl | h
      · exact .inr rfl
      · exact .inl (Text.isDigit_of_mem_leftpad (List.mem_of_mem_drop h))

/-- **Values are shown by letters, digits, points and minus signs.** Letters are those of infinity
and NaN. The text of a value is therefore told apart from what stands around it.

**Proof sketch.** By the way a value is shown: as a word, as a word or a decimal fraction, and with
a minus sign in front or without. -/
theorem Value.of_mem_chars {v : Value} {c : Char} (h : c ∈ v.chars) :
    c.isAlphanum ∨ c = '.' ∨ c = '-' := by
  have hword : ∀ {word : String}, word.toList.all Char.isAlphanum → c ∈ word.toList →
      c.isAlphanum := fun hall hc => List.all_eq_true.1 hall c hc
  have hmagnitude : ∀ {b}, c ∈ magnitudeText b → c.isAlphanum ∨ c = '.' ∨ c = '-' := by
    intro b hc
    unfold magnitudeText at hc
    split at hc
    · exact .inl (hword (by decide) hc)
    · rcases Decimal.of_mem_text hc with hdigit | hpoint
      · exact .inl (by simp [Char.isAlphanum, hdigit])
      · exact .inr (.inl hpoint)
  unfold chars at h
  split at h
  · exact .inl (hword (by decide) h)
  · split at h
    · rcases List.mem_cons.1 h with hsign | h
      · exact .inr (.inr hsign)
      · exact hmagnitude h
    · exact hmagnitude h

/-- So is their text, which is the same characters as a string. -/
theorem Value.of_mem_text {v : Value} {c : Char} (h : c ∈ v.text.toList) :
    c.isAlphanum ∨ c = '.' ∨ c = '-' := by
  rw [text, String.toList_ofList] at h
  exact of_mem_chars h

/-- A value is shown on one line, whatever it is. -/
theorem Value.not_mem_text (v : Value) : '\n' ∉ v.text.toList := fun h =>
  absurd (of_mem_text h) (by decide)

namespace Listing

/-! ## Sights -/

/-- What a listing shows of an instruction. -/
inductive Sight where
  /-- The code is over. -/
  | ended
  /-- A byte that is no opcode. -/
  | unknown (byte : UInt8)
  /-- A constant load without its operand. -/
  | cutOff
  /-- A constant load, with its index and the text of the value that it loads, if there is one. -/
  | load (index : UInt8) (value : Option String)
  /-- An instruction without operand. -/
  | plain (op : Opcode)
  deriving DecidableEq, Repr

namespace Sight

/-- How a sight is shown. This is the text of an instruction in a row, with the columns written
out. -/
def text : Sight → String
  | ended => "<end of code>"
  | unknown byte => "Unknown opcode: " ++ toString byte.toNat
  | cutOff => "OP_CONSTANT      <truncated>"
  | load index value =>
    "OP_CONSTANT      " ++ Text.number 4 ' ' index.toNat ++ " '" ++ value.getD "<invalid>" ++ "'"
  | plain op => op.mnemonic

/-- The end of the code is shown by words in brackets. -/
@[simp]
theorem text_ended : ended.text = "<end of code>" := rfl

/-- A byte that is no opcode is shown as a number. -/
@[simp]
theorem text_unknown (byte : UInt8) :
    (unknown byte).text = "Unknown opcode: " ++ toString byte.toNat := rfl

/-- A load without its operand is shown by its mnemonic and a word in brackets. -/
@[simp]
theorem text_cutOff : cutOff.text = "OP_CONSTANT      <truncated>" := rfl

/-- A load is shown by its mnemonic, its index in a column, and the text of its value between
quotes. -/
@[simp]
theorem text_load (index : UInt8) (value : Option String) :
    (load index value).text = "OP_CONSTANT      " ++ Text.number 4 ' ' index.toNat ++ " '" ++
      value.getD "<invalid>" ++ "'" := rfl

/-- Any other instruction is shown by its mnemonic alone, without a space behind it. -/
@[simp]
theorem text_plain (op : Opcode) : (plain op).text = op.mnemonic := rfl

/-- The bytes of the code that a sight stands for. From a sight they can be read off, but for the
end of the code, which has none. -/
def bytes : Sight → List UInt8
  | ended => []
  | unknown byte => [byte]
  | cutOff => [Opcode.constant.toByte]
  | load index _ => [Opcode.constant.toByte, index]
  | plain op => [op.toByte]

/-- The text of a value is on one line, and is not the one that stands for a missing value. Without
this two sights could be shown alike, or one over two rows. -/
def Legible : Sight → Prop
  | load _ (some value) => '\n' ∉ value.toList ∧ value ≠ "<invalid>"
  | _ => True

end Sight

/-- What a listing shows of the instruction at an offset. The cases are those of the listing
itself. -/
def sightAt (c : Chunk) (offset : Nat) : Sight :=
  match c.code[offset]? with
  | none => .ended
  | some byte =>
    match Opcode.ofByte? byte with
    | none => .unknown byte
    | some .constant =>
      match c.code[offset + 1]? with
      | none => .cutOff
      | some index => .load index (c.constants[index.toNat]?.map Value.text)
    | some op => .plain op

/-- The column of the constant load, with the space behind it. It is written out once, here. -/
theorem padRight_constant :
    Text.padRight 16 Opcode.constant.mnemonic ++ " " = "OP_CONSTANT      " := by
  decide +kernel

/-- A constant load is shown with the text of its value, or with the word for a missing one. -/
theorem loadText_eq (c : Chunk) (index : UInt8) :
    loadText c index = (Sight.load index (c.constants[index.toNat]?.map Value.text)).text := by
  have htext : loadText c index = Text.padRight 16 Opcode.constant.mnemonic ++ " " ++
      Text.number 4 ' ' index.toNat ++ " '" ++
        (c.constants[index.toNat]?.map Value.text).getD "<invalid>" ++ "'" := by
    unfold loadText
    cases c.constants[index.toNat]? with
    | none => rfl
    | some v => rfl
  simp only [htext, padRight_constant, Sight.text_load]

/-- What is shown of an instruction is its sight. With this the listing as a function and the sights
as data agree.

**Proof sketch.** By the byte at the offset and, for a load, the one behind it. The two functions
make the same cases. -/
theorem instructionAt_fst (c : Chunk) (offset : Nat) :
    (instructionAt c offset).1 = (sightAt c offset).text := by
  unfold instructionAt sightAt
  cases c.code[offset]? with
  | none => rfl
  | some byte =>
    cases hop : Opcode.ofByte? byte with
    | none => simp only [hop]; rfl
    | some op =>
      cases op with
      | constant =>
        simp only [hop]
        cases c.code[offset + 1]? with
        | none =>
          show Text.padRight 16 Opcode.constant.mnemonic ++ " <truncated>" = Sight.cutOff.text
          decide +kernel
        | some index => exact loadText_eq c index
      | binary op => simp only [hop]; rfl
      | negate => simp only [hop]; rfl
      | ret => simp only [hop]; rfl

/-- What is shown of a chunk is legible: a value is shown without line feeds and without
brackets.

**Proof sketch.** A value is shown without brackets, so that its text is not the word for a constant
that is missing. -/
theorem legible_sightAt (c : Chunk) (offset : Nat) : (sightAt c offset).Legible := by
  have hvalue (v : Value) : v.text ≠ "<invalid>" := by
    intro h
    have hmem : '<' ∈ v.text.toList := by
      rw [h]
      decide
    exact absurd (Value.of_mem_text hmem) (by decide)
  unfold sightAt
  split
  · trivial
  · split
    · trivial
    · split
      · trivial
      · rename_i index _
        cases c.constants[index.toNat]? with
        | none => trivial
        | some v => exact ⟨v.not_mem_text, hvalue v⟩
    · trivial

namespace Sight

/-- A sight is shown on one line, so a row ends where its line does. -/
theorem Legible.not_mem_text {s : Sight} (h : s.Legible) : '\n' ∉ s.text.toList := by
  have hnumber (n : Nat) : '\n' ∉ Nat.toDigits 10 n := fun hmem =>
    absurd (Text.isDigit_of_mem_toDigits hmem) (by decide)
  cases s with
  | ended => simp
  | unknown byte => simp [hnumber]
  | cutOff => simp
  | load index value =>
    cases value with
    | none => simp [Text.toList_number, hnumber]
    | some value => simp [Text.toList_number, hnumber, h.1]
  | plain op => rcases op with _ | ⟨_ | _ | _ | _⟩ | _ | _ <;> decide

/-- A number is not the bracket of an operand that is cut off, nor is the blank in front of one. -/
theorem text_load_ne_text_cutOff (index : UInt8) (value : Option String) :
    (load index value).text ≠ cutOff.text := by
  intro h
  have hchars : (Text.number 4 ' ' index.toNat).toList ++
        (" '" ++ value.getD "<invalid>" ++ "'").toList =
      List.replicate 0 ' ' ++ '<' :: "truncated>".toList := by
    simpa using congrArg String.toList h
  exact Text.number_append_ne (by decide) (by decide) hchars

/-- Only a constant load with an operand, or one that lacks it, has a space behind its mnemonic. So
the first space tells the two kinds of instructions apart. -/
theorem not_mem_text_plain (op : Opcode) : ' ' ∉ (plain op).text.toList := by
  rcases op with _ | ⟨_ | _ | _ | _⟩ | _ | _ <;> decide

/-- The text of a value, or its being missing, is told by what is shown. -/
theorem Legible.value_eq {index : UInt8} {value value' : Option String}
    (h : (load index value).Legible) (h' : (load index value').Legible)
    (heq : value.getD "<invalid>" = value'.getD "<invalid>") : value = value' := by
  cases value with
  | none =>
    cases value' with
    | none => rfl
    | some text => exact absurd heq.symm h'.2
  | some text =>
    cases value' with
    | none => exact absurd heq h.2
    | some text' => exact congrArg some heq

/-- A constant load is told by what is shown of it: its index is a number of whatever width, behind
which comes a blank, and its value is what stands between the quotes. -/
theorem Legible.load_eq {index index' : UInt8} {value value' : Option String}
    (h : (load index value).Legible) (h' : (load index' value').Legible)
    (heq : (load index value).text = (load index' value').text) :
    load index value = load index' value' := by
  have hchars : (Text.number 4 ' ' index.toNat).toList ++
        ' ' :: '\'' :: ((value.getD "<invalid>").toList ++ ['\'']) =
      (Text.number 4 ' ' index'.toNat).toList ++
        ' ' :: '\'' :: ((value'.getD "<invalid>").toList ++ ['\'']) := by
    simpa using congrArg String.toList heq
  obtain ⟨hindex, hrest⟩ := Text.number_append_inj Text.not_isDigit_of_head?_space
    Text.not_isDigit_of_head?_space hchars
  obtain rfl := UInt8.toNat_inj.1 hindex
  have hvalue := String.toList_inj.1 (List.append_cancel_right
    (List.cons.inj (List.cons.inj hrest).2).2)
  rw [h.value_eq h' hvalue]

/-- **No two sights are shown alike.**

**Proof sketch.** The first letter tells the code that is over, a byte that is no opcode, and an
opcode. A constant load has a space behind its mnemonic, and then a number or a bracket. -/
theorem eq_of_text {s t : Sight} (hs : s.Legible) (ht : t.Legible) (h : s.text = t.text) :
    s = t := by
  have hchars := congrArg String.toList h
  cases s with
  | ended =>
    cases t with
    | ended => rfl
    | _ => simp [Opcode.mnemonic] at hchars
  | unknown byte =>
    cases t with
    | unknown byte' =>
      have hdigits : Nat.toDigits 10 byte.toNat = Nat.toDigits 10 byte'.toNat := by
        simpa using hchars
      rw [UInt8.toNat_inj.1 (Text.toDigits_inj hdigits)]
    | _ => simp [Opcode.mnemonic] at hchars
  | cutOff =>
    cases t with
    | cutOff => rfl
    | load index value => exact absurd h.symm (text_load_ne_text_cutOff index value)
    | plain op => exact absurd (by simp [← h]) (not_mem_text_plain op)
    | _ => simp at hchars
  | load index value =>
    cases t with
    | cutOff => exact absurd h (text_load_ne_text_cutOff index value)
    | load index' value' => exact hs.load_eq ht h
    | plain op => exact absurd (by simp [← h]) (not_mem_text_plain op)
    | _ => simp at hchars
  | plain op =>
    cases t with
    | cutOff => exact absurd (by simp [h]) (not_mem_text_plain op)
    | load index value => exact absurd (by simp [h]) (not_mem_text_plain op)
    | plain op' =>
      have hname : op.bareName.toList = op'.bareName.toList := by
        simpa [Opcode.mnemonic] using hchars
      rw [Assembly.bareName_injective (String.toList_inj.1 hname)]
    | _ => simp [Opcode.mnemonic] at hchars

end Sight

/-! ## Entries -/

/-- What is shown in a row besides the offset: the line, unless it is that of the byte before, and
the instruction. -/
structure Entry where
  /-- The line, or nothing where a bar stands for it. -/
  mark : Option UInt32
  /-- The instruction. -/
  sight : Sight
  deriving DecidableEq, Repr

/-- What is shown in the row of an offset. A byte without a line is shown with line zero. -/
def entryAt (c : Chunk) (offset : Nat) : Entry where
  mark :=
    if 0 < offset ∧ c.lineAt? offset = c.lineAt? (offset - 1) then none
    else some ((c.lineAt? offset).getD 0)
  sight := sightAt c offset

/-- How a line is shown, or that it is the one before. Both take the same width, unless the line is
long. -/
def markText : Option UInt32 → String
  | none => "   |"
  | some line => Text.number 4 ' ' line.toNat

/-- The characters of a row, with the line feed behind it: offset, line and instruction, with a
space between them. -/
def Entry.row (offset : Nat) (e : Entry) : List Char :=
  (Text.number 4 '0' offset).toList ++ ' ' :: ((markText e.mark).toList ++
    ' ' :: (e.sight.text.toList ++ ['\n']))

/-- **A row shows its entry.** The row as it is printed and the row of the entry at its offset are
the same characters. -/
theorem toList_rowAt (c : Chunk) (offset : Nat) :
    (rowAt c offset).toList ++ ['\n'] = (entryAt c offset).row offset := by
  have hplace : place c offset = Text.number 4 '0' offset ++ " " ++
      markText (entryAt c offset).mark ++ " " := by
    unfold place entryAt
    split <;> rfl
  rw [rowAt, hplace, instructionAt_fst, Entry.row]
  simp [entryAt]

/-- A line and a bar can be told apart, and lines of whatever width from each other. Behind a line
stands a space, which ends its digits.

**Proof sketch.** Behind the spaces of its column a bar is no digit, by `Text.number_append_ne`, and
two numbers are told by their digits, by `Text.number_append_inj`. -/
theorem markText_append_inj {m n : Option UInt32} {rest rest' : List Char}
    (h : (markText m).toList ++ ' ' :: rest = (markText n).toList ++ ' ' :: rest') :
    m = n ∧ rest = rest' := by
  have hbar : (markText none).toList = List.replicate 3 ' ' ++ ['|'] := by decide
  cases m with
  | none =>
    cases n with
    | none => exact ⟨rfl, (List.cons.inj (List.append_cancel_left h)).2⟩
    | some line =>
      rw [hbar, List.append_assoc] at h
      exact absurd h.symm (Text.number_append_ne (by decide) (by decide))
  | some line =>
    cases n with
    | none =>
      rw [hbar, List.append_assoc] at h
      exact absurd h (Text.number_append_ne (by decide) (by decide))
    | some line' =>
      obtain ⟨hline, hrest⟩ := Text.number_append_inj Text.not_isDigit_of_head?_space
        Text.not_isDigit_of_head?_space h
      exact ⟨congrArg some (UInt32.toNat_inj.1 hline), (List.cons.inj hrest).2⟩

/-- **Rows can be read again**: a text that begins with the row of an offset tells the entry of that
row, and what comes behind it.

**Proof sketch.** The offset is known, so both rows have the same front. Behind it the mark is read
up to its space, and the sight up to the line feed, which it does not contain. -/
theorem Entry.row_append_inj {offset : Nat} {e f : Entry} {rest rest' : List Char}
    (he : e.sight.Legible) (hf : f.sight.Legible)
    (h : e.row offset ++ rest = f.row offset ++ rest') : e = f ∧ rest = rest' := by
  simp only [Entry.row, List.append_assoc, List.cons_append] at h
  have hcolumns := (List.cons.inj (List.append_cancel_left h)).2
  obtain ⟨hmark, hsights⟩ := markText_append_inj hcolumns
  have hline {s : Sight} (hs : s.Legible) : ∀ c ∈ s.text.toList, decide (c ≠ '\n') = true :=
    fun c hc => decide_eq_true (ne_of_mem_of_not_mem hc hs.not_mem_text)
  have hfeed {cs : List Char} : ∀ c, ('\n' :: cs).head? = some c → ¬ decide (c ≠ '\n') = true := by
    rintro c ⟨⟩
    decide
  -- the sight has no width of its own: it ends with the first line feed
  obtain ⟨hsight, hrest⟩ := Run.append_stop_inj (hline he) (hline hf) hfeed hfeed hsights
  have hentry : e.sight = f.sight := Sight.eq_of_text he hf (String.toList_inj.1 hsight)
  refine ⟨?_, (List.cons.inj hrest).2⟩
  cases e
  cases f
  rw [Entry.mk.injEq]
  exact ⟨hmark, hentry⟩

end Listing

end ChunkMachine
