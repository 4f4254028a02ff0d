import ChunkMachine.Proofs.Chunk.Offsets
import ChunkMachine.Proofs.Text.Numeral

set_option relaxedAutoImplicit false
set_option autoImplicit false

/-!
# The grammar of code

Code without defects is one complete instruction after another, and nothing else. An instruction is
told by its first byte, so there is at most one way to cut code into instructions; the walk over the
offsets finds it, or stops being right at the first offset at which no complete instruction starts.

## Main definitions

* `Chunk.Complete` — the bytes of a complete instruction.
* `Chunk.Cut` — the code of a chunk as a concatenation of complete instructions.
* `Chunk.Flaw` — what is wrong at an offset, and how it is told.

## Main results

* `Chunk.Cut.unique` — code is cut into instructions in one way.
* `Chunk.defect?_eq_none_iff` — code has no defect exactly if it can be cut into instructions.
* `Chunk.Flaw.eq_of_text` — the text of a flaw names it.
* `Chunk.defect?_decides` — the check decides the grammar, and reports the first flaw.
-/

namespace ChunkMachine

/-- The bytes behind those of the opcodes, and no others, are no opcodes. The opcodes have the bytes
from zero to six. -/
theorem Opcode.ofByte?_eq_none_iff {byte : UInt8} : ofByte? byte = none ↔ 6 < byte := by
  rw [UInt8.lt_iff_toNat_lt]
  unfold ofByte?
  split
  all_goals simp_all
  all_goals omega

namespace Chunk

/-- The bytes of a complete instruction in a chunk whose pool has a given size: the byte of an
opcode without operand, or the byte of the constant load and an index into the pool. -/
inductive Complete (poolSize : Nat) : List UInt8 → Prop where
  /-- An instruction without operand is one byte. -/
  | plain {byte : UInt8} (hlow : 1 ≤ byte) (hhigh : byte ≤ 6) : Complete poolSize [byte]
  /-- A load is its byte and an index, at which there is a constant. -/
  | load {index : UInt8} (h : index.toNat < poolSize) : Complete poolSize [0, index]

/-- The code of a chunk, cut into complete instructions, of which it is the concatenation. -/
structure Cut (c : Chunk) (words : List (List UInt8)) : Prop where
  /-- The pieces make up the code. -/
  code_eq : c.code.toList = words.flatten
  /-- Each piece is complete for the pool of the chunk. -/
  complete : ∀ word ∈ words, Complete c.constants.size word

/-- What is wrong with the instruction at an offset, and the text that tells it: the byte is no
opcode, or it is a constant load that lacks its operand, or one whose operand is outside the
pool. -/
inductive Flaw (c : Chunk) (offset : Nat) : Defect → String → Prop where
  /-- No opcode has the byte. -/
  | unknown {byte : UInt8} (hbyte : c.code[offset]? = some byte) (h : 6 < byte) :
      Flaw c offset (.unknownOpcode byte offset)
        ("unknown opcode " ++ toString byte.toNat ++ " at " ++ toString offset)
  /-- The code ends behind the byte of a load. -/
  | cutOff (hbyte : c.code[offset]? = some 0) (h : offset + 1 = c.code.size) :
      Flaw c offset (.missingOperand .constant offset)
        ("OP_CONSTANT at " ++ toString offset ++ " is missing its operand")
  /-- The operand of a load is an index at which there is no constant. -/
  | dangling {index : UInt8} (hbyte : c.code[offset]? = some 0)
      (hindex : c.code[offset + 1]? = some index) (h : c.constants.size ≤ index.toNat) :
      Flaw c offset (.danglingConstant offset index.toNat c.constants.size)
        ("op " ++ toString offset ++ " references const " ++ toString index.toNat ++
          " but pool size is " ++ toString c.constants.size)

/-! ## Complete instructions -/

section Complete

variable {poolSize : Nat} {word : List UInt8}

/-- A larger pool has room for every index that fitted. So appending constants does not spoil
code. -/
theorem Complete.mono (h : Complete poolSize word) {larger : Nat} (hle : poolSize ≤ larger) :
    Complete larger word := by
  cases h with
  | plain hlow hhigh => exact .plain hlow hhigh
  | load h => exact .load (Nat.lt_of_lt_of_le h hle)

/-- A complete instruction is as long as its first byte says, which is how the walk over the code
finds the next one.

**Proof sketch.** An instruction without operand starts with the byte of an opcode other than the
load, and a load with that of the load. -/
theorem Complete.exists_cons (h : Complete poolSize word) :
    ∃ byte operands, word = byte :: operands ∧ word.length = widthOf byte := by
  cases h with
  | @plain byte hlow hhigh =>
    refine ⟨byte, [], rfl, ?_⟩
    have hne : byte ≠ 0 := by
      rintro rfl
      exact absurd hlow (by decide)
    unfold widthOf
    cases hop : Opcode.ofByte? byte with
    | none => rfl
    | some op =>
      obtain rfl := Opcode.ofByte?_eq_some_iff.1 hop
      cases op with
      | constant => exact absurd rfl hne
      | binary op => rfl
      | negate => rfl
      | ret => rfl
  | load h => exact ⟨0, [_], rfl, rfl⟩

/-- No complete instruction is the beginning of another one. So the first instruction of some code
can be read off its front in one way only. -/
theorem Complete.eq_of_append (h : Complete poolSize word) {word' rest rest' : List UInt8}
    (h' : Complete poolSize word') (heq : word ++ rest = word' ++ rest') :
    word = word' ∧ rest = rest' := by
  obtain ⟨byte, operands, rfl, hlength⟩ := h.exists_cons
  obtain ⟨byte', operands', rfl, hlength'⟩ := h'.exists_cons
  have hbyte : byte = byte' := (List.cons.inj heq).1
  apply List.append_inj heq
  rw [hlength, hlength', hbyte]

end Complete

/-- **Code is cut into instructions in one way.**

**Proof sketch.** Induction on the instructions. The first ones begin the same code, so neither is
longer than the other. -/
theorem Cut.unique {c : Chunk} {words words' : List (List UInt8)} (h : c.Cut words)
    (h' : c.Cut words') : words = words' := by
  obtain ⟨hcode, hcomplete⟩ := h
  obtain ⟨hcode', hcomplete'⟩ := h'
  rw [hcode] at hcode'
  clear hcode
  have hne {word : List UInt8} (hword : Complete c.constants.size word) : word ≠ [] := by
    obtain ⟨byte, operands, rfl, -⟩ := hword.exists_cons
    exact List.cons_ne_nil byte operands
  induction words generalizing words' with
  | nil =>
    cases words' with
    | nil => rfl
    | cons word' rest' =>
      have hnil := (List.append_eq_nil_iff.1 hcode'.symm).1
      exact absurd hnil (hne (hcomplete' word' List.mem_cons_self))
  | cons word rest ih =>
    cases words' with
    | nil =>
      have hnil := (List.append_eq_nil_iff.1 hcode').1
      exact absurd hnil (hne (hcomplete word List.mem_cons_self))
    | cons word' rest' =>
      obtain ⟨hword, hothers⟩ := List.forall_mem_cons.1 hcomplete
      obtain ⟨hword', hothers'⟩ := List.forall_mem_cons.1 hcomplete'
      obtain ⟨rfl, hrest⟩ := hword.eq_of_append hword' hcode'
      rw [ih hothers hrest hothers']

/-! ## Flaws -/

section Flaws

variable {c : Chunk} {offset : Nat}

/-- The check of an offset finds what is wrong there.

**Proof sketch.** The cases are those of the check. Only the constant load is longer than one byte,
so only its operand can be missing. -/
theorem defectAt?_eq_some_iff {d : Defect} :
    c.defectAt? offset = some d ↔ ∃ text, c.Flaw offset d text := by
  unfold defectAt?
  constructor
  · intro h
    cases hbyte : c.code[offset]? with
    | none => simp [hbyte] at h
    | some byte =>
      obtain ⟨hlt, -⟩ := Array.getElem?_eq_some_iff.1 hbyte
      simp only [hbyte] at h
      cases hop : Opcode.ofByte? byte with
      | none =>
        simp only [hop, Option.some.injEq] at h
        subst h
        exact ⟨_, .unknown hbyte (Opcode.ofByte?_eq_none_iff.1 hop)⟩
      | some op =>
        obtain rfl := Opcode.ofByte?_eq_some_iff.1 hop
        simp only [hop] at h
        cases op with
        | constant =>
          split at h
          · rename_i hcut
            have hwidth : Opcode.constant.width = 2 := rfl
            cases h
            exact ⟨_, .cutOff hbyte (by omega)⟩
          · cases hindex : c.code[offset + 1]? with
            | none => simp [hindex] at h
            | some index =>
              simp only [hindex, if_true] at h
              split at h
              · contradiction
              · rename_i hpool
                cases h
                exact ⟨_, .dangling hbyte hindex (Nat.le_of_not_lt hpool)⟩
        | binary op => simp [Opcode.width, Opcode.operandLength, Nat.not_lt_of_le hlt] at h
        | negate => simp [Opcode.width, Opcode.operandLength, Nat.not_lt_of_le hlt] at h
        | ret => simp [Opcode.width, Opcode.operandLength, Nat.not_lt_of_le hlt] at h
  · have hzero : Opcode.ofByte? 0 = some .constant := rfl
    have hwidth : Opcode.constant.width = 2 := rfl
    rintro ⟨text, hflaw⟩
    cases hflaw with
    | unknown hbyte h => simp only [hbyte, Opcode.ofByte?_eq_none_iff.2 h]
    | cutOff hbyte h =>
      have hcut : c.code.size < offset + 2 := by omega
      simp [hbyte, hzero, hwidth, hcut]
    | dangling hbyte hindex h =>
      obtain ⟨hlt, -⟩ := Array.getElem?_eq_some_iff.1 hindex
      have hwhole : ¬ c.code.size < offset + 2 := by omega
      simp [hbyte, hzero, hwidth, hwhole, hindex, Nat.not_lt_of_le h]

/-- At an offset within the code there is a flaw or a complete instruction. The cases are the byte
there and, for a load, what follows it.

**Proof sketch.** A byte above six is unknown, and one from one to six is an instruction. Behind a
zero the code ends, or there is an index, which is outside the pool or within. -/
theorem exists_flaw_or_complete (hlt : offset < c.code.size) :
    (∃ d text, c.Flaw offset d text) ∨
      ∃ word, Complete c.constants.size word ∧ word <+: c.code.toList.drop offset := by
  have hbyte : c.code[offset]? = some c.code[offset] := Array.getElem?_eq_getElem hlt
  have hcons {k : Nat} (hk : k < c.code.size) :
      c.code.toList.drop k = c.code[k] :: c.code.toList.drop (k + 1) := by
    rw [List.drop_eq_getElem_cons (by simpa using hk), Array.getElem_toList]
  have hdrop := hcons hlt
  generalize c.code[offset] = byte at hbyte hdrop
  by_cases hknown : 6 < byte
  · exact .inl ⟨_, _, .unknown hbyte hknown⟩
  by_cases hload : byte = 0
  · subst hload
    -- a load: there is no operand, or an index that is to be found in the pool
    by_cases hend : offset + 1 = c.code.size
    · exact .inl ⟨_, _, .cutOff hbyte hend⟩
    · have hlt' : offset + 1 < c.code.size := by omega
      have hindex : c.code[offset + 1]? = some c.code[offset + 1] := Array.getElem?_eq_getElem hlt'
      rw [hcons hlt'] at hdrop
      generalize c.code[offset + 1] = index at hindex hdrop
      by_cases hpool : index.toNat < c.constants.size
      · exact .inr ⟨[0, index], .load hpool, _, hdrop.symm⟩
      · exact .inl ⟨_, _, .dangling hbyte hindex (Nat.le_of_not_lt hpool)⟩
  · refine .inr ⟨[byte], .plain ?_ ?_, _, hdrop.symm⟩
    · rw [UInt8.le_iff_toNat_le]
      have hne : byte.toNat ≠ 0 := fun h => hload (UInt8.toNat_inj.1 h)
      exact Nat.pos_of_ne_zero hne
    · exact UInt8.not_lt.1 hknown

/-- There are not both, so the check of an offset decides between them.

**Proof sketch.** The bytes of a complete instruction are those of the code. Each flaw contradicts
one of them, or the length of the code, or the size of the pool. -/
theorem Flaw.not_complete {d : Defect} {text : String} (h : c.Flaw offset d text)
    {word : List UInt8} (hword : Complete c.constants.size word) :
    ¬ word <+: c.code.toList.drop offset := by
  rintro ⟨rest, hdrop⟩
  have hget (k : Nat) : c.code[offset + k]? = (word ++ rest)[k]? := by
    rw [hdrop, List.getElem?_drop, Array.getElem?_toList]
  cases hword with
  | @plain byte hlow hhigh =>
    have hfirst : c.code[offset]? = some byte := hget 0
    cases h with
    | unknown hbyte h =>
      cases hfirst.symm.trans hbyte
      exact absurd h (UInt8.not_lt.2 hhigh)
    | cutOff hbyte h =>
      cases hfirst.symm.trans hbyte
      exact absurd hlow (by decide)
    | dangling hbyte hindex h =>
      cases hfirst.symm.trans hbyte
      exact absurd hlow (by decide)
  | @load index hpool =>
    have hfirst : c.code[offset]? = some 0 := hget 0
    have hsecond : c.code[offset + 1]? = some index := hget 1
    cases h with
    | unknown hbyte h =>
      cases hfirst.symm.trans hbyte
      exact absurd h (by decide)
    | cutOff hbyte h =>
      obtain ⟨hlt, -⟩ := Array.getElem?_eq_some_iff.1 hsecond
      omega
    | dangling hbyte hindex h =>
      cases hsecond.symm.trans hindex
      omega

/-- Texts of flaws tell them apart, whatever chunks they are in.

**Proof sketch.** The first letter tells the kind. Behind each number comes a blank or the end, so
that the numbers can be read one after another. -/
theorem Flaw.eq_of_text {c' : Chunk} {offset' : Nat} {d d' : Defect} {text : String}
    (h : c.Flaw offset d text) (h' : c'.Flaw offset' d' text) : offset = offset' ∧ d = d' := by
  have hblank {rest : List Char} : ∀ x, (' ' :: rest).head? = some x → ¬ x.isDigit := by
    rintro x ⟨⟩
    decide
  generalize htext : text = text' at h'
  have hchars := congrArg String.toList htext
  cases h with
  | @unknown byte _ _ =>
    cases h' with
    | @unknown byte' _ _ =>
      have hnumbers :
          Nat.toDigits 10 byte.toNat ++ ' ' :: ("at ".toList ++ Nat.toDigits 10 offset) =
          Nat.toDigits 10 byte'.toNat ++ ' ' :: ("at ".toList ++ Nat.toDigits 10 offset') := by
        simpa using hchars
      obtain ⟨hbyte, hrest⟩ := Text.toDigits_append_inj hblank hblank hnumbers
      obtain rfl := UInt8.toNat_inj.1 hbyte
      obtain rfl := Text.toDigits_inj (List.append_cancel_left (List.cons.inj hrest).2)
      exact ⟨rfl, rfl⟩
    | cutOff => simp at hchars
    | dangling => simp at hchars
  | cutOff =>
    cases h' with
    | unknown => simp at hchars
    | cutOff =>
      have hnumber : Nat.toDigits 10 offset = Nat.toDigits 10 offset' := by simpa using hchars
      obtain rfl := Text.toDigits_inj hnumber
      exact ⟨rfl, rfl⟩
    | dangling => simp at hchars
  | @dangling index _ _ _ =>
    cases h' with
    | unknown => simp at hchars
    | cutOff => simp at hchars
    | @dangling index' _ _ _ =>
      have hnumbers : Nat.toDigits 10 offset ++ ' ' :: ("references const ".toList ++
            (Nat.toDigits 10 index.toNat ++ ' ' :: ("but pool size is ".toList ++
              Nat.toDigits 10 c.constants.size))) =
          Nat.toDigits 10 offset' ++ ' ' :: ("references const ".toList ++
            (Nat.toDigits 10 index'.toNat ++ ' ' :: ("but pool size is ".toList ++
              Nat.toDigits 10 c'.constants.size))) := by
        simpa using hchars
      obtain ⟨rfl, hrest⟩ := Text.toDigits_append_inj hblank hblank hnumbers
      obtain ⟨hindex, hrest⟩ := Text.toDigits_append_inj hblank hblank
        (List.append_cancel_left (List.cons.inj hrest).2)
      have hpool := Text.toDigits_inj (List.append_cancel_left (List.cons.inj hrest).2)
      rw [hindex, hpool]
      exact ⟨rfl, rfl⟩

/-- A flaw is reported with its text. The heading is the same for all of them.

**Proof sketch.** The two texts are made of the same parts, and are compared as lists of
characters. -/
theorem Flaw.message_eq {d : Defect} {text : String} (h : c.Flaw offset d text) :
    d.message = "corrupted chunk: " ++ text := by
  apply String.toList_inj.1
  cases h with
  | @unknown byte _ _ =>
    have hmessage : (Defect.unknownOpcode byte offset).message =
        "corrupted chunk: unknown opcode " ++ toString byte.toNat ++ " at " ++ toString offset :=
      rfl
    simp [hmessage]
  | cutOff =>
    have hname : Opcode.constant.mnemonic = "OP_CONSTANT" := rfl
    have hmessage : (Defect.missingOperand .constant offset).message =
        "corrupted chunk: " ++ Opcode.constant.mnemonic ++ " at " ++ toString offset ++
          " is missing its operand" := rfl
    simp [hmessage, hname]
  | @dangling index _ _ _ =>
    have hmessage : (Defect.danglingConstant offset index.toNat c.constants.size).message =
        "corrupted chunk: op " ++ toString offset ++ " references const " ++ toString index.toNat ++
          " but pool size is " ++ toString c.constants.size := rfl
    simp [hmessage]

end Flaws

/-! ## The walk -/

section Walk

variable {c : Chunk}

/-- Where there is no flaw a complete instruction starts, and where one starts there is no flaw. -/
theorem defectAt?_eq_none_iff {offset : Nat} (hlt : offset < c.code.size) :
    c.defectAt? offset = none ↔
      ∃ word, Complete c.constants.size word ∧ word <+: c.code.toList.drop offset := by
  constructor
  · intro h
    rcases exists_flaw_or_complete hlt with ⟨d, text, hflaw⟩ | hword
    · rw [defectAt?_eq_some_iff.2 ⟨text, hflaw⟩] at h
      contradiction
    · exact hword
  · rintro ⟨word, hword, hprefix⟩
    cases h : c.defectAt? offset with
    | none => rfl
    | some d =>
      obtain ⟨text, hflaw⟩ := defectAt?_eq_some_iff.1 h
      exact absurd hprefix (hflaw.not_complete hword)

/-- The walk goes on behind a complete instruction, at what is left of the code there. -/
theorem Complete.rest_eq {word rest : List UInt8} (hword : Complete c.constants.size word)
    {start : Nat} (hlt : start < c.code.size) (h : word ++ rest = c.code.toList.drop start) :
    rest = c.code.toList.drop (start + widthOf c.code[start]) := by
  obtain ⟨byte, operands, rfl, hlength⟩ := hword.exists_cons
  have hget : c.code.toList[start]? = some byte := by
    rw [← List.head?_drop, ← h]
    rfl
  rw [Array.getElem?_toList] at hget
  have hbyte : c.code[start] = byte := (Array.getElem?_eq_some_iff.1 hget).2
  rw [hbyte, ← hlength, ← List.drop_drop, ← h, List.drop_left]

/-- From an offset on the walk meets no flaw exactly if the code from there on can be cut into
instructions.

**Proof sketch.** Induction on the walk. The first instruction of a cut is the one that starts at
the offset, and its length is the width by which the walk goes on. -/
theorem forall_offsetsFrom_iff (c : Chunk) (start : Nat) :
    (∀ offset ∈ c.offsetsFrom start, c.defectAt? offset = none) ↔
      ∃ words : List (List UInt8), c.code.toList.drop start = words.flatten ∧
        ∀ word ∈ words, Complete c.constants.size word := by
  induction start using offsetsFrom.induct c with
  | case1 start hlt ih =>
    rw [offsetsFrom_of_lt hlt, List.forall_mem_cons, defectAt?_eq_none_iff hlt]
    constructor
    · rintro ⟨⟨word, hword, rest, hdrop⟩, hothers⟩
      obtain ⟨words, hwords, hcomplete⟩ := ih.1 hothers
      refine ⟨word :: words, ?_, List.forall_mem_cons.2 ⟨hword, hcomplete⟩⟩
      rw [List.flatten_cons, ← hwords, ← hword.rest_eq hlt hdrop, hdrop]
    · rintro ⟨words, hdrop, hcomplete⟩
      cases words with
      | nil =>
        have hle := List.drop_eq_nil_iff.1 hdrop
        rw [Array.length_toList] at hle
        omega
      | cons word words =>
        obtain ⟨hword, hothers⟩ := List.forall_mem_cons.1 hcomplete
        refine ⟨⟨word, hword, words.flatten, hdrop.symm⟩, ih.2 ⟨words, ?_, hothers⟩⟩
        exact (hword.rest_eq hlt hdrop.symm).symm
  | case2 start hend =>
    have hle := Nat.le_of_not_lt hend
    rw [offsetsFrom_of_size_le hle, List.drop_eq_nil_of_le (by simpa using hle)]
    constructor
    · intro _
      exact ⟨[], rfl, List.forall_mem_nil _⟩
    · intro _
      exact List.forall_mem_nil _

/-- **A chunk has no defect** exactly if it has a line for every byte of its code, and the code can
be cut into instructions. The walk from the start of the code makes the cut.

**Proof sketch.** A cut is what the walk from the start finds, by `forall_offsetsFrom_iff`, where it
finds no defect. The lines are checked before. -/
theorem defect?_eq_none_iff :
    c.defect? = none ↔ c.lines.size = c.code.size ∧ ∃ words, c.Cut words := by
  have hcut : (∃ words, c.Cut words) ↔ ∀ offset ∈ c.offsets, c.defectAt? offset = none := by
    rw [offsets, forall_offsetsFrom_iff, List.drop_zero]
    constructor
    · rintro ⟨words, h⟩
      exact ⟨words, h.code_eq, h.complete⟩
    · rintro ⟨words, hcode, hcomplete⟩
      exact ⟨words, hcode, hcomplete⟩
  rw [hcut, defect?]
  split
  · rename_i hne
    constructor
    · intro h
      contradiction
    · intro h
      exact absurd h.1.symm hne
  · rename_i heq
    rw [List.findSome?_eq_none_iff]
    exact ⟨fun h => ⟨(Decidable.not_not.1 heq).symm, h⟩, And.right⟩

/-- The first defect of a chunk with a line for every byte is the flaw at the least offset that has
one.

**Proof sketch.** The offsets increase, so those before an offset in the list are those below it. -/
theorem defect?_eq_some_iff (h : c.lines.size = c.code.size) {d : Defect} :
    c.defect? = some d ↔ ∃ offset ∈ c.offsets, (∃ text, c.Flaw offset d text) ∧
      ∀ earlier ∈ c.offsets, earlier < offset → ∀ d' text, ¬ c.Flaw earlier d' text := by
  have hnone {offset : Nat} : c.defectAt? offset = none ↔ ∀ d text, ¬ c.Flaw offset d text := by
    rw [Option.eq_none_iff_forall_ne_some]
    simp only [ne_eq, defectAt?_eq_some_iff, not_exists]
  rw [defect?, if_neg (not_not_intro h.symm), List.findSome?_eq_some_iff]
  constructor
  · rintro ⟨before, offset, after, hoffsets, hd, hbefore⟩
    refine ⟨offset, by simp [hoffsets], defectAt?_eq_some_iff.1 hd, fun earlier hmem hlt => ?_⟩
    rw [← hnone]
    apply hbefore
    have hsorted := hoffsets ▸ c.pairwise_offsets
    rw [hoffsets, List.mem_append, List.mem_cons] at hmem
    rcases hmem with hmem | rfl | hmem
    · exact hmem
    · exact absurd hlt (Nat.lt_irrefl _)
    · have hlater := (List.pairwise_cons.1 (List.pairwise_append.1 hsorted).2.1).1 earlier hmem
      omega
  · rintro ⟨offset, hmem, hd, hearlier⟩
    obtain ⟨before, after, hoffsets⟩ := List.append_of_mem hmem
    refine ⟨before, offset, after, hoffsets, defectAt?_eq_some_iff.2 hd, fun earlier hbefore => ?_⟩
    have hsorted := hoffsets ▸ c.pairwise_offsets
    rw [hnone]
    apply hearlier earlier (by simp [hoffsets, hbefore])
    exact (List.pairwise_append.1 hsorted).2.2 earlier hbefore offset List.mem_cons_self

end Walk

/-! ## The check -/

/-- **The check decides the grammar of code, and reports the first flaw.** Take a chunk with a line
for every byte of its code. It has no defect if and only if the code is a concatenation of complete
instructions, and there is at most one such concatenation. If it has a defect, that is the flaw at
the least of its offsets at which there is one; the message tells it, and no two flaws, of whatever
chunks, are told alike.

**Proof sketch.** The walk over the offsets meets a complete instruction wherever there is no flaw,
and goes on behind it, so it makes the cut; see `defect?_eq_none_iff` and `defect?_eq_some_iff`. -/
theorem defect?_decides {c : Chunk} (h : c.lines.size = c.code.size) :
    (c.defect? = none ↔ ∃ words, c.Cut words) ∧
    (∀ words words', c.Cut words → c.Cut words' → words = words') ∧
    (∀ d, c.defect? = some d ↔ ∃ offset ∈ c.offsets, (∃ text, c.Flaw offset d text) ∧
      ∀ earlier ∈ c.offsets, earlier < offset → ∀ d' text, ¬ c.Flaw earlier d' text) ∧
    (∀ offset d text, c.Flaw offset d text → d.message = "corrupted chunk: " ++ text) ∧
    ∀ (c' : Chunk) (offset offset' : Nat) (d d' : Defect) (text : String), c.Flaw offset d text →
      c'.Flaw offset' d' text → offset = offset' ∧ d = d' := by
  refine ⟨?_, fun _ _ hwords hwords' => hwords.unique hwords', fun d => defect?_eq_some_iff h,
    fun _ _ _ hflaw => hflaw.message_eq, fun _ _ _ _ _ _ hflaw hflaw' => hflaw.eq_of_text hflaw'⟩
  rw [defect?_eq_none_iff]
  exact ⟨And.right, fun hcut => ⟨h, hcut⟩⟩

/-- An operand that looks like a load, a byte that is no opcode, and a load that is cut off: the
second one is reported, and the code cannot be cut. -/
theorem defect?_decides_unknown_byte :
    let c : Chunk := ⟨#[0, 0, 1, 7, 0], #[1, 1, 2, 2, 3], #[⟨0⟩]⟩
    c.lines.size = c.code.size ∧ c.defect? = some (.unknownOpcode 7 3) ∧
      (Defect.unknownOpcode 7 3).message = "corrupted chunk: unknown opcode 7 at 3" ∧
      ¬ ∃ words, c.Cut words := by
  intro c
  have hlines : c.lines.size = c.code.size := rfl
  have hdefect : c.defect? = some (.unknownOpcode 7 3) := by decide +kernel
  obtain ⟨hcut, -, hfirst, htold, -⟩ := defect?_decides hlines
  obtain ⟨offset, -, ⟨text, hflaw⟩, -⟩ := (hfirst _).1 hdefect
  refine ⟨hlines, hdefect, ?_, fun hwords => ?_⟩
  · have hmessage := htold _ _ _ hflaw
    cases hflaw
    exact hmessage
  · rw [hcut.2 hwords] at hdefect
    contradiction

end Chunk

end ChunkMachine
