import ChunkMachine.Proofs.Machine.Assembled
import ChunkMachine.Proofs.Text.Lines

set_option relaxedAutoImplicit false
set_option autoImplicit false

/-!
# Assembly text with and without a return

Whether a line of assembly is a return instruction can be told from its first word, before anything
is assembled. If the text is assembled, then its routine has a return exactly if one of its lines
is told to be one. So a run of a text that has such a line does not reach the end of the code, and a
run of a text that has none does not return.

## Main definitions

* `Assembly.Returns` — the first word of a line names the return instruction.

## Main results

* `Assembly.assemble_eq_ok_empty_iff` — exactly the texts without words are assembled to nothing.
* `Assembly.exists_ret_mem_routine_iff` — the line test agrees with the assembler.
* `Machine.fault_ne_endOfCode`, `Machine.evaluate_ne_ok` — what runs do not end with.
-/

namespace ChunkMachine

namespace Assembly

/-- The first word of a line, which is not in its comment, names the return instruction. This can be
told without reading the rest of the line, and of a line that is wrong, too. -/
def Returns (line : List Char) : Prop :=
  ∃ word rest, lineWords line = word :: rest ∧ Opcode.ofMnemonic? word = some .ret

/-! ## Lines -/

/-- A line that is read as a return instruction begins with its name. No other mnemonic stands for
it.

**Proof sketch.** By the words of the line. What is read has the opcode that its first word
names. -/
theorem returns_of_readLine {line : List Char} (h : readLine line = .ok (some .ret)) :
    Returns line := by
  have hname {name : List Char} {operand : Option (List Char)}
      (hread : (readInstruction name operand).map some = .ok (some .ret)) :
      Opcode.ofMnemonic? name = some .ret := by
    unfold readInstruction at hread
    split at hread
    · contradiction
    · contradiction
    · split at hread
      · cases hread
      · contradiction
    · contradiction
    · cases hread
    · cases hread
    · assumption
  unfold readLine at h
  split at h
  · cases h
  · rename_i name hwords
    exact ⟨name, [], hwords, hname h⟩
  · rename_i name operand hwords
    exact ⟨name, [operand], hwords, hname h⟩
  · contradiction

/-- A line that begins with the name of the return instruction is read as that or not at all. It is
not read if more words follow. -/
theorem Returns.of_readLine {line : List Char} (h : Returns line) {i : Option Instruction}
    (hread : readLine line = .ok i) : i = some .ret := by
  obtain ⟨word, rest, hwords, hop⟩ := h
  unfold readLine at hread
  rw [hwords] at hread
  cases rest with
  | nil =>
    simp only [readInstruction, hop] at hread
    cases hread
    rfl
  | cons operand rest =>
    cases rest with
    | nil =>
      simp only [readInstruction, hop] at hread
      contradiction
    | cons extra rest => contradiction

/-- Exactly the lines without words have no instruction. Such lines are blank or have a comment
only. -/
theorem readLine_eq_ok_none_iff {line : List Char} :
    readLine line = .ok none ↔ lineWords line = [] := by
  have hsome {r : Except Fault Instruction} : r.map some ≠ .ok none := by
    cases r <;> nofun
  unfold readLine
  split
  · simp_all
  · simp_all
  · simp_all
  · simp_all

/-! ## Texts -/

/-- In a text that is assembled every line is read, also the blank ones, which are read as
nothing.

**Proof sketch.** Induction on the lines. The first one that is not read ends the assembly with an
error. -/
theorem exists_readLine_of_assembleLines {lines : List (List Char)} {c d : Chunk} {index : Nat}
    (h : assembleLines c index lines = .ok d) {line : List Char} (hline : line ∈ lines) :
    ∃ i, readLine line = .ok i := by
  induction lines generalizing c index with
  | nil => contradiction
  | cons first rest ih =>
    unfold assembleLines at h
    split at h
    · contradiction
    · rename_i hread
      rcases List.mem_cons.1 hline with rfl | hline
      · exact ⟨_, hread⟩
      · exact ih h hline
    · rename_i i hread
      split at h
      · contradiction
      · rcases List.mem_cons.1 hline with rfl | hline
        · exact ⟨_, hread⟩
        · exact ih h hline

/-- Lines without words are assembled to nothing: the chunk is what it was before. -/
theorem assembleLines_of_blank {lines : List (List Char)} {c : Chunk} {index : Nat}
    (h : ∀ line ∈ lines, lineWords line = []) : assembleLines c index lines = .ok c := by
  induction lines generalizing index with
  | nil => rfl
  | cons line rest ih =>
    rw [assembleLines, readLine_eq_ok_none_iff.2 (h line List.mem_cons_self)]
    exact ih fun line hline => h line (List.mem_cons_of_mem _ hline)

/-- The instruction on a line is in the routine of the text, with a number that is not of interest
here. -/
theorem exists_mem_routine {text line : List Char} {i : Instruction}
    (hline : line ∈ Text.lines text) (hread : readLine line = .ok (some i)) :
    ∃ number, (number, i) ∈ routine text := by
  obtain ⟨k, hk⟩ := List.mem_iff_getElem?.1 hline
  exact ⟨k + 1, mem_routine_iff.2 ⟨Nat.le_add_left 1 k, line, hk, hread⟩⟩

/-- **Exactly the texts without words are assembled to nothing.**

**Proof sketch.** A word is on a line that has an instruction, and an instruction takes at least one
byte. -/
theorem assemble_eq_ok_empty_iff {text : String} :
    assemble text = .ok .empty ↔ ∀ line ∈ Text.lines text.toList, lineWords line = [] := by
  constructor
  · intro h line hline
    obtain ⟨i, hread⟩ := exists_readLine_of_assembleLines h hline
    cases i with
    | none => exact readLine_eq_ok_none_iff.1 hread
    | some i =>
      obtain ⟨number, hmem⟩ := exists_mem_routine hline hread
      obtain ⟨-, -, hspells⟩ := Chunk.spells_of_emitAll .empty (emitAll_of_assemble h)
      cases hroutine : routine text.toList with
      | nil =>
        rw [hroutine] at hmem
        contradiction
      | cons first rest =>
        rw [hroutine] at hspells
        obtain ⟨-, hle⟩ := Chunk.opcode_of_fetch_ok hspells.1
        have hpos := first.2.opcode.width_pos
        exact absurd (Nat.lt_of_lt_of_le hpos (Nat.le_of_add_left_le hle)) (Nat.lt_irrefl 0)
  · exact fun h => assembleLines_of_blank h

/-- **The line test agrees with the assembler**: the routine of lines that are assembled has a
return exactly if one of the lines is told to be one.

**Proof sketch.** The routine is that of the lines of the text, and these have the same words as the
lines in question, by `Lined.mem_lineWords_iff`. -/
theorem exists_ret_mem_routine_iff {ls : List (List Char)} (hlined : Lined '\n' ls) {c : Chunk}
    (h : assemble (String.ofList ls.flatten) = .ok c) :
    (∃ number, (number, .ret) ∈ routine ls.flatten) ↔ ∃ line ∈ ls, Returns line := by
  have hlines : assembleLines .empty 0 (Text.lines ls.flatten) = .ok c := by
    rw [← h, assemble, String.toList_ofList]
  constructor
  · rintro ⟨number, hmem⟩
    obtain ⟨-, line, hline, hread⟩ := mem_routine_iff.1 hmem
    obtain ⟨word, rest, hwords, hop⟩ := returns_of_readLine hread
    obtain ⟨line', hline', hwords'⟩ := (hlined.mem_lineWords_iff (List.cons_ne_nil word rest)).1
      ⟨line, List.mem_of_getElem? hline, hwords⟩
    exact ⟨line', hline', word, rest, hwords', hop⟩
  · rintro ⟨line, hline, word, rest, hwords, hop⟩
    obtain ⟨line', hline', hwords'⟩ := (hlined.mem_lineWords_iff (List.cons_ne_nil word rest)).2
      ⟨line, hline, hwords⟩
    obtain ⟨i, hread⟩ := exists_readLine_of_assembleLines hlines hline'
    rw [Returns.of_readLine ⟨word, rest, hwords', hop⟩ hread] at hread
    exact exists_mem_routine hline' hread

end Assembly

/-! ## Runs -/

namespace Machine

open Assembly

variable {W : Type} [Output W] {ls : List (List Char)} {c : Chunk} {m : Machine W}

/-- A call of lines that are assembled ends as the interpretation of their routine does. Lines that
are joined are told as one text. -/
theorem fst_evaluate_of_assemble (h : assemble (String.ofList ls.flatten) = .ok c)
    (hsink : Output.Reliable m.sink) :
    (m.evaluate c).1 =
      (Routine.interpret m.config.arithmetic m.config.capacity 0 []
        ((routine ls.flatten).map (Prod.map lineWord id))).result.mapError
          fun e => ⟨e.1, e.2⟩ := by
  have hemit := emitAll_of_assemble h
  rw [String.toList_ofList] at hemit
  exact (evaluate_emitted hemit m hsink).1

variable (hlined : Lined '\n' ls) (h : assemble (String.ofList ls.flatten) = .ok c)
  (hsink : Output.Reliable m.sink)
include hlined h hsink

/-- **Lines with a return do not run to the end of the code.** The run is over at the return at the
latest, or fails before.

**Proof sketch.** Interpreting the routine would come to its end, so by
`Routine.not_mem_ret_of_endOfCode` there would be no return in it. -/
theorem fault_ne_endOfCode (hreturns : ∃ line ∈ ls, Returns line) {e : RuntimeError}
    (he : (m.evaluate c).1 = .error e) : e.fault ≠ .endOfCode := by
  intro hfault
  have hresult := fst_evaluate_of_assemble h hsink
  rw [he] at hresult
  generalize hout : (Routine.interpret _ _ _ _ _).result = result at hresult
  cases result with
  | ok v => contradiction
  | error s =>
    cases hresult
    obtain ⟨number, hmem⟩ := (exists_ret_mem_routine_iff hlined h).2 hreturns
    obtain ⟨fault, line⟩ := s
    obtain rfl : fault = .endOfCode := hfault
    exact Routine.not_mem_ret_of_endOfCode hout (lineWord number)
      (List.mem_map.2 ⟨(number, .ret), hmem, rfl⟩)

/-- **Lines without a return do not return a value.** They fail, if only at the end of the code.

**Proof sketch.** Interpreting the routine would give a value, which only a return does. -/
theorem evaluate_ne_ok (hreturns : ∀ line ∈ ls, ¬ Returns line) (v : Value) :
    (m.evaluate c).1 ≠ .ok v := by
  intro hv
  have hresult := fst_evaluate_of_assemble h hsink
  rw [hv] at hresult
  generalize hout : (Routine.interpret _ _ _ _ _).result = result at hresult
  cases result with
  | error s => contradiction
  | ok w =>
    obtain ⟨line, hmem⟩ := Routine.exists_ret_of_result_ok hout
    obtain ⟨⟨number, i⟩, hmem, heq⟩ := List.mem_map.1 hmem
    obtain rfl : i = .ret := congrArg Prod.snd heq
    obtain ⟨line, hline, hret⟩ := (exists_ret_mem_routine_iff hlined h).1 ⟨number, hmem⟩
    exact hreturns line hline hret

end Machine

end ChunkMachine
