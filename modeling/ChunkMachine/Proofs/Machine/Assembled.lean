import ChunkMachine.Proofs.Machine.Spelled

set_option relaxedAutoImplicit false
set_option autoImplicit false

/-!
# The meaning of assembly text

An assembly text can be executed line by line: its instructions, each with the number of its line,
are a routine. Assembling the text and running the chunk does the same. Comments and blank lines
count as lines but do nothing, and the fault of a run is blamed on the number of the line whose
instruction faulted.

## Main definitions

* `Text.lineCount` — the number of lines of a text.
* `Assembly.routine` — the instructions of a text with the numbers of their lines.

## Main results

* `Assembly.mem_routine_iff` — what the routine of a text consists of.
* `Assembly.emitAll_of_assemble` — the chunk of a text is what its routine appends to nothing.
* `Machine.evaluate_assembled` — a call of the chunk of a text does what the text says.
-/

namespace ChunkMachine

/-- The number of lines of a text. A line feed ends a line, so none starts behind the last one. -/
def Text.lineCount (cs : List Char) : Nat :=
  if (lines cs).getLast? = some [] then (lines cs).length - 1 else (lines cs).length

namespace Assembly

/-- The instruction on a line, if the line has one. A line that is wrong has none, which does not
matter in a text that is assembled. -/
def instruction? (line : List Char) : Option Instruction :=
  match readLine line with
  | .ok i => i
  | .error _ => none

/-- The instructions on lines, each with the number of its line, the first one being `number`. Blank
lines take a number all the same. -/
def routineFrom (number : Nat) (lines : List (List Char)) : Routine Nat :=
  (lines.zipIdx number).filterMap fun s => (instruction? s.1).map fun i => (s.2, i)

/-- The instructions of a text, each with the number of its line. This is what the text says, before
anything is encoded. -/
def routine (text : List Char) : Routine Nat := routineFrom 1 (Text.lines text)

/-- The number of a line as a word. The greatest word stands for all numbers from there on. -/
def lineWord (number : Nat) : UInt32 := UInt32.ofNat (min number (2 ^ 32 - 1))

/-! ## The routine of a text -/

/-- A line with an instruction adds it to the routine, and one without adds nothing. The lines
behind it are counted on in either case. -/
theorem routineFrom_cons (number : Nat) (line : List Char) (rest : List (List Char)) :
    routineFrom number (line :: rest) =
      ((instruction? line).map fun i => (number, i)).toList ++ routineFrom (number + 1) rest := by
  unfold routineFrom
  rw [List.zipIdx_cons, List.filterMap_cons]
  cases instruction? line <;> rfl

/-- What the routine of a text consists of: the instructions on its lines, with numbers that count
from one. A number tells the line, and the line tells the instruction.

**Proof sketch.** The routine takes the lines with their numbers, and of these the ones that are
read as an instruction. -/
theorem mem_routine_iff {text : List Char} {number : Nat} {i : Instruction} :
    (number, i) ∈ routine text ↔
      1 ≤ number ∧ ∃ line, (Text.lines text)[number - 1]? = some line ∧
        readLine line = .ok (some i) := by
  have hread (line : List Char) : instruction? line = some i ↔ readLine line = .ok (some i) := by
    unfold instruction?
    cases readLine line <;> simp
  unfold routine routineFrom
  rw [List.mem_filterMap]
  constructor
  · rintro ⟨⟨line, k⟩, hmem, hi⟩
    obtain ⟨j, hj, heq⟩ := Option.map_eq_some_iff.1 hi
    cases heq
    obtain ⟨hle, hline⟩ := List.mk_mem_zipIdx_iff_le_and_getElem?_sub.1 hmem
    exact ⟨hle, line, hline, (hread line).1 hj⟩
  · rintro ⟨hle, line, hline, hi⟩
    refine ⟨(line, number), List.mk_mem_zipIdx_iff_le_and_getElem?_sub.2 ⟨hle, hline⟩, ?_⟩
    rw [(hread line).2 hi]
    rfl

/-- Instructions stand on lines of the text. The empty line that may follow the last line feed is
none of them.

**Proof sketch.** The last line does not count if it is empty, and an empty line has no
instruction. -/
theorem le_lineCount_of_mem_routine {text : List Char} {number : Nat} {i : Instruction}
    (h : (number, i) ∈ routine text) : number ≤ Text.lineCount text := by
  obtain ⟨hle, line, hline, hi⟩ := mem_routine_iff.1 h
  obtain ⟨hlt, hget⟩ := List.getElem?_eq_some_iff.1 hline
  unfold Text.lineCount
  split
  · rename_i hlast
    have hne : number ≠ (Text.lines text).length := by
      rintro rfl
      rw [← List.getLast?_eq_getElem?, hlast] at hline
      cases hline
      have hblank : readLine [] = .ok none := rfl
      rw [hblank] at hi
      cases hi
    omega
  · omega

/-! ## The chunk of a text -/

/-- Assembling lines appends their routine, with its lines as words.

**Proof sketch.** Induction on the lines. A line is blank and adds nothing to either, or its
instruction is appended by both. -/
theorem emitAll_of_assembleLines {lines : List (List Char)} {c d : Chunk} {index : Nat}
    (h : assembleLines c index lines = .ok d) :
    c.emitAll ((routineFrom (index + 1) lines).map (Prod.map lineWord id)) = .ok d := by
  induction lines generalizing c index with
  | nil => exact congrArg Except.ok (Except.ok.inj h)
  | cons line rest ih =>
    rw [routineFrom_cons, instruction?]
    unfold assembleLines at h
    split at h
    · contradiction
    · rename_i hread
      rw [hread]
      exact ih h
    · rename_i i hread
      rw [hread]
      split at h
      · contradiction
      · rename_i e hemit
        exact Chunk.emitAll_cons_eq_ok_iff.2 ⟨e, hemit, ih h⟩

/-- The chunk of a text is what its routine appends to nothing. With this a fact about assembled
chunks becomes one about routines. -/
theorem emitAll_of_assemble {text : String} {c : Chunk} (h : assemble text = .ok c) :
    Chunk.empty.emitAll ((routine text.toList).map (Prod.map lineWord id)) = .ok c :=
  emitAll_of_assembleLines h

/-- In a text that is not too long the numbers of lines are kept by words, so that words can be
turned back into numbers. -/
theorem map_toNat_lineWord {text : List Char} (h : Text.lineCount text ≤ 2 ^ 32 - 1) :
    ((routine text).map (Prod.map lineWord id)).map (Prod.map UInt32.toNat id) = routine text := by
  rw [List.map_map]
  refine (List.map_congr_left fun s hs => ?_).trans (List.map_id _)
  obtain ⟨number, i⟩ := s
  have hle := le_lineCount_of_mem_routine hs
  have hlt : number < UInt32.size := by
    have hsize : UInt32.size = 2 ^ 32 := rfl
    omega
  have hword : (lineWord number).toNat = number := by
    rw [lineWord, Nat.min_eq_left (by omega), UInt32.toNat_ofNat_of_lt' hlt]
  simp only [Function.comp, Prod.map, id, hword]

end Assembly

namespace Machine

variable {W : Type} [Output W]

/-- **The meaning of assembly text**: if a text is assembled, a call of its chunk gives the value or
the fault that the text has line by line, the number of the line at fault included, prints the same
text and leaves the same values. A fault belongs to the instruction on the line that it is blamed
on, reached with the values that the lines before it leave, and is one of the stack; or it is the
end of the text, which is blamed on its last instruction, or on line zero if it has none.

**Proof sketch.** The chunk is what the routine of the text appends to nothing, so a call does what
the routine is interpreted to do. Numbers of lines fit into words. Where an interpreted routine can
fail is `Routine.interpret_error_cases`. -/
theorem evaluate_assembled {text : String} {c : Chunk} (h : Assembly.assemble text = .ok c)
    (hlines : Text.lineCount text.toList ≤ 2 ^ 32 - 1) (m : Machine W)
    (hsink : Output.Reliable m.sink) :
    let p := Assembly.routine text.toList
    let out := p.interpret m.config.arithmetic m.config.capacity 0 []
    ((m.evaluate c).1.mapError fun e => (e.fault, e.line.toNat)) = out.result ∧
      (m.evaluate c).2.sink = Output.print m.sink out.printed ∧
      (m.evaluate c).2.stack.values = out.values ∧
      ∀ e, (m.evaluate c).1 = .error e →
        (e.fault = .endOfCode ∧ e.line.toNat = p.lastLine 0) ∨
          (e.fault = .stackUnderflow ∨ e.fault = .stackOverflow m.config.capacity) ∧
            ∃ (before : Routine Nat) (i : Instruction) (after : Routine Nat)
              (reached : List Value), p = before ++ (e.line.toNat, i) :: after ∧
                before.stackAfter m.config.arithmetic m.config.capacity [] = some reached ∧
                i.effect m.config.arithmetic m.config.capacity reached =
                  (.faulted e.fault, (m.evaluate c).2.stack.values) := by
  intro p out
  obtain ⟨hresult, hprinted, hvalues⟩ :=
    evaluate_emitted (Assembly.emitAll_of_assemble h) m hsink
  -- the interpretation over words of lines, told in numbers
  have hout : out = Routine.Outcome.mapLine UInt32.toNat
      (Routine.interpret m.config.arithmetic m.config.capacity 0 []
        (p.map (Prod.map Assembly.lineWord id))) := by
    rw [← Routine.interpret_mapLine, Assembly.map_toNat_lineWord hlines]
    rfl
  have hnumbers : ((m.evaluate c).1.mapError fun e => (e.fault, e.line.toNat)) = out.result := by
    rw [hout, Routine.Outcome.mapLine, hresult]
    cases (Routine.interpret _ _ _ _ _).result <;> rfl
  have hleft : (m.evaluate c).2.stack.values = out.values := by rw [hout]; exact hvalues
  refine ⟨hnumbers, by rw [hout]; exact hprinted, hleft, fun e he => ?_⟩
  have hfault : out.result = .error (e.fault, e.line.toNat) := by
    rw [← hnumbers, he]
    rfl
  rcases Routine.interpret_error_cases hfault with
    hend | ⟨before, i, after, reached, hp, hbefore, heffect⟩
  · exact .inl hend
  · refine .inr ⟨Routine.effect_fault_cases heffect, before, i, after, reached, hp, hbefore, ?_⟩
    rw [heffect, hleft]

/-- A division that lacks an operand is blamed on its line, comments and blank lines counted, and
has taken the operand that there was. The routine of the text is found by computation, and what
comes of it by the theorem above. -/
theorem evaluate_assembled_lone_operand :
    let text := "; half\nCONSTANT 1\nCONSTANT 2\nADD ; the only value\n\nDIVIDE\nRETURN\n"
    let m := new ⟨2, false, .ieee⟩ .unlimited
    ∃ c, Assembly.assemble text = .ok c ∧ Text.lineCount text.toList ≤ 2 ^ 32 - 1 ∧
      Output.Reliable m.sink ∧
      ((m.evaluate c).1.mapError fun e => (e.fault, e.line.toNat)) = .error (.stackUnderflow, 6) ∧
      (m.evaluate c).2.stack.values = [] ∧ (m.evaluate c).2.sink = m.sink := by
  intro text m
  obtain ⟨c, h⟩ : ∃ c, Assembly.assemble text = .ok c := by
    cases h : Assembly.assemble text with
    | ok c => exact ⟨c, rfl⟩
    | error e =>
      have hok : (Assembly.assemble text).isOk = true := by decide +kernel
      rw [h] at hok
      contradiction
  have hlines : Text.lineCount text.toList ≤ 2 ^ 32 - 1 := by decide +kernel
  have hsink : Output.Reliable m.sink := Sink.reliable_of_room rfl rfl
  obtain ⟨hresult, hprinted, hvalues, -⟩ := evaluate_assembled h hlines m hsink
  have hroutine : Assembly.routine text.toList =
      [(2, .load ⟨0x3FF0000000000000⟩), (3, .load ⟨0x4000000000000000⟩), (4, .binary .add),
        (6, .binary .divide), (7, .ret)] := by decide +kernel
  rw [hroutine] at hresult hprinted hvalues
  exact ⟨c, h, hlines, hsink, hresult, hvalues, hprinted⟩

end Machine

end ChunkMachine
