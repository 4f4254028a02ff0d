import ChunkMachine.Proofs.Listing.Rows
import ChunkMachine.Proofs.Machine.Frame

set_option relaxedAutoImplicit false
set_option autoImplicit false

/-!
# What a traced call tells

A machine that is set to do so makes a record before each of its steps: on a first line what is on
the stack, and behind that the row of the instruction. A listing shows the same rows without running
anything. So the records of a call can be laid beside the listing of its chunk: they go along with
it row by row and stop where the call does, and only a call that runs off the code tells more,
namely that it found nothing there.

## Main definitions

* `LogRecord.stackPart`, `LogRecord.instructionPart` — the two parts of a record, cut out of its
  message.

## Main results

* `Listing.not_mem_rowAt` — a row is on one line.
* `Listing.not_ended_rowAt` — no row within the code looks like the end of the code.
* `Machine.map_ip_befores` — machines are at the offsets at which their steps start.
* `Machine.evaluate_traced` — what the records of a call tell.
-/

namespace ChunkMachine

/-- The first line of a record's message, without its line feed. In the record of a step it shows
the stack. -/
def LogRecord.stackPart (r : LogRecord) : String :=
  String.ofList (r.message.toList.takeWhile (· ≠ '\n'))

/-- What comes behind the first line of a record's message. In the record of a step it is a row of
the listing. -/
def LogRecord.instructionPart (r : LogRecord) : String :=
  String.ofList ((r.message.toList.dropWhile (· ≠ '\n')).drop 1)

/-! ## Rows -/

namespace Listing

/-- The columns of a row: the offset in four digits or more, the line or the mark that stands for
it, and what is shown of the instruction. -/
theorem toList_rowAt_eq (c : Chunk) (offset : Nat) :
    (rowAt c offset).toList = (Text.number 4 '0' offset).toList ++
      ' ' :: ((markText (entryAt c offset).mark).toList ++
        ' ' :: (sightAt c offset).text.toList) := by
  refine (List.append_left_inj ['\n']).1 ?_
  rw [toList_rowAt]
  simp [Entry.row, entryAt]

/-- **A row is on one line.** No part of it has a line feed, and values are shown as numbers. -/
theorem not_mem_rowAt (c : Chunk) (offset : Nat) : '\n' ∉ (rowAt c offset).toList := by
  have hnumber {width : Nat} {fill : Char} (hfill : '\n' ≠ fill) (n : Nat) :
      '\n' ∉ (Text.number width fill n).toList := by
    rw [Text.toList_number, List.mem_append]
    rintro (hmem | hmem)
    · exact hfill (List.eq_of_mem_replicate hmem)
    · exact absurd (Text.isDigit_of_mem_toDigits hmem) (by decide)
  have hmark : ∀ mark, '\n' ∉ (markText mark).toList := by
    rintro (_ | line)
    · decide
    · exact hnumber (by decide) line.toNat
  have hsight := (legible_sightAt c offset).not_mem_text
  simp [toList_rowAt_eq, hnumber, hmark, hsight]

/-- Within the code something is shown, if only a byte that is no opcode or an operand that is
missing. -/
theorem sightAt_ne_ended {c : Chunk} {offset : Nat} (h : offset < c.code.size) :
    sightAt c offset ≠ .ended := by
  unfold sightAt
  rw [Array.getElem?_eq_getElem h]
  simp only
  split
  · simp
  · split <;> simp
  · simp

/-- What is shown within the code does not end like the text that stands for its end. Two characters
are enough to tell.

**Proof sketch.** By the sights. In most of them there is no such bracket at all, and a load ends
with a quotation mark. -/
theorem Sight.not_suffix_text {s : Sight} (h : s ≠ ended) : ¬ ['e', '>'] <:+ s.text.toList := by
  intro hsuffix
  have hmem : '>' ∈ s.text.toList := hsuffix.subset (by simp)
  cases s with
  | ended => exact h rfl
  | unknown byte =>
    have hdigits : '>' ∉ Nat.toDigits 10 byte.toNat := fun hdigit =>
      absurd (Text.isDigit_of_mem_toDigits hdigit) (by decide)
    simp [hdigits] at hmem
  | cutOff => exact absurd hsuffix (by decide)
  | load index value =>
    -- the text of the value may have such a bracket, but a quotation mark comes last
    obtain ⟨front, hfront⟩ := hsuffix
    rw [text_load, String.toList_append] at hfront
    have hlast := congrArg List.getLast? hfront
    rw [List.getLast?_append, List.getLast?_append] at hlast
    simp at hlast
  | plain op => rcases op with _ | ⟨_ | _ | _ | _⟩ | _ | _ <;> exact absurd hmem (by decide)

/-- What is shown has at least two characters, so that its end is not that of the column before
it. -/
theorem Sight.two_le_length_text (s : Sight) : 2 ≤ s.text.toList.length := by
  cases s with
  | ended => decide
  | unknown byte => simp
  | cutOff => decide
  | load index value => simp
  | plain op => rcases op with _ | ⟨_ | _ | _ | _⟩ | _ | _ <;> decide

/-- **No row within the code looks like the end of the code.** A reader of the rows can tell the
last one. -/
theorem not_ended_rowAt {c : Chunk} {offset : Nat} (h : offset < c.code.size) :
    ¬ "<end of code>".toList <:+ (rowAt c offset).toList := by
  intro hsuffix
  have hend : ['e', '>'] <:+ "<end of code>".toList := by decide
  have htext : (sightAt c offset).text.toList <:+ (rowAt c offset).toList := by
    rw [toList_rowAt_eq]
    have hmarked := (List.suffix_cons ' ' (sightAt c offset).text.toList).trans
      (List.suffix_append (markText (entryAt c offset).mark).toList _)
    exact hmarked.trans ((List.suffix_cons ' ' _).trans (List.suffix_append _ _))
  exact Sight.not_suffix_text (sightAt_ne_ended h)
    (List.suffix_of_suffix_length_le (hend.trans hsuffix) htext
      (sightAt c offset).two_le_length_text)

/-- The rows of a listing, as texts: one for each offset that the listing visits. -/
theorem map_text_rows (c : Chunk) : (rows c).map Row.text = c.offsets.map (rowAt c) := by
  rw [rows_eq, List.map_map]
  rfl

/-- The row at the end of the code. There is no line for that offset, so its column shows a zero or,
where the last byte has no line either, the mark for the same one. -/
theorem rowAt_size (c : Chunk) : rowAt c c.code.size = place c c.code.size ++ "<end of code>" := by
  rw [rowAt, instructionAt, Array.getElem?_eq_none (Nat.le_refl _)]

end Listing

namespace Machine

variable {W : Type}

/-! ## Records -/

/-- What is on the stack is shown on one line, however many values there are. -/
theorem not_mem_stackText (s : Stack) : '\n' ∉ (stackText s).toList := by
  have hvalue (v : Value) : '\n' ∉ s!"[ {v.text} ]".toList := by
    have htext : s!"[ {v.text} ]" = "[ " ++ v.text ++ " ]" := rfl
    simp [htext, v.not_mem_text]
  simp only [stackText, String.toList_join, List.mem_flatMap, List.mem_map]
  rintro ⟨_, ⟨v, -, rfl⟩, hmem⟩
  exact hvalue v hmem

/-- The message of a step, cut at its first line feed. The part in front of it has no line feed of
its own, so that it is told from what comes behind. -/
theorem toList_message_stepRecord (m : Machine W) (c : Chunk) :
    (m.stepRecord c).message.toList =
      ("          " ++ stackText m.stack).toList ++ '\n' :: (Listing.rowAt c m.ip).toList ∧
    ∀ x ∈ ("          " ++ stackText m.stack).toList, decide (x ≠ '\n') = true := by
  refine ⟨by simp [stepRecord], fun x hx => decide_eq_true ?_⟩
  rintro rfl
  simp [not_mem_stackText] at hx

/-- The first part of a record shows the stack, indented as far as the places of the listing. -/
theorem stackPart_stepRecord (m : Machine W) (c : Chunk) :
    (m.stepRecord c).stackPart = "          " ++ stackText m.stack := by
  obtain ⟨hmessage, hline⟩ := m.toList_message_stepRecord c
  rw [LogRecord.stackPart, hmessage, Run.takeWhile_append_stop hline (by simp),
    String.ofList_toList]

/-- The second part of a record is the row of the instruction, exactly as the listing has it. -/
theorem instructionPart_stepRecord (m : Machine W) (c : Chunk) :
    (m.stepRecord c).instructionPart = Listing.rowAt c m.ip := by
  obtain ⟨hmessage, hline⟩ := m.toList_message_stepRecord c
  rw [LogRecord.instructionPart, hmessage, Run.dropWhile_append_stop hline (by simp),
    List.drop_one, List.tail_cons, String.ofList_toList]

/-! ## Calls -/

variable [Output W]

/-- Before each step a machine is where the step starts.

**Proof sketch.** Induction on the run: a step notes where it starts. -/
theorem Run.map_ip {c : Chunk} {m : Machine W} {ss : List (StepResult × Machine W)}
    {out : Except Fault Value × Machine W} (h : Run c m ss out) :
    (m :: (ss.map Prod.snd).dropLast).map Machine.ip = ss.map fun s => s.2.current := by
  induction h with
  | last h => simp [current_of_step h]
  | @next m m' ss out h hrest ih =>
    have hne : ss.map Prod.snd ≠ [] := by cases hrest <;> simp
    rw [List.map_cons, List.map_cons, List.map_cons, List.dropLast_cons_of_ne_nil hne, ih,
      current_of_step h]

/-- **Machines are at the offsets at which their steps start.** So their records show the rows of
these offsets. -/
theorem map_ip_befores (m : Machine W) (c : Chunk) :
    (m.befores c).map Machine.ip = m.starts c :=
  (m.run_steps c).map_ip

/-- There is a machine before each step, the one that ends the run included. -/
theorem length_befores (m : Machine W) (c : Chunk) : (m.befores c).length = (m.steps c).length := by
  have hlength := congrArg List.length (m.map_ip_befores c)
  rwa [List.length_map, starts, List.length_map] at hlength

/-- The second parts of the records of a run are the rows at the offsets at which its steps
start. -/
theorem map_instructionPart_befores (m : Machine W) (c : Chunk) :
    ((m.befores c).map fun before => before.stepRecord c).map LogRecord.instructionPart =
      (m.starts c).map (Listing.rowAt c) := by
  rw [← map_ip_befores, List.map_map, List.map_map]
  exact List.map_congr_left fun before _ => before.instructionPart_stepRecord c

/-- **What the records of a call tell.** A call of any chunk, on a machine with any stack and any
output, does the same if every instruction is recorded and if none is. If they are recorded:

* there is one record for every step, of the level and from the part of the program that such
  records are from;
* their second parts are the first rows of the listing, one after another, or they are all of its
  rows and one more, which shows the end of the code. In the latter case the call ends for want of
  code. The rows are on one line each, so that the listing can be cut into them, and none of them
  looks like the end of the code;
* their first parts show the values that were on the stack before the step, from the bottom to the
  top.

**Proof sketch.** A call does not see its frame, and adds the records of the machines before its
steps. These are at the offsets at which the steps start, so that `Run.starts_cases` tells the
rows. -/
theorem evaluate_traced (m : Machine W) (c : Chunk) :
    let traced := m.framed true m.log m.failure
    let quiet := m.framed false m.log m.failure
    let rows := (Listing.rows c).map Listing.Row.text
    ((traced.evaluate c).1 = (quiet.evaluate c).1 ∧
      (traced.evaluate c).2.sink = (quiet.evaluate c).2.sink ∧
      (traced.evaluate c).2.stack = (quiet.evaluate c).2.stack) ∧
    ((∀ name, Listing.render c name = s!"== {name} ==\n" ++ Listing.unlines rows) ∧
      ∀ row ∈ rows, '\n' ∉ row.toList ∧ ¬ "<end of code>".toList <:+ row.toList) ∧
    ∃ records : List LogRecord,
      (traced.evaluate c).2.log = m.log ++ records.toArray ∧
      records.length = (quiet.reset.steps c).length ∧
      (∀ r ∈ records, r.level = .trace ∧ r.target = "lox_vm::exec") ∧
      (records.map LogRecord.instructionPart <+: rows ∨
        records.map LogRecord.instructionPart =
            rows ++ [Listing.place c c.code.size ++ "<end of code>"] ∧
          ∃ line, (traced.evaluate c).1 = .error ⟨.endOfCode, line⟩) ∧
      records.map LogRecord.stackPart = (quiet.reset.befores c).map fun before =>
        "          " ++
          String.join (before.stack.bottomUp.map fun v => "[ " ++ v.text ++ " ]") := by
  intro traced quiet rows
  have hcall : traced.evaluate c = _ := evaluate_framed quiet true m.log m.failure c
  have hrows : rows = c.offsets.map (Listing.rowAt c) := Listing.map_text_rows c
  refine ⟨?_, ⟨fun name => rfl, ?_⟩, (quiet.reset.befores c).map fun before => before.stepRecord c,
    ?_, ?_, ?_, ?_, ?_⟩
  · rw [hcall]
    exact ⟨rfl, rfl, rfl⟩
  · rw [hrows, List.forall_mem_map]
    exact fun offset hoffset => ⟨Listing.not_mem_rowAt c offset,
      Listing.not_ended_rowAt (Chunk.lt_size_of_mem_offsets hoffset)⟩
  · rw [hcall]
    rfl
  · rw [List.length_map, length_befores]
  · rw [List.forall_mem_map]
    exact fun _ _ => ⟨rfl, rfl⟩
  · rw [map_instructionPart_befores, hrows, hcall]
    rcases (quiet.reset.run_steps c).starts_cases (Nat.zero_le _) with hstarts | ⟨hall, hend⟩
    · exact .inl (hstarts.map _)
    · refine .inr ⟨?_, _, evaluate_fst_eq_error_iff.2 ⟨hend, rfl⟩⟩
      rw [starts, hall, List.map_append, List.map_singleton, Listing.rowAt_size]
      rfl
  · rw [List.map_map]
    exact List.map_congr_left fun before _ => before.stackPart_stepRecord c

-- a load without a return: the call runs off the code, and tells one row more than the listing has
example :
    let c : Chunk := ⟨#[0, 0], #[7, 7], #[⟨0x7FF8000000000000⟩]⟩
    let records := ((new ⟨1, true, .ieee⟩ .unlimited).evaluate c).2.log.toList
    (Listing.rows c).map Listing.Row.text = ["0000    7 OP_CONSTANT         0 'NaN'"] ∧
      records.map LogRecord.instructionPart =
        ["0000    7 OP_CONSTANT         0 'NaN'", "0002    0 <end of code>"] ∧
      records.map LogRecord.stackPart = ["          ", "          [ NaN ]"] := by
  decide +kernel

end Machine

end ChunkMachine
