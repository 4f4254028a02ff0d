import ChunkMachine.Proofs.Machine.Returning
import ChunkMachine.Proofs.Shell.Session

set_option relaxedAutoImplicit false
set_option autoImplicit false

/-!
# Assembly at the prompt

Lines of assembly that are typed at the prompt fall into programs. A program ends at each line that
begins with the name of the return instruction, and what is left at the end of the input is a
program too, unless it holds no word. Every line is in exactly one program, and every program does
what it does in a fresh shell.

## Main definitions

* `Repl.Groups` — how lines fall into programs and a remainder.
* `Repl.alone` — what comes of some lines in a fresh shell.

## Main results

* `Repl.endsProgram_iff`, `Repl.hasWords_iff` — the tests of the prompt, in terms of the assembler.
* `Repl.Groups.unique` — lines fall into programs in one way.
* `Repl.runLines_assembly` — lines are run program by program.
* `Repl.run_assembly` — so is a whole input, of which nothing is lost or repeated.
-/

namespace ChunkMachine.Repl

open Assembly

/-! ## Programs -/

/-- The prompt tells a return instruction by the first word of its line, whatever else is on that
line. -/
theorem endsProgram_iff {line : List Char} : endsProgram line = true ↔ Returns line := by
  unfold endsProgram Returns
  rw [decide_eq_true_iff]
  cases lineWords line with
  | nil => simp
  | cons word rest => simp

/-- The prompt runs what is left unless it is assembled to nothing. It looks at the words only, and
text that cannot be assembled is run, too, so that its error is told. -/
theorem hasWords_iff {text : String} :
    hasWords text = true ↔ (assemble text).toOption ≠ some .empty := by
  rw [Ne, toOption_eq_some_iff, assemble_eq_ok_empty_iff]
  simp [hasWords]

/-- Lines fall into programs, each of which ends at its only line with a return, and a remainder
without a return. Nothing is said here of whether they can be assembled. -/
structure Groups (lines : List (List Char)) (programs : List (List (List Char)))
    (remainder : List (List Char)) : Prop where
  /-- The programs and the remainder are the lines, in their order. -/
  lines_eq : lines = programs.flatten ++ remainder
  /-- A program ends at its only line with a return. -/
  ends : ∀ program ∈ programs, ∃ body last, program = body ++ [last] ∧ Returns last ∧
    ∀ line ∈ body, ¬ Returns line
  /-- There is no return in the remainder. -/
  remainder : ∀ line ∈ remainder, ¬ Returns line

namespace Groups

variable {lines remainder : List (List Char)} {programs : List (List (List Char))}

/-- One more program in front, which ends at a line with a return. -/
theorem cons (h : Groups lines programs remainder) {body : List (List Char)} {last : List Char}
    (hbody : ∀ line ∈ body, ¬ Returns line) (hlast : Returns last) :
    Groups (body ++ last :: lines) ((body ++ [last]) :: programs) remainder := by
  refine ⟨?_, ?_, h.remainder⟩
  · simp [h.lines_eq]
  · intro program hprogram
    rcases List.mem_cons.1 hprogram with rfl | hprogram
    · exact ⟨body, last, rfl, hlast, hbody⟩
    · exact h.ends program hprogram

/-- One program less in front. The remainder stays what it is. -/
theorem tail {program : List (List Char)} (h : Groups lines (program :: programs) remainder) :
    Groups (programs.flatten ++ remainder) programs remainder :=
  ⟨rfl, fun p hp => h.ends p (List.mem_cons_of_mem _ hp), h.remainder⟩

/-- Without a return there is no program, and all lines remain. -/
theorem programs_eq_nil (h : Groups lines programs remainder)
    (hlines : ∀ line ∈ lines, ¬ Returns line) : programs = [] := by
  cases programs with
  | nil => rfl
  | cons program rest =>
    obtain ⟨body, last, rfl, hlast, -⟩ := h.ends program List.mem_cons_self
    exact absurd hlast (hlines last (by simp [h.lines_eq]))

/-- The lines of a program, and those that remain, are lines of the text: all but the last of them
end with a line feed. -/
theorem lined (h : Groups lines programs remainder) (hlined : Lined '\n' lines) :
    (∀ program ∈ programs, Lined '\n' program) ∧ Lined '\n' remainder := by
  rw [h.lines_eq] at hlined
  refine ⟨fun program hprogram => ?_, hlined.of_append_right⟩
  obtain ⟨before, after, rfl⟩ := List.append_of_mem hprogram
  rw [List.flatten_append, List.flatten_cons, List.append_assoc, List.append_assoc] at hlined
  exact hlined.of_append_right.of_append_left

/-- **Lines fall into programs in one way.**

**Proof sketch.** Induction on the programs. The first program ends at the first line with a
return, whichever way the lines are grouped. -/
theorem unique (h : Groups lines programs remainder) {programs' : List (List (List Char))}
    {remainder' : List (List Char)} (h' : Groups lines programs' remainder') :
    programs = programs' ∧ remainder = remainder' := by
  induction programs generalizing lines programs' with
  | nil =>
    have hlines : lines = remainder := h.lines_eq
    obtain rfl := h'.programs_eq_nil (hlines ▸ h.remainder)
    exact ⟨rfl, hlines.symm.trans h'.lines_eq⟩
  | cons first rest ih =>
    cases programs' with
    | nil =>
      have hlines : lines = remainder' := h'.lines_eq
      have hnil := h.programs_eq_nil (hlines ▸ h'.remainder)
      contradiction
    | cons first' rest' =>
      obtain ⟨body, last, rfl, hlast, hbody⟩ := h.ends first List.mem_cons_self
      obtain ⟨body', last', rfl, hlast', hbody'⟩ := h'.ends first' List.mem_cons_self
      have hlines := h.lines_eq.symm.trans h'.lines_eq
      simp only [List.flatten_cons, List.append_assoc, List.singleton_append] at hlines
      obtain ⟨rfl, rfl, hrest⟩ :
          body = body' ∧ last = last' ∧
            rest.flatten ++ remainder = rest'.flatten ++ remainder' := by
        rcases List.append_eq_append_iff.1 hlines with ⟨more, rfl, hmore⟩ | ⟨more, rfl, hmore⟩
        · cases more with
          | nil => simpa using hmore
          | cons line more =>
            obtain ⟨rfl, -⟩ := List.cons.inj hmore
            exact absurd hlast (hbody' last (by simp))
        · cases more with
          | nil => simpa [eq_comm] using hmore
          | cons line more =>
            obtain ⟨rfl, -⟩ := List.cons.inj hmore
            exact absurd hlast' (hbody last' (by simp))
      obtain ⟨hprograms, hremainder⟩ := ih h.tail (hrest ▸ h'.tail)
      exact ⟨congrArg _ hprograms, hremainder⟩

end Groups

/-! ## Running lines -/

/-- What comes of some lines in a fresh shell, which is what the lines of a session are compared
with. The files are those at the prompt. -/
def alone (options : ShellOptions) (color : Bool) (d : Disk) (program : List (List Char)) :
    Outcome Verdict :=
  ((Shell.new options color).submit Disk.fileSystem (String.ofList program.flatten) inputName d).1

/-- What is left is run unless it is assembled to nothing. Blank lines and comments at the end of an
input are no program. -/
def leftover (remainder : List (List Char)) : List (List (List Char)) :=
  if (assemble (String.ofList remainder.flatten)).toOption = some .empty then [] else [remainder]

/-- The bytes of the prompt, a number of times. Prompts stand next to each other while lines
wait. -/
def prompts (prompt : String) (n : Nat) : List UInt8 :=
  (List.replicate n (Sink.textBytes prompt)).flatten

/-- The last of some prompts stands behind the others. -/
theorem prompts_succ (prompt : String) (n : Nat) :
    prompts prompt (n + 1) = prompts prompt n ++ Sink.textBytes prompt := by
  simp [prompts, List.replicate_succ']

/-- What is written for programs and a remainder, if it is known what each of them writes: a prompt
for every line and one for the end, and behind the lines of a program what the program writes. -/
def transcript (prompt : String) (output : List (List Char) → List UInt8)
    (programs : List (List (List Char))) (remainder : List (List Char)) : List UInt8 :=
  (programs.flatMap fun program => prompts prompt program.length ++ output program) ++
    prompts prompt (remainder.length + 1) ++ (leftover remainder).flatMap output

/-- What is written for a first program stands in front of everything else. -/
theorem transcript_cons (prompt : String) (output : List (List Char) → List UInt8)
    (program : List (List Char)) (programs : List (List (List Char)))
    (remainder : List (List Char)) :
    transcript prompt output (program :: programs) remainder =
      prompts prompt program.length ++ output program ++
        transcript prompt output programs remainder := by
  simp [transcript]

section Steps

variable {options : ShellOptions} {color : Bool} {s : Shell} (prompt : String) (d : Disk)

/-- Lines that are run at the prompt add what they give in a fresh shell. The text that waits is not
touched by this. -/
theorem submit_apply (pending : String) (h : s.Ready options color) (hemit : options.emit = none)
    (program : List (List Char)) :
    ∃ t, (Repl.mk prompt s pending).submit Disk.fileSystem (String.ofList program.flatten) d =
        ((⟨prompt, t, pending⟩, .ok ()), d) ∧ t.Ready options color ∧
      t.machine.sink.content =
        s.machine.sink.content ++ (alone options color d program).1.machine.sink.content ∧
      t.notices = s.notices ++ (alone options color d program).1.notices := by
  obtain ⟨t, hsubmit, hready, hcontent, hnotices, verdict, hverdict⟩ :=
    h.submit hemit (String.ofList program.flatten) inputName d
  refine ⟨t, ?_, hready, hcontent, hnotices⟩
  rw [Repl.submit, Disk.bind_apply, hsubmit, hverdict]
  rfl

/-- The end of the input runs what is left, which adds what it gives in a fresh shell, or
nothing.

**Proof sketch.** By whether there are words in what is left. If there are, it is run by
`submit_apply`, and otherwise nothing happens. -/
theorem finish_apply (h : s.Ready options color) (hemit : options.emit = none)
    (remainder : List (List Char)) :
    ∃ r, (Repl.mk prompt s (String.ofList remainder.flatten)).finish Disk.fileSystem d =
        ((r, .ok ()), d) ∧
      r.shell.machine.sink.content = s.machine.sink.content ++ (leftover remainder).flatMap
        (fun program => (alone options color d program).1.machine.sink.content) ∧
      r.shell.notices.toList = s.notices.toList ++ (leftover remainder).flatMap
        (fun program => (alone options color d program).1.notices.toList) := by
  rw [finish]
  by_cases hwords : hasWords (String.ofList remainder.flatten) = true
  · have hleft : leftover remainder = [remainder] := if_neg (hasWords_iff.1 hwords)
    obtain ⟨t, hsubmit, -, hwritten, htold⟩ := submit_apply prompt d
      (String.ofList remainder.flatten) h hemit remainder
    refine ⟨⟨prompt, t, String.ofList remainder.flatten⟩, ?_, ?_, ?_⟩
    · simp only [hwords, if_true]
      exact hsubmit
    · simp [hleft, hwritten]
    · simp [hleft, htold]
  · have hleft : leftover remainder = [] :=
      if_pos (Decidable.not_not.1 fun hne => hwords (hasWords_iff.2 hne))
    refine ⟨⟨prompt, s, String.ofList remainder.flatten⟩, ?_, ?_, ?_⟩
    · simp only [hwords]
      rfl
    · simp [hleft]
    · simp [hleft]

/-- A line of assembly waits, unless it has a return. Then it is run together with the lines that
wait. -/
theorem feed_assembly {r : Repl} (h : r.shell.options.assembly = true) (line : List Char) :
    r.feed Disk.fileSystem line =
      if endsProgram line then
        Repl.submit Disk.fileSystem { r with pending := "" } (r.pending ++ String.ofList line)
      else pure ({ r with pending := r.pending ++ String.ofList line }, .ok ()) := by
  rw [feed, if_pos h]

/-- A line that was taken leaves the others to the prompt as it is then. -/
theorem runLines_cons {r r' : Repl} {d : Disk} {line : List UInt8} (rest : List (List UInt8))
    (h : r.ask.feed Disk.fileSystem (Text.decodeUtf8 line) d = ((r', .ok ()), d)) :
    r.runLines Disk.fileSystem (line :: rest) d = r'.runLines Disk.fileSystem rest d := by
  rw [runLines, Disk.bind_apply, h]

/-- **Lines are run program by program.** A prompt at which lines are waiting, after what was
written and a prompt for each of them, runs the programs that the lines fall into with those that
come, and then what is left.

**Proof sketch.** Induction on the lines that come. A line with a return ends a program, which adds
what it gives in a fresh shell, and no line waits any longer; any other line waits with the
others. -/
theorem runLines_assembly (hassembly : options.assembly = true) (hemit : options.emit = none)
    (ls : List (List UInt8)) (waiting : List (List Char)) (written : List UInt8)
    (hready : s.Ready options color)
    (hcontent : s.machine.sink.content = written ++ prompts prompt waiting.length)
    (hwaiting : ∀ line ∈ waiting, ¬ Returns line) :
    ∃ programs remainder r, Groups (waiting ++ ls.map Text.decodeUtf8) programs remainder ∧
      (Repl.mk prompt s (String.ofList waiting.flatten)).runLines Disk.fileSystem ls d =
        ((r, .ok ()), d) ∧
      r.shell.machine.sink.content = written ++ transcript prompt
        (fun program => (alone options color d program).1.machine.sink.content)
        programs remainder ∧
      r.shell.notices.toList = s.notices.toList ++ (programs ++ leftover remainder).flatMap
        (fun program => (alone options color d program).1.notices.toList) := by
  induction ls generalizing s waiting written with
  | nil =>
    obtain ⟨hasked, hprinted⟩ := hready.print prompt
    obtain ⟨r, hrun, hout, htold⟩ := finish_apply prompt d hasked hemit waiting
    refine ⟨[], waiting, r, ?_, hrun, ?_, htold⟩
    · exact ⟨List.append_nil waiting, nofun, hwaiting⟩
    · simp [hout, hprinted, hcontent, transcript, prompts_succ]
  | cons line rest ih =>
    obtain ⟨hasked, hprinted⟩ := hready.print prompt
    rw [hcontent, List.append_assoc, ← prompts_succ] at hprinted
    have hpending : String.ofList waiting.flatten ++ String.ofList (Text.decodeUtf8 line) =
        String.ofList (waiting ++ [Text.decodeUtf8 line]).flatten := by
      simp [String.ofList_append]
    have hfeed : (Repl.mk prompt s (String.ofList waiting.flatten)).ask.feed Disk.fileSystem
        (Text.decodeUtf8 line) =
          if endsProgram (Text.decodeUtf8 line) then
            Repl.submit Disk.fileSystem ⟨prompt, s.print prompt, ""⟩
              (String.ofList (waiting ++ [Text.decodeUtf8 line]).flatten)
          else pure (⟨prompt, s.print prompt,
            String.ofList (waiting ++ [Text.decodeUtf8 line]).flatten⟩, .ok ()) := by
      rw [feed_assembly ((congrArg ShellOptions.assembly hasked.options_eq).trans hassembly),
        ← hpending]
      rfl
    by_cases hends : endsProgram (Text.decodeUtf8 line) = true
    · obtain ⟨t, hsubmit, ht, hwritten, htold⟩ := submit_apply prompt d "" hasked hemit
        (waiting ++ [Text.decodeUtf8 line])
      rw [if_pos hends] at hfeed
      obtain ⟨programs, remainder, r, hgroups, hrun, hout, hnotices⟩ :=
        ih [] t.machine.sink.content ht (List.append_nil _).symm nofun
      refine ⟨(waiting ++ [Text.decodeUtf8 line]) :: programs, remainder, r, ?_, ?_, ?_, ?_⟩
      · exact hgroups.cons hwaiting (endsProgram_iff.1 hends)
      · rw [runLines_cons rest ((congrFun hfeed d).trans hsubmit)]
        exact hrun
      · rw [hout, hwritten, hprinted, transcript_cons]
        simp
      · rw [hnotices, htold]
        simp [Shell.print]
    · rw [if_neg hends] at hfeed
      have hmore : ∀ l ∈ waiting ++ [Text.decodeUtf8 line], ¬ Returns l := by
        intro l hl
        rcases List.mem_append.1 hl with hl | hl
        · exact hwaiting l hl
        · rw [List.mem_singleton.1 hl, ← endsProgram_iff]
          exact hends
      obtain ⟨programs, remainder, r, hgroups, hrun, hout, hnotices⟩ :=
        ih (waiting ++ [Text.decodeUtf8 line]) written hasked
          (by rw [hprinted, List.length_append]; rfl) hmore
      refine ⟨programs, remainder, r, ?_, ?_, hout, hnotices⟩
      · rw [List.append_assoc] at hgroups
        exact hgroups
      · rw [runLines_cons rest (congrFun hfeed d)]
        exact hrun

end Steps

/-! ## Whole inputs -/

/-- **The prompt loses and repeats nothing.** The lines of an input, one after the other, are the
decoded input. They fall into programs and a remainder, and these are what is run, in this order:
the prompt is shown once for every line and once more for the end of the input, and what each
program writes and tells is what it writes and tells in a fresh shell. A program does not reach the
end of its code, and a remainder does not return a value.

**Proof sketch.** Decoding line by line is decoding at once by `Lined.decodeUtf8`, and no line waits
at the start of `runLines_assembly`. Programs have a line with a return and remainders have none, so
the rest is `Machine.fault_ne_endOfCode` and `Machine.evaluate_ne_ok`. -/
theorem run_assembly {options : ShellOptions} (hassembly : options.assembly = true)
    (hemit : options.emit = none) (color : Bool) (prompt : String) (input : List UInt8) (d : Disk) :
    let lines := (byteLines input).map Text.decodeUtf8
    let alone := alone options color d
    Lined '\n' lines ∧ lines.flatten = Text.decodeUtf8 input ∧
      ∃ programs remainder r, Groups lines programs remainder ∧
        (new prompt (Shell.new options color)).run Disk.fileSystem input d = ((r, .ok ()), d) ∧
        r.shell.machine.sink.content = transcript prompt
          (fun program => (alone program).1.machine.sink.content) programs remainder ∧
        r.shell.notices.toList = (programs ++ leftover remainder).flatMap
          (fun program => (alone program).1.notices.toList) ∧
        (∀ program ∈ programs, ∀ c, assemble (String.ofList program.flatten) = .ok c →
          ∀ m : Machine, Output.Reliable m.sink →
            ∀ e, (m.evaluate c).1 = .error e → e.fault ≠ .endOfCode) ∧
        ∀ c, assemble (String.ofList remainder.flatten) = .ok c →
          ∀ m : Machine, Output.Reliable m.sink → ∀ v, (m.evaluate c).1 ≠ .ok v := by
  intro lines alone
  obtain ⟨hbytes, hinput⟩ := lined_byteLines input
  obtain ⟨hlined, hdecoded⟩ := hbytes.decodeUtf8
  rw [hinput] at hdecoded
  obtain ⟨programs, remainder, r, hgroups, hrun, hcontent, hnotices⟩ :=
    runLines_assembly prompt d hassembly hemit (byteLines input) [] []
      (Shell.ready_new options color) rfl nofun
  obtain ⟨hprograms, hremainder⟩ := hgroups.lined hlined
  refine ⟨hlined, hdecoded, programs, remainder, r, hgroups, hrun, hcontent, hnotices, ?_, ?_⟩
  · intro program hprogram c hc m hsink e he
    obtain ⟨body, last, rfl, hlast, -⟩ := hgroups.ends program hprogram
    exact Machine.fault_ne_endOfCode (hprograms _ hprogram) hc hsink
      ⟨last, by simp, hlast⟩ he
  · intro c hc m hsink v
    exact Machine.evaluate_ne_ok hremainder hc hsink hgroups.remainder v

/-- A comment that is no text, a return instruction in small letters, and an unfinished program,
which is run at the end of the input and fails for want of a value. -/
theorem run_assembly_unfinished :
    let options : ShellOptions := ⟨true, none, false, false, false, none⟩
    let d : Disk := ⟨⟨[]⟩, []⟩
    let input :=
      Sink.textBytes "CONSTANT 2 ; " ++ [0xFF] ++ Sink.textBytes "\r\nop_return ; done\nADD\n"
    let first := ["CONSTANT 2 ; \uFFFD\r\n".toList, "op_return ; done\n".toList]
    let last := ["ADD\n".toList]
    options.assembly = true ∧ options.emit = none ∧
      Groups ((byteLines input).map Text.decodeUtf8) [first] last ∧
      (∃ r, (new "> " (Shell.new options false)).run Disk.fileSystem input d = ((r, .ok ()), d) ∧
        r.shell.machine.sink.content = Sink.textBytes "> > 2\n> > " ∧
        r.shell.notices.toList =
          [.record ⟨.debug, "lox_vm::vm", "runtime error: Stack underflow. line=1"⟩,
            .diagnostic "Stack underflow.\n[line 1] in script"]) ∧
      ∀ c, assemble (String.ofList last.flatten) = .ok c → ∀ v,
        ((Machine.new .standard .unlimited).evaluate c).1 ≠ .ok v := by
  intro options d input first last
  have hreturns {line : List Char} (h : endsProgram line = true) : Returns line :=
    endsProgram_iff.1 h
  have hwaits {line : List Char} (h : endsProgram line = false) : ¬ Returns line := by
    rw [← endsProgram_iff, h]
    exact Bool.false_ne_true
  have hlines : (byteLines input).map Text.decodeUtf8 = first ++ last := by decide +kernel
  have hgroups : Groups ((byteLines input).map Text.decodeUtf8) [first] last := by
    refine ⟨by simpa using hlines, fun program hprogram => ?_, fun line hline => ?_⟩
    · obtain rfl := List.mem_singleton.1 hprogram
      refine ⟨[_], _, rfl, hreturns (by decide +kernel), fun line hline => ?_⟩
      obtain rfl := List.mem_singleton.1 hline
      exact hwaits (by decide +kernel)
    · obtain rfl := List.mem_singleton.1 hline
      exact hwaits (by decide +kernel)
  have hassembly : options.assembly = true := rfl
  have hemit : options.emit = none := rfl
  obtain ⟨-, -, programs, remainder, r, hgroups', hrun, hcontent, hnotices, -, hunfinished⟩ :=
    run_assembly hassembly hemit false "> " input d
  obtain ⟨rfl, rfl⟩ := hgroups'.unique hgroups
  refine ⟨hassembly, hemit, hgroups, ⟨r, hrun, ?_, ?_⟩, fun c hc v => ?_⟩
  · rw [hcontent]
    decide +kernel
  · rw [hnotices]
    decide +kernel
  · exact hunfinished c hc (Machine.new .standard .unlimited) (Sink.reliable_of_room rfl rfl) v

end ChunkMachine.Repl
