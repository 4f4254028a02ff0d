import ChunkMachine.Proofs.Shell.Session
import ChunkMachine.Shell.Repl

set_option relaxedAutoImplicit false
set_option autoImplicit false

/-!
# Turns at the prompt

At the prompt a session goes in turns: the prompt is shown, a line is taken, and perhaps a program
is run. Which programs these are depends on the lines alone, and what comes of each of them is what
comes of it in a fresh shell, on the files that the turns before have left. The session ends with
the input, or with the first turn whose image cannot be written.

So all that a shell shows besides can be told turn by turn, and a session of a shell that shows
nothing besides is the same session without it.

## Main definitions

* `Repl.taken`, `Repl.programs` — the programs that lines are run as.
* `Turn`, `Repl.turn`, `Repl.turns` — what comes of programs, each in a fresh shell.
* `Turn.shown` — what is written before the program of a turn is run.

## Main results

* `Repl.runLines_eq` — a session writes and tells what its turns do, and ends as the last one.
* `Shell.agrees_with_quiet` — what is shown besides changes nothing else, of a file or of a session.
-/

namespace ChunkMachine

/-- A turn at the prompt: the program that is run in it, if there is one, the files before and
behind it, the verdict, if there is one, and what is told, traces aside, and written. -/
structure Turn (σ : Type) where
  /-- The program that is run, if there is one. -/
  program : Option String
  /-- The files before the turn. -/
  before : σ
  /-- The files behind the turn. -/
  after : σ
  /-- The verdict on the program, or the reason why its image could not be written. -/
  result : Except WriteError (Option Verdict)
  /-- What is told, traces aside. -/
  told : List Notice
  /-- What is written, but for the prompt. -/
  output : List UInt8

/-- What a shell with some options writes before it runs the program of a turn. In a turn without a
program there is nothing to be shown. -/
def Turn.shown {σ : Type} (fs : FileSystem (StateM σ)) (o : ShellOptions) (t : Turn σ) :
    List UInt8 :=
  match t.program with
  | none => []
  | some text => Shell.shownForText fs o text Repl.inputName t.before

namespace Repl

/-- The program that a line completes, if it does, and the text that waits behind it. Source text
never waits, and a line of assembly waits for the next return. -/
def taken (assembly : Bool) (pending : String) (line : List Char) : Option String × String :=
  if assembly then
    if endsProgram line then (some (pending ++ String.ofList line), "")
    else (none, pending ++ String.ofList line)
  else (some (String.ofList line), pending)

/-- The program of every turn that lines make, and of the turn that the end of the input makes. It
depends on the lines alone, and not on what comes of the programs. -/
def programs (assembly : Bool) (pending : String) : List (List Char) → List (Option String)
  | [] => [if hasWords pending then some pending else none]
  | line :: rest =>
    (taken assembly pending line).1 :: programs assembly (taken assembly pending line).2 rest

section Turns

variable {σ : Type} (fs : FileSystem (StateM σ)) (o : ShellOptions) (color : Bool)

/-- What comes of a program in a fresh shell. A turn without a program has no verdict, and leaves
the files alone. -/
def turn (program : Option String) (d : σ) : Turn σ :=
  match program with
  | none => ⟨none, d, d, .ok none, [], []⟩
  | some text =>
    let out := (Shell.new o color).submit fs text inputName d
    ⟨some text, d, out.2, out.1.2.map some, out.1.1.told, out.1.1.machine.sink.content⟩

/-- What comes of programs, one after another, until an image cannot be written. Each program finds
the files that the one before has left. -/
def turns : List (Option String) → σ → List (Turn σ)
  | [], _ => []
  | program :: rest, d =>
    let t := turn fs o color program d
    t :: match t.result with
      | .error _ => []
      | .ok _ => turns rest t.after

/-- A program on its own makes one turn, whether or not its image can be written. -/
theorem turns_singleton (program : Option String) (d : σ) :
    turns fs o color [program] d = [turn fs o color program d] := by
  simp only [turns]
  split <;> rfl

end Turns

/-! ## Turns and shells -/

/-- The second shell is the first one of a session after a turn, ready for the next one. -/
structure Takes {σ : Type} (o : ShellOptions) (color : Bool) (t : Turn σ) (s s' : Shell) :
    Prop where
  /-- It is ready for the next turn. -/
  ready : s'.Ready o color
  /-- What the turn writes is written behind what was written before. -/
  content_eq : s'.machine.sink.content = s.machine.sink.content ++ t.output
  /-- What the turn tells is told behind what was told before. -/
  told_eq : s'.told = s.told ++ t.told

/-- A turn that follows a prompt is written behind it, and the prompt tells nothing. -/
theorem Takes.behind_prompt {σ : Type} {o : ShellOptions} {color : Bool} {t : Turn σ}
    {s s' : Shell} {prompt : String} (ht : Takes o color t (s.print prompt) s')
    (h : s.Ready o color) :
    s'.machine.sink.content =
        s.machine.sink.content ++ (Sink.textBytes prompt ++ t.output) ∧
      s'.told = s.told ++ t.told := by
  obtain ⟨-, hprinted⟩ := h.print prompt
  refine ⟨?_, ht.told_eq⟩
  rw [ht.content_eq, hprinted, List.append_assoc]

section Steps

variable {σ : Type} (fs : FileSystem (StateM σ)) {o : ShellOptions} {color : Bool} {s : Shell}
  (prompt pending : String)

/-- A turn without a program changes nothing: neither is anything written, nor is anything told. -/
theorem takes_nothing (h : s.Ready o color) (d : σ) :
    Takes o color (turn fs o color none d) s s :=
  ⟨h, (List.append_nil _).symm, (List.append_nil _).symm⟩

/-- A text that is run at the prompt makes its turn, whether or not it has errors. -/
theorem submit_turn (h : s.Ready o color) (text : String) (d : σ) :
    let t := turn fs o color (some text) d
    ∃ s', (Repl.mk prompt s pending).submit fs text d =
        ((⟨prompt, s', pending⟩, t.result.map fun _ => ()), t.after) ∧ Takes o color t s s' := by
  intro t
  obtain ⟨s', hsubmit, hready, hcontent, hnotices⟩ := h.submit_eq fs text inputName d
  have hresult : t.result.map (fun _ => ()) =
      ((Shell.new o color).submit fs text inputName d).1.2.map fun _ => () := by
    show (Except.map some _).map _ = _
    cases ((Shell.new o color).submit fs text inputName d).1.2 <;> rfl
  refine ⟨s', ?_, hready, hcontent, ?_⟩
  · rw [Repl.submit, Disk.bind_apply, hsubmit, hresult]
    rfl
  · simp [Shell.told, hnotices, t, turn]

/-- A line makes the turn of the program that it completes, or a turn without one. -/
theorem feed_turn (h : s.Ready o color) (line : List Char) (d : σ) :
    let next := taken o.assembly pending line
    let t := turn fs o color next.1 d
    ∃ s', (Repl.mk prompt s pending).feed fs line d =
        ((⟨prompt, s', next.2⟩, t.result.map fun _ => ()), t.after) ∧ Takes o color t s s' := by
  unfold feed taken
  simp only [h.options_eq]
  split
  · split
    · exact submit_turn fs prompt "" h (pending ++ String.ofList line) d
    · exact ⟨s, rfl, takes_nothing fs h d⟩
  · exact submit_turn fs prompt pending h (String.ofList line) d

/-- The end of the input makes a turn of what is left, if that is to be run, and a turn without a
program otherwise. -/
theorem finish_turn (h : s.Ready o color) (d : σ) :
    let t := turn fs o color (if hasWords pending then some pending else none) d
    ∃ s', (Repl.mk prompt s pending).finish fs d =
        ((⟨prompt, s', pending⟩, t.result.map fun _ => ()), t.after) ∧ Takes o color t s s' := by
  unfold finish
  simp only
  split
  · exact submit_turn fs prompt pending h pending d
  · exact ⟨s, rfl, takes_nothing fs h d⟩

/-- **A session goes in turns**: for each of them the prompt and what it writes is written, and what
it tells is told. The session ends as the last turn does.

**Proof sketch.** Induction on the lines. The first one makes its turn, behind a prompt; if no image
was missed the rest of the session begins where the turn ended, and if one was there is no rest. -/
theorem runLines_eq (h : s.Ready o color) (ls : List (List UInt8)) (d : σ) :
    let ts := turns fs o color (programs o.assembly pending (ls.map Text.decodeUtf8)) d
    ∃ r t, ts.getLast? = some t ∧
      (Repl.mk prompt s pending).runLines fs ls d = ((r, t.result.map fun _ => ()), t.after) ∧
      r.shell.machine.sink.content = s.machine.sink.content ++
        ts.flatMap (fun t => Sink.textBytes prompt ++ t.output) ∧
      r.shell.told = s.told ++ ts.flatMap Turn.told := by
  induction ls generalizing s pending d with
  | nil =>
    obtain ⟨hasked, -⟩ := h.print prompt
    obtain ⟨s', hfinish, hturn⟩ := finish_turn fs prompt pending hasked d
    obtain ⟨hcontent, htold⟩ := hturn.behind_prompt h
    rw [List.map_nil, programs, turns_singleton]
    refine ⟨_, _, rfl, hfinish, ?_, ?_⟩
    · simpa using hcontent
    · simpa using htold
  | cons line rest ih =>
    obtain ⟨hasked, -⟩ := h.print prompt
    obtain ⟨s', hfeed, hturn⟩ := feed_turn fs prompt pending hasked (Text.decodeUtf8 line) d
    obtain ⟨hcontent, htold⟩ := hturn.behind_prompt h
    rw [List.map_cons, programs, turns, runLines, Disk.bind_apply]
    have hasks : (Repl.mk prompt s pending).ask = ⟨prompt, s.print prompt, pending⟩ := rfl
    rw [hasks, hfeed]
    generalize taken o.assembly pending (Text.decodeUtf8 line) = next at *
    generalize turn fs o color next.1 d = t at *
    cases hresult : t.result with
    | error e =>
      refine ⟨⟨prompt, s', next.2⟩, t, rfl, ?_, ?_, ?_⟩
      · rw [hresult]
        rfl
      · simpa using hcontent
      · simpa using htold
    | ok verdict =>
      obtain ⟨r, last, hlast, hrun, hout, hsaid⟩ := ih next.2 hturn.ready t.after
      refine ⟨r, last, ?_, hrun, ?_, ?_⟩
      · simp only [List.getLast?_cons, hlast, Option.getD_some]
      · rw [hout, hcontent, List.flatMap_cons, List.append_assoc]
      · rw [hsaid, htold, List.flatMap_cons, List.append_assoc]

/-- **A whole session** writes and tells what its turns do, and ends as the last one. -/
theorem run_eq (o : ShellOptions) (color : Bool) (input : List UInt8) (d : σ) :
    let ts := turns fs o color (programs o.assembly "" ((byteLines input).map Text.decodeUtf8)) d
    let out := (Repl.new prompt (Shell.new o color)).run fs input d
    ts.getLast?.map (fun t => (t.result.map fun _ => (), t.after)) = some (out.1.2, out.2) ∧
      out.1.1.shell.told = ts.flatMap Turn.told ∧
      out.1.1.shell.machine.sink.content =
        ts.flatMap fun t => Sink.textBytes prompt ++ t.output := by
  intro ts out
  obtain ⟨r, t, hlast, hrun, hcontent, htold⟩ :=
    runLines_eq fs prompt "" (Shell.ready_new o color) (byteLines input) d
  have hlast : ts.getLast? = some t := hlast
  have hrun : out = ((r, t.result.map fun _ => ()), t.after) := hrun
  rw [hlast, hrun]
  exact ⟨rfl, htold, hcontent⟩

end Steps

/-! ## Sessions that show less -/

section Quiet

variable {σ : Type} (fs : FileSystem (StateM σ)) (o : ShellOptions) (color : Bool)

/-- What is shown besides stands before the output of a turn, and is all that it adds. The files,
the verdict and what is told are the same. -/
theorem turn_eq_quiet (program : Option String) (d : σ) :
    let t := turn fs o.quiet color program d
    turn fs o color program d = { t with output := t.shown fs o ++ t.output } := by
  cases program with
  | none => rfl
  | some text =>
    obtain ⟨result, s, s', d', hquiet, hloud, hend⟩ :=
      ((Shell.ready_new o color).behind_new .muted).submit fs (fun _ => rfl) text inputName d
    have hquiet : (Shell.new o.quiet color).submit fs text inputName d = ((s, result), d') := hquiet
    have hcontent : s'.machine.sink.content =
        Shell.shownForText fs o text inputName d ++ s.machine.sink.content := hend.content_eq
    have htold : s'.told = s.told := hend.told_eq
    simp only [turn, hloud, hquiet, htold, hcontent, Turn.shown]

/-- The same turns are made by a session that shows nothing besides, and as many of them. -/
theorem turns_eq_quiet (programs : List (Option String)) (d : σ) :
    turns fs o color programs d =
      (turns fs o.quiet color programs d).map
        fun t => { t with output := t.shown fs o ++ t.output } := by
  induction programs generalizing d with
  | nil => rfl
  | cons program rest ih =>
    simp only [turns, turn_eq_quiet fs o color program d, List.map_cons]
    generalize turn fs o.quiet color program d = t
    cases t.result with
    | error e => rfl
    | ok verdict => rw [ih]

end Quiet

end Repl

/-- **What is shown besides changes nothing else.** A file that is run by a shell which dumps
tokens, lists chunks or records instructions gives the exit code, or fails as, and leaves the files,
that it gives and leaves if it is run by a shell that does none of this. The same is told, traces
aside, and what is written is the dump and the listing and then the same. A session at the prompt
goes in the same turns, each with the same program, end, files and notices, and each with its own
dump and listing between the prompt and what the turn writes.

**Proof sketch.** For a file both shells are fresh, and `Behind.openFile` compares them, with traces
set aside. A session goes in turns by `runLines_eq`, whichever the options are, and a turn is what
comes of its program in a fresh shell, so that `Behind.submit` compares the sessions turn by
turn. -/
theorem Shell.agrees_with_quiet {σ : Type} (fs : FileSystem (StateM σ)) (o : ShellOptions)
    (color : Bool) (d : σ) :
    (∀ path,
      let loud := (new o color).openFile fs path d
      let quiet := (new o.quiet color).openFile fs path d
      loud.1.2 = quiet.1.2 ∧ loud.2 = quiet.2 ∧ loud.1.1.told = quiet.1.1.told ∧
        loud.1.1.machine.sink.content =
          shownForFile fs o path d ++ quiet.1.1.machine.sink.content) ∧
    ∀ prompt input,
      let loud := (Repl.new prompt (new o color)).run fs input d
      let quiet := (Repl.new prompt (new o.quiet color)).run fs input d
      let programs := Repl.programs o.assembly "" ((byteLines input).map Text.decodeUtf8)
      let turns := Repl.turns fs o.quiet color programs d
      loud.1.2 = quiet.1.2 ∧ loud.2 = quiet.2 ∧ loud.1.1.shell.told = quiet.1.1.shell.told ∧
        Repl.turns fs o color programs d =
          (turns.map fun t => { t with output := t.shown fs o ++ t.output }) ∧
        loud.1.1.shell.machine.sink.content =
          (turns.flatMap fun t => Sink.textBytes prompt ++ t.shown fs o ++ t.output) ∧
        quiet.1.1.shell.machine.sink.content =
          turns.flatMap fun t => Sink.textBytes prompt ++ t.output := by
  constructor
  · intro path loud quiet
    obtain ⟨code, s, s', d', hquiet, hloud, hend⟩ :=
      ((ready_new o color).behind_new .muted).openFile fs (fun _ => rfl) path d
    have hquiet : quiet = ((s, code), d') := hquiet
    have hloud : loud = ((s', code), d') := hloud
    rw [hloud, hquiet]
    exact ⟨rfl, rfl, hend.told_eq, hend.content_eq⟩
  · intro prompt input loud quiet programs turns
    have hturns : Repl.turns fs o color programs d =
        turns.map fun t => { t with output := t.shown fs o ++ t.output } :=
      Repl.turns_eq_quiet fs o color programs d
    obtain ⟨hends, htold, hcontent⟩ := Repl.run_eq fs prompt o color input d
    obtain ⟨hends', htold', hcontent'⟩ := Repl.run_eq fs prompt o.quiet color input d
    rw [hturns, List.getLast?_map, Option.map_map] at hends
    rw [hturns, List.flatMap_map] at htold hcontent
    obtain ⟨hresult, hfiles⟩ := Prod.mk.inj (Option.some.inj (hends.symm.trans hends'))
    refine ⟨hresult, hfiles, htold.trans htold'.symm, hturns, ?_, hcontent'⟩
    simp only [List.append_assoc]
    exact hcontent

end ChunkMachine
