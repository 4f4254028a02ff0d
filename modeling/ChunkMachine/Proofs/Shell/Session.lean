import ChunkMachine.Proofs.Machine.History
import ChunkMachine.Proofs.Shell.Showing
import ChunkMachine.Proofs.Shell.Steps

set_option relaxedAutoImplicit false
set_option autoImplicit false

/-!
# Sessions of a shell

A shell runs one text after another on the same machine. Its machine may remember the last call and
hold values of it, but none of that shows: what a text adds to the output and to the notices in a
session is what it gives in a fresh shell. Nor does it matter whether a shell shows anything
besides: a shell that does and one that does not write the same images, come to the same end, tell
the same and write the same results.

Both are comparisons of two shells, of which the second one has written and told something before.
They are stated as one relation with the way of comparing as a parameter. Each part of the work of a
shell keeps two shells in that relation, and the two comparisons are cases of it.

## Main definitions

* `Shell.Ready` — a shell of a session, between two texts.
* `Shell.Behind` — two shells that differ in what was written, shown and told before.

## Main results

* `Shell.Behind.call`, `Shell.Behind.submit`, `Shell.Behind.openFile` — such shells do the same with
  a chunk, with a text and with a file.
* `Shell.Ready.submit_eq` — a text adds to a session what it gives in a fresh shell.
-/

namespace ChunkMachine.Shell

/-- A shell of a session with some options, between two texts: no records are left on its machine,
and its sink never fails. What it has written and told may be anything. -/
structure Ready (options : ShellOptions) (color : Bool) (s : Shell) : Prop where
  /-- Its options are those of the session. -/
  options_eq : s.options = options
  /-- Status lines are coloured or not throughout the session. -/
  color_eq : s.color = color
  /-- Its machine is a standard one, which is traced if the options say so. -/
  config_eq : s.machine.config = { MachineConfig.standard with trace := options.trace }
  /-- The records of its machine have been told. -/
  log_eq : s.machine.log = #[]
  /-- Its sink never fails, and holds everything that was written. -/
  sink_eq : s.machine.sink = .holding s.machine.sink.content

/-- Two shells of sessions whose options are those of a comparison. Before the second one got to
where the first one is, it wrote some bytes and told some notices, of which those are listed that
count. -/
structure Behind (k : Comparison) (options : ShellOptions) (color : Bool) (written : List UInt8)
    (told : List Notice) (s s' : Shell) : Prop where
  /-- The first one has the options that belong to those of the second one. -/
  ready : s.Ready (k.options options) color
  /-- The second one has the options that are given. -/
  ready' : s'.Ready options color
  /-- What the second one has written begins with the bytes, and goes on as for the first one. -/
  content_eq : s'.machine.sink.content = written ++ s.machine.sink.content
  /-- What the second one has told begins with the notices, and goes on as for the first one. -/
  counted_eq : s'.counted k = told ++ s.counted k

variable {k : Comparison} {options : ShellOptions} {color : Bool} {written : List UInt8}
  {told : List Notice} {s s' : Shell}

/-! ## Ready shells -/

/-- A fresh shell is ready: it has recorded nothing, and its sink is the one that never fails and
holds nothing. -/
theorem ready_new (options : ShellOptions) (color : Bool) :
    (new options color).Ready options color :=
  ⟨rfl, rfl, rfl, rfl, rfl⟩

/-- A shell whose machine is replaced by one without an own output or own records is ready. Notices
may be added at the same time. -/
theorem Ready.of_machine (h : s.Ready options color) {m : Machine}
    (hconfig : m.config = s.machine.config) (hlog : m.log = #[])
    (hsink : m.sink = .holding m.sink.content) (notices : Array Notice) :
    Ready options color { s with machine := m, notices } :=
  ⟨h.options_eq, h.color_eq, hconfig.trans h.config_eq, hlog, hsink⟩

/-- What is printed stands behind what was written, and a shell is as ready as before. -/
theorem Ready.print (h : s.Ready options color) (text : String) :
    (s.print text).Ready options color ∧
      (s.print text).machine.sink.content = s.machine.sink.content ++ Sink.textBytes text := by
  have hsink : (s.print text).machine.sink =
      .holding (s.machine.sink.content ++ Sink.textBytes text) := by
    rw [Shell.print, h.sink_eq]
    simp
  have hcontent := congrArg Sink.content hsink
  rw [Sink.content_holding] at hcontent
  exact ⟨⟨h.options_eq, h.color_eq, h.config_eq, h.log_eq, hcontent ▸ hsink⟩, hcontent⟩

/-- A shell of a session is where a fresh one with the options of a comparison is, behind what was
written and told. -/
theorem Ready.behind_new (k : Comparison) (h : s.Ready options color) :
    Behind k options color s.machine.sink.content (s.counted k) (new (k.options options) color) s :=
  ⟨ready_new (k.options options) color, h, (List.append_nil _).symm, (List.append_nil _).symm⟩

namespace Behind

variable (h : Behind k options color written told s s')
include h

/-- The machines of the two shells compare in the same way. Between two texts there are no records,
so that there are none to differ. -/
theorem machine : Machine.Behind k written s.machine s'.machine := by
  refine ⟨?_, ?_, ?_, s.machine.sink.content, h.ready.sink_eq, ?_⟩
  · rw [h.ready.config_eq, h.ready'.config_eq]
  · rintro rfl
    rw [h.ready.config_eq, h.ready'.config_eq]
    rfl
  · rw [Machine.counted, Machine.counted, h.ready.log_eq, h.ready'.log_eq]
  · rw [← h.content_eq]
    exact h.ready'.sink_eq

omit h in
/-- If traces are set aside and nothing was told before, both shells have told the same, traces
aside. -/
theorem told_eq (h : Behind .muted options color written [] s s') : s'.told = s.told := by
  rw [← counted_muted, ← counted_muted]
  exact h.counted_eq

/-! ## Writing and telling -/

/-- What both shells print stands at the end of both outputs. -/
theorem print (text : String) :
    Behind k options color written told (s.print text) (s'.print text) := by
  obtain ⟨hready, hcontent⟩ := h.ready.print text
  obtain ⟨hready', hcontent'⟩ := h.ready'.print text
  refine ⟨hready, hready', ?_, h.counted_eq⟩
  rw [hcontent, hcontent', h.content_eq, List.append_assoc]

/-- Until the first shell writes anything, the second one can print more, and has then written more
before. -/
theorem print_besides (hsilent : s.machine.sink.content = []) (text : String) :
    Behind k options color (written ++ Sink.textBytes text) told s (s'.print text) := by
  obtain ⟨hready', hcontent'⟩ := h.ready'.print text
  refine ⟨h.ready, hready', ?_, h.counted_eq⟩
  rw [hcontent', h.content_eq, hsilent, List.append_nil, List.append_nil]

/-- Where nothing is shown, nothing more was written before. This is the case of an option that is
not set. -/
theorem show_nothing :
    Behind k options color (written ++ k.shown (Sink.textBytes "")) told s s' := by
  rw [Comparison.shown_empty, List.append_nil]
  exact h

/-- What both shells tell is told behind what was told before. -/
theorem tell (text : String) :
    Behind k options color written told (s.tell text) (s'.tell text) := by
  refine ⟨?_, ?_, h.content_eq, ?_⟩
  · exact h.ready.of_machine rfl h.ready.log_eq h.ready.sink_eq _
  · exact h.ready'.of_machine rfl h.ready'.log_eq h.ready'.sink_eq _
  · rw [counted_tell, counted_tell, h.counted_eq, List.append_assoc]

/-- Status lines are told in the same colours. -/
theorem tellStatus (hue : TagColor) (tag path : String) (size : Nat) :
    Behind k options color written told (s.tellStatus hue tag path size)
      (s'.tellStatus hue tag path size) := by
  unfold Shell.tellStatus
  rw [h.ready.color_eq, h.ready'.color_eq]
  exact h.tell _

/-- Machines that did the same are taken back. Their records are told, and count or do not count as
they did on the machines. -/
theorem resume {m m' : Machine} (hconfig : m.config = s.machine.config)
    (hconfig' : m'.config = s'.machine.config) (hm : Machine.Behind k written m m') :
    Behind k options color written told (s.resume m) (s'.resume m') := by
  obtain ⟨bytes, hsink, hsink'⟩ := hm.sink
  refine ⟨?_, ?_, ?_, ?_⟩
  · exact h.ready.of_machine (m := { m with log := #[] }) hconfig rfl (by simp [hsink]) _
  · exact h.ready'.of_machine (m := { m' with log := #[] }) hconfig' rfl (by simp [hsink']) _
  · simp [Shell.resume, hsink, hsink']
  · rw [counted_resume, counted_resume, h.counted_eq, hm.counted_eq, List.append_assoc]

/-- The error of the last call is told by both shells if it is remembered by both machines. -/
theorem tellFailure (hfailure : s'.machine.failure = s.machine.failure) :
    Behind k options color written told s.tellFailure s'.tellFailure := by
  unfold Shell.tellFailure
  rw [hfailure]
  cases s.machine.failure with
  | none => exact h
  | some e => exact h.tell e.message

/-! ## Showing -/

/-- The tokens of a text are dumped by both shells or, if traces are set aside, by the second one
only. They are recorded as traces, so that then their records do not count.

**Proof sketch.** If both have the same options they do the same. Otherwise the first one does
nothing, and the second one records traces, which do not count, and prints the dump before anything
else. -/
theorem showTokens (hsilent : k = .muted → s.machine.sink.content = []) (text : String) :
    Behind k options color (written ++ k.shown (Sink.textBytes (options.dump text))) told
      (s.showTokens text) (s'.showTokens text) := by
  cases k with
  | same =>
    rw [Comparison.shown, List.append_nil, Shell.showTokens, Shell.showTokens, h.ready.options_eq,
      h.ready'.options_eq, Comparison.options]
    have hnoted : Behind .same options color written told
        (s.resume (s.machine.noteTokens (tokenize text)))
        (s'.resume (s'.machine.noteTokens (tokenize text))) :=
      h.resume rfl rfl (h.machine.noteTokens (tokenize text))
    cases options.tokens with
    | none => exact h
    | some format =>
      cases format with
      | table => exact hnoted.print _
      | json => exact hnoted.print _
  | muted =>
    -- the first shell shows nothing, so what the second one prints stands before everything else
    have hquiet : s.showTokens text = s :=
      showTokens_of_none (congrArg ShellOptions.tokens h.ready.options_eq) text
    have hnoted : Behind .muted options color written told s
        (s'.resume (s'.machine.noteTokens (tokenize text))) := by
      refine ⟨h.ready, ?_, h.content_eq, ?_⟩
      · exact h.ready'.of_machine (m := { s'.machine with log := #[] }) rfl rfl h.ready'.sink_eq _
      · rw [counted_resume, Machine.counted_noteTokens_muted, Machine.counted, h.ready'.log_eq]
        exact (List.append_nil _).trans h.counted_eq
    rw [hquiet, Shell.showTokens, h.ready'.options_eq, ShellOptions.dump]
    cases options.tokens with
    | none => exact h.show_nothing
    | some format =>
      cases format with
      | table => exact hnoted.print_besides (hsilent rfl) _
      | json => exact hnoted.print_besides (hsilent rfl) _

/-- A shell that shows nothing besides has still written nothing where tokens could be dumped. -/
theorem silent_showTokens (hsilent : k = .muted → s.machine.sink.content = []) (text : String) :
    k = .muted → (s.showTokens text).machine.sink.content = [] := by
  rintro rfl
  rw [showTokens_of_none (congrArg ShellOptions.tokens h.ready.options_eq) text]
  exact hsilent rfl

/-- A chunk is listed by both shells or, if traces are set aside, by the second one only.

**Proof sketch.** As for the tokens, but that nothing is recorded. -/
theorem showListing (hsilent : k = .muted → s.machine.sink.content = []) (c : Chunk)
    (name : String) :
    Behind k options color (written ++ k.shown (Sink.textBytes (options.listingText c name))) told
      (s.showListing c name) (s'.showListing c name) := by
  cases k with
  | same =>
    rw [Comparison.shown, List.append_nil, Shell.showListing, Shell.showListing,
      h.ready.options_eq, h.ready'.options_eq, Comparison.options]
    split
    · exact h.print _
    · exact h
  | muted =>
    have hquiet : s.showListing c name = s := by
      rw [Shell.showListing, h.ready.options_eq]
      rfl
    rw [hquiet, Shell.showListing, h.ready'.options_eq, ShellOptions.listingText]
    split
    · exact h.print_besides (hsilent rfl) _
    · exact h.show_nothing

/-! ## Texts and chunks -/

/-- Two such shells find the same errors in source text, and remember them on their machines.

**Proof sketch.** Both warn if an image was asked for. Then the machines scan the text alike, and
what they remember is told. -/
theorem checkSource (text : String) :
    (s'.checkSource text).1 = (s.checkSource text).1 ∧
      Behind k options color written told (s.checkSource text).2 (s'.checkSource text).2 := by
  unfold Shell.checkSource
  rw [h.ready.options_eq, h.ready'.options_eq, Comparison.emit_options]
  have hwarned : Behind k options color written told
      (if options.emit.isSome then
        s.tell "warning: --emit ignored, lox source produces no chunk yet" else s)
      (if options.emit.isSome then
        s'.tell "warning: --emit ignored, lox source produces no chunk yet" else s') := by
    split
    · exact h.tell _
    · exact h
  generalize (if options.emit.isSome then _ else s) = warned at hwarned ⊢
  generalize (if options.emit.isSome then _ else s') = warned' at hwarned ⊢
  obtain ⟨hverdict, hfailure, hscanned⟩ := hwarned.machine.scanSource text
  have hconfig := Machine.config_serve warned.machine (.scan text)
  have hconfig' := Machine.config_serve warned'.machine (.scan text)
  exact ⟨hverdict, (hwarned.resume hconfig hconfig' hscanned).tellFailure hfailure⟩

/-- **Two such shells run a chunk to the same end.** Its listing is shown before it is run. -/
theorem call (hsilent : k = .muted → s.machine.sink.content = []) (c : Chunk) (name : String) :
    (s'.call c name).1 = (s.call c name).1 ∧
      Behind k options color (written ++ k.shown (Sink.textBytes (options.listingText c name))) told
        (s.call c name).2 (s'.call c name).2 := by
  have hlisted := h.showListing hsilent c name
  unfold Shell.call
  generalize s.showListing c name = listed at hlisted ⊢
  generalize s'.showListing c name = listed' at hlisted ⊢
  obtain ⟨hverdict, hfailure, hcalled⟩ := hlisted.machine.call c
  have hconfig := Machine.config_serve listed.machine (.call c)
  have hconfig' := Machine.config_serve listed'.machine (.call c)
  exact ⟨hverdict, (hlisted.resume hconfig hconfig' hcalled).tellFailure hfailure⟩

section Files

variable {σ : Type} (fs : FileSystem (StateM σ))

/-- Two such shells write the same image, if one is asked for, and run the chunk to the same end. If
the image cannot be written, the chunk is neither listed nor run.

**Proof sketch.** By whether an image is to be written. If so, both write the same bytes to the same
files, and go on only if that has worked. -/
theorem launch (hsilent : k = .muted → s.machine.sink.content = []) (c : Chunk) (name : String)
    (d : σ) :
    ∃ result t t' d', s.launch fs c name d = ((t, result), d') ∧
      s'.launch fs c name d = ((t', result), d') ∧
      Behind k options color
        (written ++ k.shown (Sink.textBytes (options.listed fs (some c) name d))) told t t' := by
  simp only [launch_apply, h.ready.options_eq, h.ready'.options_eq, Comparison.emit_options]
  cases hemit : options.emit with
  | none =>
    have hlisted : options.listed fs (some c) name d = options.listingText c name :=
      if_pos (by rw [ShellOptions.emits, hemit])
    obtain ⟨hverdict, hcalled⟩ := h.call hsilent c name
    exact ⟨_, _, _, _, rfl, by rw [hverdict], hlisted ▸ hcalled⟩
  | some path =>
    have hemits : options.emits fs c d = (replaceFile fs path (Image.encode c) d).1.isOk := by
      rw [ShellOptions.emits, hemit]
    simp only [ShellOptions.listed, hemits]
    -- both shells write the same bytes to the same files, and get the same answer
    rcases replaceFile fs path (Image.encode c) d with ⟨e | _, d'⟩
    · exact ⟨_, _, _, _, rfl, rfl, h.show_nothing⟩
    · obtain ⟨hverdict, hcalled⟩ :=
        (h.tellStatus .green "emit" path (Image.encode c).length).call hsilent c name
      exact ⟨_, _, _, _, rfl, by rw [hverdict], hcalled⟩

/-- **Two such shells do the same with a text**, be it source text or assembly, and whether or not
it has errors. What is shown of it stands before anything else.

**Proof sketch.** Both show the tokens first. Then they assemble the text and launch its chunk, or
tell why there is none, or they check it as source text. -/
theorem submit (hsilent : k = .muted → s.machine.sink.content = []) (text name : String) (d : σ) :
    ∃ result t t' d', s.submit fs text name d = ((t, result), d') ∧
      s'.submit fs text name d = ((t', result), d') ∧
      Behind k options color (written ++ k.shown (shownForText fs options text name d)) told
        t t' := by
  have hshown := h.showTokens hsilent text
  have hsilent := h.silent_showTokens hsilent text
  unfold Shell.submit shownForText
  rw [Comparison.shown_append, ← List.append_assoc]
  generalize s.showTokens text = shown at hshown hsilent ⊢
  generalize s'.showTokens text = shown' at hshown ⊢
  simp only [hshown.ready.options_eq, hshown.ready'.options_eq, Comparison.assembly_options]
  split
  · cases Assembly.assemble text with
    | error e => exact ⟨_, _, _, _, rfl, rfl, (hshown.tell e.message).show_nothing⟩
    | ok c => exact hshown.launch fs hsilent c name d
  · obtain ⟨hverdict, hchecked⟩ := hshown.checkSource text
    exact ⟨_, _, _, _, rfl, by rw [hverdict]; rfl, hchecked.show_nothing⟩

/-- So they do with an image, whether it can be loaded or not. -/
theorem openImage (hsilent : k = .muted → s.machine.sink.content = []) (path : String)
    (image : List UInt8) (d : σ) :
    ∃ result t t' d', s.openImage fs path image d = ((t, result), d') ∧
      s'.openImage fs path image d = ((t', result), d') ∧
      Behind k options color (written ++ k.shown (Sink.textBytes
        (options.listed fs (Image.load image).toOption (nameOf path) d))) told t t' := by
  unfold Shell.openImage
  cases Image.load image with
  | error e => exact ⟨_, _, _, _, rfl, rfl, (h.tell _).show_nothing⟩
  | ok c => exact (h.tellStatus .blue "load" path image.length).launch fs hsilent c (nameOf path) d

/-- **Two such shells do the same with a file**, whether it can be read or not, and whether it is an
image or a text.

**Proof sketch.** By what is read at the path, and by the ending of the path. -/
theorem openFile (hsilent : k = .muted → s.machine.sink.content = []) (path : String) (d : σ) :
    ∃ code t t' d', s.openFile fs path d = ((t, code), d') ∧
      s'.openFile fs path d = ((t', code), d') ∧
      Behind k options color (written ++ k.shown (shownForFile fs options path d)) told t t' := by
  rw [openFile_eq, openFile_eq, shownForFile]
  rcases fs.read path d with ⟨e | bytes, d₁⟩
  · refine ⟨_, _, _, _, rfl, rfl, ?_⟩
    rw [Comparison.shown_nil, List.append_nil]
    exact h.tell _
  · simp only
    split
    · obtain ⟨result, t, t', d', hopen, hopen', hend⟩ := h.openImage fs hsilent path bytes d₁
      rw [hopen, hopen']
      exact ⟨_, _, _, _, rfl, rfl, hend⟩
    · obtain ⟨result, t, t', d', hsubmit, hsubmit', hend⟩ :=
        h.submit fs hsilent (String.ofList (Text.decodeUtf8 bytes)) (nameOf path) d₁
      rw [hsubmit, hsubmit']
      exact ⟨_, _, _, _, rfl, rfl, hend⟩

end Files

end Behind

/-! ## Sessions -/

section Files

variable {σ : Type} (fs : FileSystem (StateM σ))

/-- **A text adds to a session what it gives in a fresh shell**: the verdict is the same, and what
is left of the files, and behind what was written and told before comes what the fresh shell writes
and tells. -/
theorem Ready.submit_eq (h : s.Ready options color) (text name : String) (d : σ) :
    let alone := (new options color).submit fs text name d
    ∃ t, s.submit fs text name d = ((t, alone.1.2), alone.2) ∧ t.Ready options color ∧
      t.machine.sink.content = s.machine.sink.content ++ alone.1.1.machine.sink.content ∧
      t.notices = s.notices ++ alone.1.1.notices := by
  intro alone
  obtain ⟨result, fresh, t, d', hfresh, hsubmit, hbehind⟩ :=
    (h.behind_new .same).submit fs (by rintro ⟨⟩) text name d
  have halone : alone = ((fresh, result), d') := hfresh
  have hcontent := hbehind.content_eq
  have hnotices := hbehind.counted_eq
  rw [Comparison.shown, List.append_nil] at hcontent
  rw [counted_same, counted_same, counted_same, ← Array.toList_append, Array.toList_inj] at hnotices
  rw [halone]
  exact ⟨t, hsubmit, hbehind.ready', hcontent, hnotices⟩

/-- Dumping tokens keeps the options, so that they can be asked for behind it. -/
theorem options_showTokens (s : Shell) (text : String) :
    (s.showTokens text).options = s.options := by
  unfold showTokens
  split
  · rfl
  · split <;> rfl

/-- Without an image to be written, no files are touched, and every text has a verdict. -/
theorem exists_submit_eq_ok (hemit : s.options.emit = none) (text name : String) (d : σ) :
    ∃ t verdict, s.submit fs text name d = ((t, .ok verdict), d) := by
  rw [← options_showTokens s text] at hemit
  unfold Shell.submit
  generalize s.showTokens text = shown at hemit ⊢
  simp only
  split
  · cases Assembly.assemble text with
    | error e => exact ⟨_, _, rfl⟩
    | ok c =>
      simp only [launch_apply, hemit]
      exact ⟨_, _, rfl⟩
  · exact ⟨_, _, rfl⟩

end Files

/-- A text adds to a session what it gives in a fresh shell, and has a verdict and touches no files
if no image is to be written. -/
theorem Ready.submit (h : s.Ready options color) (hemit : options.emit = none)
    (text name : String) (d : Disk) :
    let alone := ((new options color).submit Disk.fileSystem text name d).1
    ∃ t, s.submit Disk.fileSystem text name d = ((t, alone.2), d) ∧ t.Ready options color ∧
      t.machine.sink.content = s.machine.sink.content ++ alone.1.machine.sink.content ∧
      t.notices = s.notices ++ alone.1.notices ∧ ∃ verdict, alone.2 = .ok verdict := by
  obtain ⟨t, hsubmit, hready, hcontent, hnotices⟩ := h.submit_eq Disk.fileSystem text name d
  obtain ⟨fresh, verdict, hfresh⟩ :=
    exists_submit_eq_ok (s := new options color) Disk.fileSystem hemit text name d
  rw [hfresh] at hsubmit hcontent hnotices ⊢
  exact ⟨t, hsubmit, hready, hcontent, hnotices, verdict, rfl⟩

end ChunkMachine.Shell
