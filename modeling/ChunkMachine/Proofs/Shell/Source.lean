import ChunkMachine.Numeric.Power
import ChunkMachine.Proofs.Shell.Steps
import ChunkMachine.Proofs.Text.Lines
import ChunkMachine.Proofs.Token.Feeds

set_option relaxedAutoImplicit false
set_option autoImplicit false

/-!
# Lexical errors at the prompt and in files

Source text may be read line by line at the prompt, each line by a scanner of its own, or all at
once from a file. If every string is closed on its line, the two find the same errors in the same
order. They tell them differently in one respect: the prompt takes every line for the first one.

## Main definitions

* `lineFaults` — the faults of a line that is scanned alone.
* `LexicalFault.told` — how a fault on a line is told.
* `Shell.errorText` — what a shell tells, as text.

## Main results

* `Scanner.errors_flatten` — the errors of lines are those of their text.
* `Shell.submit_source` — what a fresh shell tells of source text.
* `Repl.runLines_source` — what the prompt tells of an input.
* `Shell.prompt_agrees_with_file` — the prompt and a file agree.
-/

namespace ChunkMachine

/-! ## Errors of lines -/

/-- The fault that a token marks, if it marks one, without its line. -/
def Token.fault? (t : Token) : Option LexicalFault := t.error?.map LexicalError.fault

/-- The faults of a line that is scanned alone, in their order. This is all that the prompt looks
at. -/
def lineFaults (line : List Char) : List LexicalFault :=
  (tokenize (String.ofList line)).filterMap Token.fault?

/-- How a fault on the line of some number is told. The number need not fit into a word. -/
def LexicalFault.told (number : Nat) (fault : LexicalFault) : String :=
  s!"[line {number}] Error: {fault.message}"

/-- Numbers of lines are kept by words, as long as they fit, and told in the same way. -/
theorem LexicalFault.message_ofNat (fault : LexicalFault) {number : Nat}
    (h : number < UInt32.size) :
    LexicalError.message ⟨UInt32.ofNat number, fault⟩ = fault.told number := by
  have hnumber : toString (UInt32.ofNat number) = toString number := by
    show toString (UInt32.ofNat number).toNat = toString number
    rw [UInt32.toNat_ofNat_of_lt' h]
  rw [LexicalError.message, LexicalFault.told, hnumber]

/-- The error of a token is its fault on its line, so that errors can be told from faults and
lines. -/
theorem Token.error?_eq (t : Token) : t.error? = t.fault?.map fun fault => ⟨t.line, fault⟩ := by
  unfold fault? error?
  split <;> rfl

/-- The errors on one line are the faults there. Their number does not change from one to the
next. -/
theorem filterMap_error? {tokens : List Token} {number : UInt32}
    (h : ∀ t ∈ tokens, t.line = number) :
    tokens.filterMap Token.error? =
      (tokens.filterMap Token.fault?).map fun fault => ⟨number, fault⟩ := by
  induction tokens with
  | nil => rfl
  | cons t rest ih =>
    obtain ⟨hline, hothers⟩ := List.forall_mem_cons.1 h
    rw [List.filterMap_cons, List.filterMap_cons, ih hothers, t.error?_eq, hline]
    cases t.fault? <;> rfl

/-- The end of the text marks neither an error nor a fault, and can be left aside. -/
theorem Token.error?_of_eof {t : Token} (h : t.kind = .eof) :
    t.error? = none ∧ t.fault? = none := by
  simp [fault?, error?, h]

/-- A string that is not closed is one of the faults, and is told by the kind of its token. -/
theorem Token.fault?_eq_unterminated_iff {t : Token} :
    t.fault? = some .unterminatedString ↔ t.kind = .error .unterminatedString := by
  unfold fault? error?
  split <;> simp_all

/-- The faults of a line do not depend on its number, which only goes into the lines of its
tokens. -/
theorem lineFaults_eq (line : List Char) (number : UInt32) :
    lineFaults line = (Scanner.mk line number false).tokens.filterMap Token.fault? := by
  have hshift := (Scanner.mk line 1 false).tokens_add_line (number - 1)
  have hnumber : 1 + (number - 1) = number := by rw [UInt32.add_comm, UInt32.sub_add_cancel]
  have hline : (Token.fault? ∘ fun t : Token => { t with line := t.line + (number - 1) }) =
      Token.fault? := by
    funext t
    cases hkind : t.kind <;> simp [Token.fault?, Token.error?, hkind]
  simp only [hnumber] at hshift
  rw [hshift, List.filterMap_map, hline, lineFaults, Scanner.tokenize_eq_tokens, Scanner.ofString,
    String.toList_ofList]

/-- A string is left open on a line exactly if one of the tokens there marks it, whatever number the
line has. -/
theorem unterminated_mem_lineFaults_iff {line : List Char} (number : UInt32) :
    .unterminatedString ∈ lineFaults line ↔
      ∃ t ∈ (Scanner.mk line number false).tokens, t.kind = .error .unterminatedString := by
  simp only [lineFaults_eq line number, List.mem_filterMap, Token.fault?_eq_unterminated_iff]

namespace Scanner

/-- What only tokens before the end of the text have is had by the same tokens without it. Faults
and errors are of this kind. -/
theorem filterMap_dropLast {α : Type} (s : Scanner) {f : Token → Option α}
    (hf : ∀ t : Token, t.kind = .eof → f t = none) :
    s.tokens.dropLast.filterMap f = s.tokens.filterMap f := by
  obtain ⟨last, hlast, htokens⟩ := s.exists_tokens_eq
  rw [htokens, List.dropLast_concat]
  simp [hf last hlast]

/-- The line feed at the end of a line is no fault, and closes no string. So a line may be looked at
without it.

**Proof sketch.** A string that is open before the line feed is open behind it. If there is none,
the tokens on both sides of the line feed are apart by `Scanner.tokens_extend`, and behind it there
is only the end of the text. -/
theorem lineFaults_append_feed {body : List Char}
    (h : .unterminatedString ∉ lineFaults (body ++ ['\n'])) :
    .unterminatedString ∉ lineFaults body ∧ lineFaults (body ++ ['\n']) = lineFaults body := by
  have hclosed : .unterminatedString ∉ lineFaults body := by
    intro hmem
    refine h ((unterminated_mem_lineFaults_iff 1).2 ?_)
    exact exists_unterminated_extend ((unterminated_mem_lineFaults_iff 1).1 hmem) List.not_mem_nil
  have hall : ∀ t ∈ (Scanner.mk body 1 false).tokens, t.kind ≠ .error .unterminatedString :=
    fun t ht hkind => hclosed ((unterminated_mem_lineFaults_iff 1).2 ⟨t, ht, hkind⟩)
  have hline : (Scanner.mk (body ++ ['\n']) 1 false).tokens =
      (Scanner.mk body 1 false).tokens.dropLast ++ ((Scanner.mk body 1 false).below []).tokens :=
    tokens_extend hall []
  -- behind the line feed there is nothing but the end of the text
  have hend : ((Scanner.mk body 1 false).below []).tokens.filterMap Token.fault? = [] := by
    rw [tokens_of_eof rfl]
    rfl
  refine ⟨hclosed, ?_⟩
  rw [lineFaults_eq (body ++ ['\n']) 1, hline, List.filterMap_append, hend, List.append_nil,
    filterMap_dropLast _ fun t ht => (Token.error?_of_eof ht).2, ← lineFaults_eq]

/-- **The errors of lines are those of their text**, if every string is closed on its line: each
fault of a line is an error on that line.

**Proof sketch.** Induction on the lines. The tokens before the first line feed are those of the
first line, and behind it there are the tokens of the other lines, on later lines. -/
theorem errors_flatten {ls : List (List Char)} (h : Lined '\n' ls)
    (hclosed : ∀ line ∈ ls, .unterminatedString ∉ lineFaults line) (number : Nat) :
    (Scanner.mk ls.flatten (UInt32.ofNat number) false).tokens.filterMap Token.error? =
      (ls.zipIdx number).flatMap fun p =>
        (lineFaults p.1).map fun fault => ⟨UInt32.ofNat p.2, fault⟩ := by
  have hline {line : List Char} (hline : '\n' ∉ line) (number : UInt32) :
      (Scanner.mk line number false).tokens.filterMap Token.error? =
        (lineFaults line).map fun fault => ⟨number, fault⟩ := by
    rw [filterMap_error? fun t ht => line_of_mem_tokens hline ht, ← lineFaults_eq]
  induction h generalizing number with
  | nil =>
    rw [tokens_of_eof rfl]
    rfl
  | @last line hfeed _ =>
    rw [List.flatten_singleton, hline hfeed]
    simp
  | @cons body rest hbody _ ih =>
    obtain ⟨hfirst, hothers⟩ := List.forall_mem_cons.1 hclosed
    obtain ⟨hopen, hfaults⟩ := lineFaults_append_feed hfirst
    have hall : ∀ t ∈ (Scanner.mk body (UInt32.ofNat number) false).tokens,
        t.kind ≠ .error .unterminatedString :=
      fun t ht hkind => hopen ((unterminated_mem_lineFaults_iff _).2 ⟨t, ht, hkind⟩)
    have hbelow : (Scanner.mk body (UInt32.ofNat number) false).below rest.flatten =
        ⟨rest.flatten, UInt32.ofNat (number + 1), false⟩ := by
      rw [below, lineFeeds_eq_zero hbody, UInt32.ofNat_add]
      simp
    have htokens : (Scanner.mk (body ++ '\n' :: rest.flatten) (UInt32.ofNat number) false).tokens =
        (Scanner.mk body (UInt32.ofNat number) false).tokens.dropLast ++
          (Scanner.mk rest.flatten (UInt32.ofNat (number + 1)) false).tokens :=
      hbelow ▸ tokens_extend hall rest.flatten
    rw [List.flatten_cons, List.append_assoc, List.singleton_append, htokens,
      List.filterMap_append, filterMap_dropLast _ fun t ht => (Token.error?_of_eof ht).1,
      hline hbody, ih hothers, List.zipIdx_cons, List.flatMap_cons, hfaults]

end Scanner

/-! ## What is told of source text -/

namespace Listing

/-- Lines of two texts are ended one by one, so that the texts may be told one after the other. -/
theorem unlines_append (lines more : List String) :
    unlines (lines ++ more) = unlines lines ++ unlines more := by
  rw [unlines, List.map_append, String.join_append]
  rfl

/-- Lines may be joined before they are ended. The messages of one text are told at once in this
way. -/
theorem unlines_intercalate (line : String) (lines : List String) :
    unlines [String.intercalate "\n" (line :: lines)] = unlines (line :: lines) := by
  have hjoin : ['\n'].intercalate ((line :: lines).map String.toList) ++ ['\n'] =
      (line :: lines).flatMap fun line => line.toList ++ ['\n'] := by
    induction lines generalizing line with
    | nil => simp
    | cons next lines ih =>
      have hnext := ih next
      simp only [List.map_cons, List.flatMap_cons] at hnext ⊢
      rw [List.intercalate_cons_cons, List.append_assoc, hnext]
  apply String.ext
  simpa [unlines, String.toList_join, List.flatMap_map, String.toList_intercalate] using hjoin

end Listing

/-- A machine finds the errors that the tokens mark, and remembers them. Without errors it remembers
that there were none. -/
theorem Machine.scanSource_apply {W : Type} (m : Machine W) (text : String) :
    let errors := (tokenize text).filterMap Token.error?
    (m.scanSource text).1 = (if errors = [] then .ok else .compileError) ∧
      (m.scanSource text).2.failure = if errors = [] then none else some (.compile errors) := by
  intro errors
  have hcheck : checkTokens (tokenize text) =
      if errors = [] then .ok (tokenize text) else .error errors := by
    unfold checkTokens
    split <;> simp_all [errors]
  simp only [scanSource, hcheck]
  by_cases h : errors = []
  · simp [h]
  · simp [h]

namespace Shell

/-- What a shell tells, as text: every diagnostic is ended by a line feed, as on the error
stream. -/
def errorText (s : Shell) : String := Listing.unlines s.diagnostics

/-- A dump of tokens tells nothing, as it goes to the output and not to the error stream. -/
theorem showTokens_kept (s : Shell) (text : String) :
    (s.showTokens text).options = s.options ∧ (s.showTokens text).diagnostics = s.diagnostics := by
  unfold showTokens
  cases s.options.tokens with
  | none => exact ⟨rfl, rfl⟩
  | some format =>
    have htold := s.diagnostics_resume (s.machine.noteTokens (tokenize text))
    cases format with
    | table => exact ⟨rfl, htold⟩
    | json => exact ⟨rfl, htold⟩

/-- Source text is checked by its errors, which are told together in one diagnostic. -/
theorem checkSource_apply {s : Shell} (hemit : s.options.emit = none) (text : String) :
    let errors := (tokenize text).filterMap Token.error?
    (s.checkSource text).1 = (if errors = [] then .ok else .compileError) ∧
      (s.checkSource text).2.options = s.options ∧
      (s.checkSource text).2.diagnostics = s.diagnostics ++
        if errors = [] then []
        else [String.intercalate "\n" (errors.map LexicalError.message)] := by
  intro errors
  have hoptions (s : Shell) (m : Machine) : (s.resume m).tellFailure.options = s.options := by
    unfold tellFailure
    split <;> rfl
  obtain ⟨hverdict, hfailure⟩ := s.machine.scanSource_apply text
  simp only [checkSource, hemit, Option.isSome_none, Bool.false_eq_true, if_false]
  refine ⟨hverdict, hoptions s _, ?_⟩
  have hresumed : (s.resume (s.machine.scanSource text).2).machine.failure =
      if errors = [] then none else some (.compile errors) := hfailure
  rw [diagnostics_tellFailure, diagnostics_resume, hresumed]
  split <;> rfl

/-- What a shell tells of source text: the messages of its errors. The text is not run, and the
verdict says whether there are any.

**Proof sketch.** Showing the tokens tells nothing, and the check tells its errors in one
diagnostic, which are the same lines as if each were told on its own. -/
theorem submit_source {s : Shell} (hsource : s.options.assembly = false)
    (hemit : s.options.emit = none) (text name : String) (d : Disk) :
    let errors := (tokenize text).filterMap Token.error?
    ∃ t, s.submit Disk.fileSystem text name d =
        ((t, .ok (if errors = [] then .ok else .compileError)), d) ∧
      t.options = s.options ∧
      t.errorText = s.errorText ++ Listing.unlines (errors.map LexicalError.message) := by
  intro errors
  obtain ⟨hoptions, hshown⟩ := s.showTokens_kept text
  obtain ⟨hverdict, hkept, htold⟩ := checkSource_apply (hoptions ▸ hemit) text
  refine ⟨((s.showTokens text).checkSource text).2, ?_, hkept.trans hoptions, ?_⟩
  · rw [submit, hoptions, hsource, ← hverdict]
    rfl
  · rw [errorText, htold, hshown, Listing.unlines_append, errorText]
    congr 1
    change Listing.unlines (if errors = [] then [] else
      [String.intercalate "\n" (errors.map LexicalError.message)]) = _
    cases errors with
    | nil => rfl
    | cons e more => exact Listing.unlines_intercalate e.message (more.map LexicalError.message)

end Shell

/-! ## The prompt and a file -/

/-- The errors of lines are told line by line, with the numbers of the lines, if these fit into
words. -/
theorem Lined.map_message_errors {ls : List (List Char)} (h : Lined '\n' ls)
    (hclosed : ∀ line ∈ ls, .unterminatedString ∉ lineFaults line)
    (hlength : ls.length < UInt32.size) :
    ((tokenize (String.ofList ls.flatten)).filterMap Token.error?).map LexicalError.message =
      (ls.zipIdx 1).flatMap fun p => (lineFaults p.1).map fun fault => fault.told p.2 := by
  have herrors := Scanner.errors_flatten h hclosed 1
  rw [Scanner.tokenize_eq_tokens, Scanner.ofString, String.toList_ofList]
  refine (congrArg (List.map LexicalError.message) herrors).trans ?_
  rw [List.map_flatMap, List.flatMap_def, List.flatMap_def]
  refine congrArg List.flatten (List.map_congr_left fun p hp => ?_)
  obtain ⟨-, hlt, -⟩ := List.mem_zipIdx (x := p.1) (i := p.2) hp
  rw [List.map_map]
  exact List.map_congr_left fun fault _ => fault.message_ofNat (by omega)

/-- Lines are at most one more than line feeds, so that a bound on the line feeds of an input is one
on its lines. -/
theorem Lined.length_le {α : Type} [BEq α] [LawfulBEq α] {feed : α} {ls : List (List α)}
    (h : Lined feed ls) : ls.length ≤ ls.flatten.count feed + 1 := by
  induction h with
  | nil => exact Nat.zero_le _
  | last => exact Nat.le_add_left 1 _
  | cons _ _ ih =>
    simp only [List.length_cons, List.flatten_cons, List.count_append, List.count_singleton_self]
    omega

/-- **What the prompt tells of an input**: the messages of its lines, each of which is the first
line.

**Proof sketch.** Induction on the lines. A line is scanned alone, so its number is one. -/
theorem Repl.runLines_source (prompt : String) {s : Shell} (hsource : s.options.assembly = false)
    (hemit : s.options.emit = none) (d : Disk) {ls : List (List UInt8)}
    (hlined : Lined '\n' (ls.map Text.decodeUtf8))
    (hclosed : ∀ line ∈ ls.map Text.decodeUtf8, .unterminatedString ∉ lineFaults line) :
    ∃ r, (new prompt s).runLines Disk.fileSystem ls d = ((r, .ok ()), d) ∧
      r.shell.errorText = s.errorText ++ Listing.unlines
        ((ls.map Text.decodeUtf8).flatMap fun line => (lineFaults line).map fun fault =>
          fault.told 1) := by
  induction ls generalizing s with
  | nil =>
    refine ⟨⟨prompt, s.print prompt, ""⟩, rfl, ?_⟩
    exact String.append_empty.symm
  | cons line rest ih =>
    obtain ⟨hfirst, hothers⟩ := List.forall_mem_cons.1 hclosed
    have happend : Lined '\n' ([Text.decodeUtf8 line] ++ rest.map Text.decodeUtf8) := hlined
    have hline := happend.of_append_left
    have hrest := happend.of_append_right
    have hone : [Text.decodeUtf8 line].length < UInt32.size := by
      rw [List.length_singleton]
      decide
    have hmessages := hline.map_message_errors (by simpa using hfirst) hone
    rw [List.flatten_singleton] at hmessages
    obtain ⟨t, hsubmit, hoptions, htold⟩ := Shell.submit_source (s := s.print prompt) hsource hemit
      (String.ofList (Text.decodeUtf8 line)) inputName d
    have hasked : (new prompt s).ask.shell.submit Disk.fileSystem
        (String.ofList (Text.decodeUtf8 line)) inputName d = _ := hsubmit
    have hfeed : (new prompt s).ask.feed Disk.fileSystem (Text.decodeUtf8 line) d =
        ((new prompt t, .ok ()), d) := by
      rw [feed, if_neg (by simp [ask, new, Shell.print, hsource]), Repl.submit, Disk.bind_apply,
        hasked]
      rfl
    obtain ⟨r, hrun, htext⟩ := ih (s := t) (by rw [hoptions]; exact hsource)
      (by rw [hoptions]; exact hemit) hrest hothers
    refine ⟨r, ?_, ?_⟩
    · rw [runLines, Disk.bind_apply, hfeed]
      exact hrun
    · have hprinted : (s.print prompt).errorText = s.errorText := rfl
      rw [htext, htold, hmessages, hprinted, List.map_cons, List.flatMap_cons,
        Listing.unlines_append, String.append_assoc]
      simp

/-- **The prompt and a file agree** on source text in which every string is closed on its line: what
the prompt tells of the lines of an input, as if each of them were the first one, is what is told of
a file with the same bytes, but for the numbers of the lines. The exit code says whether anything is
told.

**Proof sketch.** The lines of the bytes are decoded to lines of the text by `Lined.decodeUtf8`. The
errors of that text are the faults of its lines by `Scanner.errors_flatten`, and the prompt tells
the faults of one line after the other by `Repl.runLines_source`. -/
theorem Shell.prompt_agrees_with_file {options options' : ShellOptions}
    (hsource : options.assembly = false) (hemit : options.emit = none)
    (hsource' : options'.assembly = false) (hemit' : options'.emit = none)
    (color color' : Bool) (prompt : String) {path : String} {input : List UInt8} {d : Disk}
    (hpath : Path.extension? path ≠ some imageExtension) (hread : d.tree.read path = .ok input)
    (hfeeds : input.count 10 < 2 ^ 32 - 1)
    (hclosed : ∀ line ∈ byteLines input,
      .unterminatedString ∉ lineFaults (Text.decodeUtf8 line)) :
    let lines := (byteLines input).map Text.decodeUtf8
    ∃ r s code,
      (Repl.new prompt (new options color)).run Disk.fileSystem input d = ((r, .ok ()), d) ∧
      r.shell.errorText = Listing.unlines
        (lines.flatMap fun line => (lineFaults line).map fun fault => fault.told 1) ∧
      (new options' color').openFile Disk.fileSystem path d = ((s, .ok code), d) ∧
      s.errorText = Listing.unlines
        ((lines.zipIdx 1).flatMap fun p => (lineFaults p.1).map fun fault => fault.told p.2) ∧
      code = if lines.flatMap lineFaults = [] then 0 else 65 := by
  intro lines
  obtain ⟨hbytes, hinput⟩ := lined_byteLines input
  obtain ⟨hlined, hdecoded⟩ := hbytes.decodeUtf8
  rw [hinput] at hdecoded
  have hlines : ∀ line ∈ lines, .unterminatedString ∉ lineFaults line := by
    intro line hline
    obtain ⟨bytes, hmem, rfl⟩ := List.mem_map.1 hline
    exact hclosed bytes hmem
  have hlength : lines.length < UInt32.size := by
    have hle := hbytes.length_le
    have hsize : UInt32.size = 2 ^ 32 := rfl
    rw [hinput] at hle
    rw [List.length_map]
    omega
  have hmessages := hlined.map_message_errors hlines hlength
  rw [hdecoded] at hmessages
  obtain ⟨r, hrun, htext⟩ := Repl.runLines_source prompt (s := new options color) hsource hemit d
    hlined hlines
  obtain ⟨s, hsubmit, -, htold⟩ := submit_source (s := new options' color') hsource' hemit'
    (String.ofList (Text.decodeUtf8 input)) (nameOf path) d
  have hnone : (tokenize (String.ofList (Text.decodeUtf8 input))).filterMap Token.error? = [] ↔
      lines.flatMap lineFaults = [] := by
    have hpairs : lines.flatMap lineFaults = (lines.zipIdx 1).flatMap fun p => lineFaults p.1 :=
      calc lines.flatMap lineFaults
        _ = ((lines.zipIdx 1).map Prod.fst).flatMap lineFaults := by rw [List.zipIdx_map_fst]
        _ = (lines.zipIdx 1).flatMap fun p => lineFaults p.1 := List.flatMap_map _ _ _
    rw [← List.map_eq_nil_iff, hmessages, hpairs]
    simp only [List.flatMap_eq_nil_iff, List.map_eq_nil_iff]
    rfl
  refine ⟨r, s, _, hrun, htext.trans String.empty_append, ?_, ?_, rfl⟩
  · rw [openFile_apply _ _ _ hread, if_neg hpath, hsubmit]
    simp only [hnone]
    split <;> rfl
  · rw [htold, hmessages]
    exact String.empty_append

/-- A quote in a comment, a byte that is no text, and no line feed at the end. The byte is read as a
character that is unexpected, on both sides. -/
theorem Shell.prompt_agrees_with_file_stray_byte :
    let input :=
      Sink.textBytes "print 1;\n@ // \"\r\n# " ++ [0xFF] ++ Sink.textBytes " \"a\"\n\n$"
    let d : Disk := ⟨⟨[([['.'], "a.lox".toList], .file input)]⟩, []⟩
    (Path.extension? "a.lox" ≠ some imageExtension ∧ d.tree.read "a.lox" = .ok input ∧
      input.count 10 < 2 ^ 32 - 1 ∧
      ∀ line ∈ byteLines input, .unterminatedString ∉ lineFaults (Text.decodeUtf8 line)) ∧
    ∃ r s,
      (Repl.new "> " (new .plain false)).run Disk.fileSystem input d = ((r, .ok ()), d) ∧
      r.shell.errorText =
        Listing.unlines (List.replicate 4 "[line 1] Error: Unexpected character.") ∧
      (new .plain false).openFile Disk.fileSystem "a.lox" d = ((s, .ok 65), d) ∧
      s.errorText = Listing.unlines
        ["[line 2] Error: Unexpected character.", "[line 3] Error: Unexpected character.",
          "[line 3] Error: Unexpected character.", "[line 5] Error: Unexpected character."] := by
  intro input d
  have hpath : Path.extension? "a.lox" ≠ some imageExtension := by decide +kernel
  have hread : d.tree.read "a.lox" = .ok input := toOption_eq_some_iff.1 (by decide +kernel)
  have hfeeds : input.count 10 < 2 ^ 32 - 1 := by decide +kernel
  have hclosed : ∀ line ∈ byteLines input,
      .unterminatedString ∉ lineFaults (Text.decodeUtf8 line) := by decide +kernel
  have hsource : ShellOptions.plain.assembly = false := rfl
  have hemit : ShellOptions.plain.emit = none := rfl
  obtain ⟨r, s, code, hrun, htext, hopen, htext', hcode⟩ := prompt_agrees_with_file hsource hemit
    hsource hemit false false "> " hpath hread hfeeds hclosed
  obtain rfl : code = 65 := hcode.trans (by decide +kernel)
  exact ⟨⟨hpath, hread, hfeeds, hclosed⟩, r, s, hrun, htext.trans (by decide +kernel), hopen,
    htext'.trans (by decide +kernel)⟩

end ChunkMachine
