import ChunkMachine.Proofs.Image.Loading
import ChunkMachine.Proofs.Shell.Steps
import ChunkMachine.Proofs.Storage.Replacement
import ChunkMachine.Proofs.Text.Decoding

set_option relaxedAutoImplicit false
set_option autoImplicit false

/-!
# Images on disks

A text can be run at once, or be turned into an image that is run later. Both do the same. The image
is written before the chunk is run, and what a shell reads from it is the chunk again, so that no
trace is left of how it came about. Likewise an image that is run and written anew stays what it is.

## Main results

* `Shell.call_fresh` — a call in a shell that has not called its machine yet.
* `Shell.openFile_image` — opening an image that can be loaded, without any options.
* `Shell.emit_then_open` — running a text and running its image do the same.
-/

namespace ChunkMachine.Shell

/-- **A call in a shell that has not called its machine yet** does what it does on a machine that
records nothing. The error is told behind what was told before, and whether records are made makes
no difference to any of this. -/
theorem call_fresh (options : ShellOptions) (color : Bool) {s : Shell}
    (hlisting : s.options.listing = false) (hmachine : s.machine = (new options color).machine)
    (c : Chunk) (name : String) :
    let m := Machine.new .standard .unlimited
    (s.call c name).1 = (m.call c).1 ∧
      (s.call c name).2.machine.sink = (m.call c).2.sink ∧
      (s.call c name).2.diagnostics =
        s.diagnostics ++ ((m.call c).2.failure.map CallError.message).toList := by
  intro m
  have hframed : (new options color).machine = m.framed options.trace #[] none := rfl
  obtain ⟨hverdict, hsink, -, hfailure⟩ := m.call_framed options.trace #[] none c
  obtain ⟨hverdict', hsink', hdiagnostics⟩ := call_quiet hlisting c name
  rw [hmachine, hframed] at hverdict' hsink' hdiagnostics
  exact ⟨hverdict'.trans hverdict, hsink'.trans hsink, hfailure ▸ hdiagnostics⟩

/-- A chunk that was run with its image written: the image is read at its path, and the call was
made behind its status line. -/
theorem launch_eq_ok_of_emit {s s' : Shell} {c : Chunk} {name p : String} {verdict : Verdict}
    {d d' : Disk} (hemit : s.options.emit = some p)
    (h : s.launch Disk.fileSystem c name d = ((s', .ok verdict), d')) :
    let told := s.tellStatus .green "emit" p (Image.encode c).length
    d'.tree.read p = .ok (Image.encode c) ∧
      verdict = (told.call c name).1 ∧ s' = (told.call c name).2 := by
  rw [launch_apply, hemit] at h
  simp only at h
  rcases hwrite : replaceFile Disk.fileSystem p (Image.encode c) d with ⟨e | _, written⟩
  · rw [hwrite] at h
    cases h
  · rw [hwrite] at h
    cases h
    exact ⟨read_of_replaceFile hwrite, rfl, rfl⟩

/-- An exit code is that of a verdict. Where a session has a code, there is a verdict that it stands
for. -/
theorem exists_verdict {out : Outcome Verdict × Disk} {s : Shell} {code : Nat} {d : Disk}
    (h : ((out.1.1, out.1.2.map Verdict.exitCode), out.2) = ((s, .ok code), d)) :
    ∃ verdict : Verdict, out = ((s, .ok verdict), d) ∧ code = verdict.exitCode := by
  obtain ⟨⟨s, e | verdict⟩, d⟩ := out
  · cases h
  · cases h
    exact ⟨verdict, rfl, rfl⟩

/-- Opening an image that can be loaded, without any options, tells so and calls the chunk. -/
theorem openFile_image {path : String} {c : Chunk} {image : List UInt8} {d : Disk} (color : Bool)
    (hpath : Path.extension? path = some imageExtension) (hread : d.tree.read path = .ok image)
    (hload : Image.load image = .ok c) :
    ∃ s, (new .plain color).openFile Disk.fileSystem path d =
        ((s, .ok ((Machine.new .standard .unlimited).call c).1.exitCode), d) ∧
      s.machine.sink = ((Machine.new .standard .unlimited).call c).2.sink ∧
      s.diagnostics = statusLine color .blue "load" path image.length ::
        (((Machine.new .standard .unlimited).call c).2.failure.map CallError.message).toList := by
  have hlaunch := openFile_apply (new .plain color) path d hread
  rw [if_pos hpath, openImage_apply _ _ _ _ hload, launch_apply] at hlaunch
  obtain ⟨hverdict, hsink, hdiagnostics⟩ := call_fresh .plain color
    (s := (new .plain color).tellStatus .blue "load" path image.length) rfl rfl c (nameOf path)
  refine ⟨_, hlaunch.trans ?_, hsink, hdiagnostics⟩
  exact congrArg (fun v => ((_, Except.ok (Verdict.exitCode v)), d)) hverdict

/-- **Running a text and running its image do the same.** An assembly text whose image is written on
the way gives the exit code, the output and the diagnostic that its image gives when it is opened
later, without any options; only the status lines differ, the first one telling that the image was
written and the other one that it was read. And an image that is run and written anew is written as
the bytes that were read.

**Proof sketch.** The chunk of a text is well formed and has no defect, so its image is loaded as
that chunk, and what was written is what is read. Both shells call the same chunk on machines that
have not been called yet. For the second part, an image that is loaded is that of its chunk. -/
theorem emit_then_open (color color' : Bool) :
    (∀ {options : ShellOptions} {text path p : String} {c : Chunk} {d d' : Disk} {s : Shell}
        {code : Nat},
      Assembly.assemble text = .ok c → c.code.size ≤ 2 ^ 32 - 1 →
      Path.extension? path ≠ some imageExtension → Path.extension? p = some imageExtension →
      options.assembly = true → options.tokens = none → options.listing = false →
      options.emit = some p →
      d.tree.read path = .ok (Sink.textBytes text) →
      (new options color).openFile Disk.fileSystem path d = ((s, .ok code), d') →
      ∀ e : Disk, e.tree.read p = d'.tree.read p →
        ∃ s', (new .plain color').openFile Disk.fileSystem p e = ((s', .ok code), e) ∧
          s'.machine.sink.content = s.machine.sink.content ∧
          ∃ diagnostic : Option String,
            s.diagnostics =
              statusLine color .green "emit" p (Image.encode c).length :: diagnostic.toList ∧
            s'.diagnostics =
              statusLine color' .blue "load" p (Image.encode c).length :: diagnostic.toList) ∧
    ∀ {options : ShellOptions} {path q : String} {image : List UInt8} {c : Chunk} {d d' : Disk}
        {s : Shell} {code : Nat},
      Path.extension? path = some imageExtension → options.emit = some q →
      d.tree.read path = .ok image → Image.load image = .ok c →
      (new options color).openFile Disk.fileSystem path d = ((s, .ok code), d') →
      d'.tree.read q = .ok image := by
  refine ⟨?_, ?_⟩
  · intro options text path p c d d' s code htext hsize hpath hp hassembly htokens hlisting hemit
      hread hopen e hkept
    have hload := Image.load_encode_of_assemble htext (by omega)
    rw [openFile_apply _ _ _ hread, if_neg hpath, Text.decodeUtf8_textBytes, String.ofList_toList,
      submit_apply _ c _ _ htokens hassembly htext] at hopen
    obtain ⟨verdict, hlaunch, rfl⟩ := exists_verdict hopen
    obtain ⟨hwritten, rfl, rfl⟩ := launch_eq_ok_of_emit hemit hlaunch
    obtain ⟨hverdict, hsink, hdiagnostics⟩ := call_fresh options color
      (s := (new options color).tellStatus .green "emit" p (Image.encode c).length) hlisting rfl c
      (nameOf path)
    obtain ⟨s', hopen', hsink', hdiagnostics'⟩ :=
      openFile_image color' hp (hkept.trans hwritten) hload
    rw [← hverdict] at hopen'
    exact ⟨s', hopen', by rw [hsink', hsink], _, hdiagnostics, hdiagnostics'⟩
  · intro options path q image c d d' s code hpath hemit hread hload hopen
    rw [openFile_apply _ _ _ hread, if_pos hpath, openImage_apply _ _ _ _ hload] at hopen
    obtain ⟨verdict, hlaunch, -⟩ := exists_verdict hopen
    obtain ⟨hwritten, -, -⟩ := launch_eq_ok_of_emit hemit hlaunch
    rw [hwritten, ← (Image.load_eq_ok_iff.1 hload).2.2.1]

/-- A text that fails: its image fails alike, with the same diagnostic behind the status line, and
is copied byte by byte when it is run again. -/
theorem emit_then_open_lone_operand :
    let text := "CONSTANT 1\nADD ; the only value\nRETURN\n"
    let c : Chunk := ⟨#[0, 0, 1, 6], #[1, 1, 2, 3], #[⟨0x3FF0000000000000⟩]⟩
    let d : Disk := ⟨⟨[([['.'], "sum.lasm".toList], .file (Sink.textBytes text))]⟩, []⟩
    let emitting (path : String) : ShellOptions := ⟨true, none, false, false, true, some path⟩
    let first := (new (emitting "sum.loxc") true).openFile Disk.fileSystem "sum.lasm" d
    let third := (new (emitting "copy.loxc") true).openFile Disk.fileSystem "sum.loxc" first.2
    (Assembly.assemble text = .ok c ∧ c.code.size ≤ 2 ^ 32 - 1 ∧
      Path.extension? "sum.lasm" ≠ some imageExtension ∧
      Path.extension? "sum.loxc" = some imageExtension ∧
      d.tree.read "sum.lasm" = .ok (Sink.textBytes text) ∧
      first = ((first.1.1, .ok 70), first.2)) ∧
    (∃ s', (new .plain false).openFile Disk.fileSystem "sum.loxc" first.2 =
        ((s', .ok 70), first.2) ∧
      s'.machine.sink.content = first.1.1.machine.sink.content ∧
      first.1.1.diagnostics =
        [statusLine true .green "emit" "sum.loxc" 47, "Stack underflow.\n[line 2] in script"] ∧
      s'.diagnostics =
        [statusLine false .blue "load" "sum.loxc" 47, "Stack underflow.\n[line 2] in script"]) ∧
    (first.2.tree.read "sum.loxc" = .ok (Image.encode c) ∧ Image.load (Image.encode c) = .ok c ∧
      third = ((third.1.1, .ok 70), third.2)) ∧
    third.2.tree.read "copy.loxc" = .ok (Image.encode c) := by
  intro text c d emitting first third
  have hopened {out : Outcome Nat × Disk} (h : out.1.2.toOption = some 70) :
      out = ((out.1.1, .ok 70), out.2) := by
    rw [← toOption_eq_some_iff.1 h]
  have htext : Assembly.assemble text = .ok c := toOption_eq_some_iff.1 (by decide +kernel)
  have hsize : c.code.size ≤ 2 ^ 32 - 1 := by decide
  have hpath : Path.extension? "sum.lasm" ≠ some imageExtension := by decide +kernel
  have hp : Path.extension? "sum.loxc" = some imageExtension := by decide +kernel
  have hread : d.tree.read "sum.lasm" = .ok (Sink.textBytes text) :=
    toOption_eq_some_iff.1 (by decide +kernel)
  have hfirst : first = ((first.1.1, .ok 70), first.2) := hopened (by decide +kernel)
  have hwritten : first.2.tree.read "sum.loxc" = .ok (Image.encode c) :=
    toOption_eq_some_iff.1 (by decide +kernel)
  have hload : Image.load (Image.encode c) = .ok c := toOption_eq_some_iff.1 (by decide +kernel)
  have hthird : third = ((third.1.1, .ok 70), third.2) := hopened (by decide +kernel)
  obtain ⟨s', hopen, hsink, diagnostic, hdiagnostics, hdiagnostics'⟩ :=
    (emit_then_open true false).1 htext hsize hpath hp rfl rfl rfl rfl hread hfirst first.2 rfl
  have hlength : (Image.encode c).length = 47 := by decide +kernel
  have htold : first.1.1.diagnostics =
      [statusLine true .green "emit" "sum.loxc" 47, "Stack underflow.\n[line 2] in script"] := by
    decide +kernel
  rw [hlength] at hdiagnostics hdiagnostics'
  rw [hdiagnostics, List.cons.injEq] at htold
  rw [htold.2] at hdiagnostics hdiagnostics'
  exact ⟨⟨htext, hsize, hpath, hp, hread, hfirst⟩, ⟨s', hopen, hsink, hdiagnostics, hdiagnostics'⟩,
    ⟨hwritten, hload, hthird⟩, (emit_then_open true false).2 hp rfl hwritten hload hthird⟩

end ChunkMachine.Shell
