import ChunkMachine.Proofs.Machine.Frame
import ChunkMachine.Proofs.Storage.Disk
import ChunkMachine.Shell.Basic

set_option relaxedAutoImplicit false
set_option autoImplicit false

/-!
# The work of a shell

What a shell does with a file, one step after another: it reads the file, makes a chunk
out of it, writes the image of the chunk, and calls the machine. Beside its output it tells
diagnostics; records of the machine stand between them, and do not count.

## Main definitions

* `Shell.diagnostics` — the diagnostics that were told.
* `Shell.statusLine` — the text of a status line.

## Main results

* `Shell.openFile_eq`, `Shell.launch_apply` — the steps on files.
* `Shell.call_quiet` — what a call does if no listing is asked for.
-/

namespace ChunkMachine.Shell

/-- The diagnostics that were told, in order. Records are told among them, and are left out. -/
def diagnostics (s : Shell) : List String := s.notices.toList.filterMap Notice.diagnostic?

/-- The text of a status line: what was done to which file, and how long it is. -/
def statusLine (color : Bool) (hue : TagColor) (tag path : String) (size : Nat) : String :=
  s!"{tagText color hue tag} {path} ({size} bytes)"

/-! ## Diagnostics -/

section Diagnostics

variable (s : Shell)

/-- A fresh shell has told nothing. -/
@[simp]
theorem diagnostics_new (options : ShellOptions) (color : Bool) :
    (new options color).diagnostics = [] := rfl

/-- What is told comes behind what was told before. -/
@[simp]
theorem diagnostics_tell (text : String) : (s.tell text).diagnostics = s.diagnostics ++ [text] := by
  simp [diagnostics, tell, Notice.diagnostic?]

/-- A status line is a diagnostic like any other. -/
@[simp]
theorem diagnostics_tellStatus (hue : TagColor) (tag path : String) (size : Nat) :
    (s.tellStatus hue tag path size).diagnostics =
      s.diagnostics ++ [statusLine s.color hue tag path size] :=
  s.diagnostics_tell _

/-- Records are no diagnostics, so it does not matter how many a machine brings back. -/
@[simp]
theorem diagnostics_resume (m : Machine) : (s.resume m).diagnostics = s.diagnostics := by
  have hrecords : (m.log.map Notice.record).toList.filterMap Notice.diagnostic? = [] := by
    rw [Array.toList_map, List.filterMap_eq_nil_iff]
    intro notice hnotice
    obtain ⟨record, -, rfl⟩ := List.mem_map.1 hnotice
    rfl
  rw [diagnostics, resume, Array.toList_append, List.filterMap_append, hrecords, List.append_nil]
  rfl

/-- The error of the last call is told if there was one. Otherwise nothing is. -/
@[simp]
theorem diagnostics_tellFailure :
    s.tellFailure.diagnostics =
      s.diagnostics ++ (s.machine.failure.map CallError.message).toList := by
  unfold tellFailure
  cases s.machine.failure with
  | none => simp
  | some e => simp

/-- Telling an error leaves the machine alone, and with it the memory of the error. -/
@[simp]
theorem machine_tellFailure : s.tellFailure.machine = s.machine := by
  unfold tellFailure
  split <;> rfl

end Diagnostics

/-! ## Calls -/

/-- What a call does if no listing is asked for: the machine runs the chunk, and its error is
told. -/
theorem call_quiet {s : Shell} (h : s.options.listing = false) (c : Chunk) (name : String) :
    (s.call c name).1 = (s.machine.call c).1 ∧
      (s.call c name).2.machine.sink = (s.machine.call c).2.sink ∧
      (s.call c name).2.diagnostics =
        s.diagnostics ++ ((s.machine.call c).2.failure.map CallError.message).toList := by
  have hlisting : s.showListing c name = s := by
    rw [showListing, h]
    rfl
  unfold call
  rw [hlisting]
  refine ⟨rfl, ?_, ?_⟩
  · rw [machine_tellFailure]
    rfl
  · rw [diagnostics_tellFailure, diagnostics_resume]
    rfl

/-- No tokens are dumped if that is not asked for, and the shell is what it was. -/
theorem showTokens_of_none {s : Shell} (h : s.options.tokens = none) (text : String) :
    s.showTokens text = s := by
  rw [showTokens, h]

/-! ## Steps on files -/

section Steps

variable {σ : Type} {fs : FileSystem (StateM σ)} (s : Shell) (c : Chunk)
  (name path : String) (d : σ)

/-- A chunk is run once its image was written, if that is asked for. -/
theorem launch_apply :
    s.launch fs c name d =
      match s.options.emit with
      | none => (((s.call c name).2, .ok (s.call c name).1), d)
      | some p =>
        match replaceFile fs p (Image.encode c) d with
        | (.error e, d) => ((s, .error e), d)
        | (.ok (), d) =>
          let s := s.tellStatus .green "emit" p (Image.encode c).length
          (((s.call c name).2, .ok (s.call c name).1), d) := by
  rw [launch, Disk.bind_apply, writeImage]
  cases s.options.emit with
  | none => rfl
  | some p =>
    simp only
    rw [Disk.bind_apply]
    rcases replaceFile fs p (Image.encode c) d with ⟨e | _, written⟩ <;> rfl

/-- A text that is assembled is run as its chunk, if its tokens are not dumped before. -/
theorem submit_apply {text : String} (htokens : s.options.tokens = none)
    (hassembly : s.options.assembly = true) (h : Assembly.assemble text = .ok c) :
    s.submit fs text name d = s.launch fs c name d := by
  rw [submit, showTokens_of_none htokens, hassembly]
  simp only [if_true, h]

/-- A file is run as an image or as text, by its name, if it can be read. The contents have no say
in which of the two it is. -/
theorem openFile_eq :
    s.openFile fs path d =
      match fs.read path d with
      | (.error e, d) =>
        ((s.tell s!"Could not read file \"{path}\": {e.message}", .ok ioErrorCode), d)
      | (.ok bytes, d) =>
        let out :=
          if Path.extension? path = some imageExtension then s.openImage fs path bytes d
          else s.submit fs (String.ofList (Text.decodeUtf8 bytes)) (nameOf path) d
        ((out.1.1, out.1.2.map Verdict.exitCode), out.2) := by
  rw [openFile, Disk.bind_apply]
  rcases fs.read path d with ⟨e | bytes, d⟩
  · rfl
  · simp only
    split <;> rfl

/-- A file of a disk that can be read is run as an image or as text, by its name. Reading it does
not change the disk. -/
theorem openFile_apply (d : Disk) {bytes : List UInt8} (h : d.tree.read path = .ok bytes) :
    s.openFile Disk.fileSystem path d =
      let out :=
        if Path.extension? path = some imageExtension then
          s.openImage Disk.fileSystem path bytes d
        else
          s.submit Disk.fileSystem (String.ofList (Text.decodeUtf8 bytes)) (nameOf path) d
      ((out.1.1, out.1.2.map Verdict.exitCode), out.2) := by
  have hread : Disk.fileSystem.read path d = (.ok bytes, d) := congrArg (·, d) h
  rw [openFile_eq, hread]

/-- An image that can be loaded is run as its chunk, behind a status line that tells its length. -/
theorem openImage_apply {image : List UInt8} (h : Image.load image = .ok c) :
    s.openImage fs path image d =
      (s.tellStatus .blue "load" path image.length).launch fs c (nameOf path) d := by
  rw [openImage, h]

end Steps

end ChunkMachine.Shell
