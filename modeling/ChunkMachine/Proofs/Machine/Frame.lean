import ChunkMachine.Proofs.Machine.Walk

set_option relaxedAutoImplicit false
set_option autoImplicit false

/-!
# What the work of a machine depends on

Of a machine, instructions see the stack, the arithmetic and the code. A machine also keeps records,
remembers the error of its last call, and may be set to record every instruction; this is its frame,
and none of it has a say in what instructions do. Nor do they look into the output: all that they
learn of it is whether a write or a flush went well.

So a call in another frame, and with another output that answers alike, ends in the same way and
leaves the same values. It adds the same records if it is traced, one for every step, and forgets
nothing. This is said once, for instructions, steps, runs and calls, and all that is said about
machines in other frames or with other outputs follows from it.

## Main definitions

* `Machine.Frame`, `Machine.inFrame` — what a machine keeps beside its work, and a machine in
  another frame and with another output.
* `Machine.framed`, `Machine.redirect` — a machine in another frame, and one with another output.
* `Machine.stepRecord`, `Machine.stepRecords` — the record of one step, and those of several.
* `Machine.befores` — the machines of a run as they are before each of its steps.
* `Output.Alike` — a relation between outputs that answer alike and stay related.
* `Machine.Mirrors` — the same result, on machines that differ in their frames and outputs only.

## Main results

* `Machine.execute_inFrame`, `Machine.step_inFrame` — instructions and steps see neither the frame
  nor the output.
* `Machine.evaluate_inFrame` — neither do calls, which add their own records.
* `Machine.evaluate_framed`, `Machine.call_framed` — calls in another frame.
* `Machine.evaluate_eq_fresh` — a call does what it would do on a fresh machine.
-/

namespace ChunkMachine

/-- Outputs that answer alike: related ones give the same answers to a write and to a flush, and are
related again behind it. -/
structure Output.Alike {W W' : Type} [Output W] [Output W'] (R : W → W' → Prop) : Prop where
  /-- They answer a write alike, and are related behind it. -/
  write {w : W} {w' : W'} (h : R w w') (bytes : List UInt8) :
    (Output.write w' bytes).1 = (Output.write w bytes).1 ∧
      R (Output.write w bytes).2 (Output.write w' bytes).2
  /-- They answer a flush alike, and are related behind it. -/
  flush {w : W} {w' : W'} (h : R w w') :
    (Output.flush w').1 = (Output.flush w).1 ∧ R (Output.flush w).2 (Output.flush w').2

/-- An output answers like itself. With this relation only the frame of a machine is changed. -/
theorem Output.alike_eq {W : Type} [Output W] : Output.Alike (Eq : W → W → Prop) where
  write h _ := by subst h; exact ⟨rfl, rfl⟩
  flush h := by subst h; exact ⟨rfl, rfl⟩

namespace Machine

/-! ## Frames -/

/-- What a machine keeps beside its work: whether it records every instruction, what it has recorded
so far, and the error of its last call. None of this has a say in what code does. -/
structure Frame where
  /-- Whether every instruction is recorded. -/
  trace : Bool
  /-- What has been recorded so far, from the first record to the last. -/
  log : Array LogRecord
  /-- The error of the last call that is remembered, if it failed. -/
  failure : Option CallError

/-- The frame with some more records, behind those that it has. -/
def Frame.add (f : Frame) (records : Array LogRecord) : Frame := { f with log := f.log ++ records }

variable {W W' : Type} {α : Type}

/-- The frame of a machine, as it is at some point of a run. -/
def frame (m : Machine W) : Frame := ⟨m.config.trace, m.log, m.failure⟩

/-- The machine in another frame, and writing into something else. Its stack, its place in the code
and the rest of its configuration stay what they are. -/
def inFrame (m : Machine W) (f : Frame) (w' : W') : Machine W' :=
  ⟨{ m.config with trace := f.trace }, m.stack, m.ip, m.current, w', f.log, f.failure⟩

/-- The machine in another frame: traced or not, with other records, and with another memory of its
last call. It writes into what it wrote into before. -/
def framed (m : Machine W) (trace : Bool) (log : Array LogRecord) (failure : Option CallError) :
    Machine W :=
  { m with config := { m.config with trace }, log, failure }

/-- The machine that writes into something else. The new output may be of another type, so that a
file can be compared with a list of bytes. -/
def redirect (m : Machine W) (w' : W') : Machine W' :=
  ⟨m.config, m.stack, m.ip, m.current, w', m.log, m.failure⟩

/-- The record of the step that a machine is about to make: its stack, and below that the row of the
listing for the instruction that comes next. At the end of the code that row says so. -/
def stepRecord (m : Machine W) (c : Chunk) : LogRecord :=
  ⟨.trace, "lox_vm::exec", "          " ++ stackText m.stack ++ "\n" ++ Listing.rowAt c m.ip⟩

/-- The records of the steps that machines are about to make, if they are traced. Otherwise nothing
is recorded at all. -/
def stepRecords (trace : Bool) (c : Chunk) (ms : List (Machine W)) : Array LogRecord :=
  if trace then (ms.map fun m => m.stepRecord c).toArray else #[]

/-- Two results of the same kind. The machine of the second one is that of the first one in a frame,
and their outputs are related. All laws of this file have this form. -/
def Mirrors (R : W → W' → Prop) (f : Frame) (r : α × Machine W) (r' : α × Machine W') : Prop :=
  ∃ w', R r.2.sink w' ∧ r' = (r.1, r.2.inFrame f w')

namespace Mirrors

variable {R : W → W' → Prop} {f : Frame} {r s : α × Machine W} {r' : α × Machine W'}

/-- With the same output only the frame differs, so that the second result can be written down. -/
theorem eq (h : Mirrors Eq f r s) : s = (r.1, r.2.inFrame f r.2.sink) := by
  obtain ⟨_, rfl, hs⟩ := h
  exact hs

/-- What a machine does in its own frame tells the frame that it is left in. If it does the same
with another output, then only the output differs. -/
theorem redirect (h : Mirrors R f r r') (hself : Mirrors Eq f r r) :
    ∃ w', R r.2.sink w' ∧ r' = (r.1, r.2.redirect w') := by
  obtain ⟨w', hrelated, rfl⟩ := h
  have hframe : r.2.frame = f := congrArg (fun s => s.2.frame) hself.eq
  exact ⟨w', hrelated, by rw [← hframe]; rfl⟩

end Mirrors

/-! ## Instructions -/

section Instructions

variable {R : W → W' → Prop} {m : Machine W} {w' : W'} (f : Frame)

/-- A push depends on the stack and on its capacity, of which neither belongs to the frame. -/
theorem push_inFrame (h : R m.sink w') (v : Value) :
    Mirrors R f (m.push v) ((m.inFrame f w').push v) := by
  have hstack : (m.inFrame f w').stack = m.stack := rfl
  unfold push
  rw [hstack]
  cases m.stack.push v <;> exact ⟨w', h, rfl⟩

/-- An operation on the topmost value depends on the stack. -/
theorem applyUnary_inFrame (h : R m.sink w') (op : Value → Value) :
    Mirrors R f (m.applyUnary op) ((m.inFrame f w').applyUnary op) := by
  have hstack : (m.inFrame f w').stack = m.stack := rfl
  unfold applyUnary
  rw [hstack]
  cases m.stack.pop with
  | error fault => exact ⟨w', h, rfl⟩
  | ok p => exact push_inFrame (m := { m with stack := p.2 }) f h (op p.1)

/-- So does an operation on the two topmost values, whether both are there or not. -/
theorem applyBinary_inFrame (h : R m.sink w') (op : Value → Value → Value) :
    Mirrors R f (m.applyBinary op) ((m.inFrame f w').applyBinary op) := by
  have hstack : (m.inFrame f w').stack = m.stack := rfl
  unfold applyBinary
  rw [hstack]
  cases m.stack.pop with
  | error fault => exact ⟨w', h, rfl⟩
  | ok p =>
    simp only
    cases p.2.pop with
    | error fault => exact ⟨w', h, rfl⟩
    | ok q => exact push_inFrame (m := { m with stack := q.2 }) f h (op q.1 p.1)

variable [Output W] [Output W']

/-- Instructions that are no returns have nothing to do with the output at all, so any two outputs
will do, whether they answer alike or not. -/
theorem execute_inFrame_of_ne_ret (h : R m.sink w') {i : Instruction} (hi : i ≠ .ret) :
    Mirrors R f (m.execute i) ((m.inFrame f w').execute i) := by
  cases i with
  | load v => exact push_inFrame f h v
  | binary op => exact applyBinary_inFrame f h (m.config.arithmetic.binary op)
  | negate => exact applyUnary_inFrame f h m.config.arithmetic.negate
  | ret => exact absurd rfl hi

omit [Output W] [Output W'] in
/-- Reading the code records the instruction if the machine is traced, and otherwise does not see
the frame or the output. This is the only place at which a frame changes. -/
theorem advance_inFrame (m : Machine W) (w' : W') (c : Chunk) (n : Nat) :
    (m.inFrame f w').advance c n =
      (m.advance c n).inFrame (f.add (stepRecords f.trace c [m])) w' := by
  -- a frame that is put on covers what was recorded in the frame before
  have hcovered : ∀ g : Frame, (m.advance c n).inFrame g w' =
      ({ m with current := m.ip, ip := m.ip + n } : Machine W).inFrame g w' := by
    intro g
    unfold advance traceStep
    split <;> rfl
  obtain ⟨trace, log, failure⟩ := f
  rw [hcovered]
  cases trace with
  | false => simp [advance, traceStep, inFrame, Frame.add, stepRecords]
  | true => simp [advance, traceStep, inFrame, Frame.add, stepRecords, note, stepRecord]

/-- A step depends on what the instruction depends on that it finds. If it finds none, it fails in
the same way in every frame. -/
theorem step_inFrame_of_execute (h : R m.sink w') (c : Chunk)
    (hexecute : ∀ i, c.fetch m.ip = .ok i → ∀ (n : Machine W) (g : Frame), R n.sink w' →
      Mirrors R g (n.execute i) ((n.inFrame g w').execute i)) :
    Mirrors R (f.add (stepRecords f.trace c [m])) (m.step c) ((m.inFrame f w').step c) := by
  have hsink (n : Nat) : (m.advance c n).sink = m.sink := by
    unfold advance traceStep
    split <;> rfl
  rcases step_uniform c m.ip with ⟨i, hi, hstep⟩ | ⟨fault, n, -, hstep⟩
  · rw [hstep m rfl, hstep (m.inFrame f w') rfl, advance_inFrame]
    exact hexecute i hi _ _ (by rwa [hsink])
  · rw [hstep m rfl, hstep (m.inFrame f w') rfl, advance_inFrame]
    exact ⟨w', by rwa [hsink], rfl⟩

variable (hR : Output.Alike R)
include hR

/-- Of its output the return instruction sees the two answers only: that to the write of the value,
and that to the flush.

**Proof sketch.** Each of the two answers is the same on both sides, and leaves related outputs. A
return that fails for want of a value has asked for none. -/
theorem finish_inFrame (h : R m.sink w') : Mirrors R f m.finish (m.inFrame f w').finish := by
  have hstack : (m.inFrame f w').stack = m.stack := rfl
  have hsink : (m.inFrame f w').sink = w' := rfl
  unfold finish
  rw [hstack, hsink]
  cases m.stack.pop with
  | error fault => exact ⟨w', h, rfl⟩
  | ok p =>
    simp only
    obtain ⟨hanswer, hwritten⟩ := hR.write h (Sink.textBytes (p.1.text ++ "\n"))
    generalize Output.write m.sink (Sink.textBytes (p.1.text ++ "\n")) = r at hanswer hwritten
    generalize Output.write w' (Sink.textBytes (p.1.text ++ "\n")) = r' at hanswer hwritten
    obtain ⟨answer, w₁⟩ := r
    obtain ⟨answer', w₁'⟩ := r'
    -- with one answer on both sides, both go on to the flush or neither does
    obtain rfl : answer' = answer := hanswer
    cases answer' with
    | error cause => exact ⟨w₁', hwritten, rfl⟩
    | ok _ =>
      simp only
      obtain ⟨hanswer, hflushed⟩ := hR.flush hwritten
      generalize Output.flush w₁ = r at hanswer hflushed
      generalize Output.flush w₁' = r' at hanswer hflushed
      obtain ⟨answer, w₂⟩ := r
      obtain ⟨answer', w₂'⟩ := r'
      obtain rfl : answer' = answer := hanswer
      cases answer' with
      | error cause => exact ⟨w₂', hflushed, rfl⟩
      | ok _ => exact ⟨w₂', hflushed, rfl⟩

/-- **Instructions see neither the frame nor the output** of their machine, but for the answers to a
return. -/
theorem execute_inFrame (h : R m.sink w') (i : Instruction) :
    Mirrors R f (m.execute i) ((m.inFrame f w').execute i) := by
  by_cases hi : i = .ret
  · subst hi
    exact finish_inFrame f hR h
  · exact execute_inFrame_of_ne_ret f h hi

/-- **Nor do steps.** A step records itself if the machine is traced, and then executes what it has
found. -/
theorem step_inFrame (h : R m.sink w') (c : Chunk) :
    Mirrors R (f.add (stepRecords f.trace c [m])) (m.step c) ((m.inFrame f w').step c) :=
  step_inFrame_of_execute f h c fun i _ _ g hn => execute_inFrame g hR hn i

end Instructions

/-! ## Calls -/

section Calls

variable [Output W] [Output W']

/-- The machines of a run as they are before each of its steps. The first one is that of the start,
and what the last step leaves is not among them. -/
def befores (m : Machine W) (c : Chunk) : List (Machine W) :=
  m :: ((m.steps c).map Prod.snd).dropLast

/-- A run sees neither the frame nor the output, and records its steps if the machine is traced.

**Proof sketch.** Induction on the run. Each step adds its record behind those that there are, and
the outputs are related again behind it. -/
theorem Run.inFrame {R : W → W' → Prop} (hR : Output.Alike R) {c : Chunk} {m : Machine W}
    {ss : List (StepResult × Machine W)} {out : Except Fault Value × Machine W}
    (hrun : Run c m ss out) {w' : W'} (h : R m.sink w') (f : Frame) :
    Mirrors R (f.add (stepRecords f.trace c (m :: (ss.map Prod.snd).dropLast))) out
      ((m.inFrame f w').run c) := by
  induction hrun generalizing w' f with
  | @last m m' r hstep =>
    obtain ⟨w₁', hrelated, hstep'⟩ := step_inFrame f hR h c
    rw [hstep] at hstep' hrelated
    exact ⟨w₁', hrelated, run_of_final hstep'⟩
  | @next m m' ss out hstep hrest ih =>
    obtain ⟨w₁', hrelated, hstep'⟩ := step_inFrame f hR h c
    rw [hstep] at hstep' hrelated
    have hne : ss.map Prod.snd ≠ [] := by cases hrest <;> simp
    have hrecords (ms : List (Machine W)) : f.add (stepRecords f.trace c (m :: ms)) =
        (f.add (stepRecords f.trace c [m])).add (stepRecords f.trace c ms) := by
      unfold Frame.add
      cases f.trace <;> simp [stepRecords]
    rw [run_of_running hstep', List.map_cons, List.dropLast_cons_of_ne_nil hne, hrecords]
    exact ih hrelated (f.add (stepRecords f.trace c [m]))

/-- **Calls see neither the frame nor the output** of their machine. On a machine whose
configuration is the same, but for being traced or not, and whose output answers alike, a call ends
in the same way and leaves the same values. Behind what was recorded before come the records of the
call, one for each of its steps, if the machine is traced. -/
theorem evaluate_inFrame {R : W → W' → Prop} (hR : Output.Alike R) (m : Machine W)
    (m' : Machine W') (hconfig : m'.config = { m.config with trace := m'.config.trace })
    (h : R m.sink m'.sink) (c : Chunk) :
    Mirrors R (m'.frame.add (stepRecords m'.config.trace c (m.reset.befores c))) (m.evaluate c)
      (m'.evaluate c) := by
  have hreset : m'.reset = m.reset.inFrame m'.frame m'.sink := by
    unfold reset inFrame frame
    rw [hconfig]
  obtain ⟨w', hrelated, hout⟩ := (m.reset.run_steps c).inFrame hR h m'.frame
  refine ⟨w', ?_, Prod.ext ?_ ?_⟩
  · rw [evaluate_snd]
    exact hrelated
  · rw [evaluate_fst, evaluate_fst, hreset, hout]
    rfl
  · rw [evaluate_snd, evaluate_snd, hreset, hout]
    rfl

/-- **Calls do not see the frame** of their machine. Behind what was recorded before come the
records of the call, one for each of its steps, if the machine is traced. -/
theorem evaluate_framed (m : Machine W) (trace : Bool) (log : Array LogRecord)
    (failure : Option CallError) (c : Chunk) :
    (m.framed trace log failure).evaluate c =
      ((m.evaluate c).1,
        (m.evaluate c).2.framed trace
          (log ++ stepRecords trace c (m.reset.befores c)) failure) :=
  (evaluate_inFrame Output.alike_eq m (m.framed trace log failure) rfl rfl c).eq

/-- Nor do calls that are remembered: in another frame they give the same verdict, write the same,
leave the same values and remember the same error. What was remembered before is overwritten. -/
theorem call_framed (m : Machine W) (trace : Bool) (log : Array LogRecord)
    (failure : Option CallError) (c : Chunk) :
    let m' := m.framed trace log failure
    (m'.call c).1 = (m.call c).1 ∧ (m'.call c).2.sink = (m.call c).2.sink ∧
      (m'.call c).2.stack = (m.call c).2.stack ∧ (m'.call c).2.failure = (m.call c).2.failure := by
  intro m'
  simp only [m', call, evaluate_framed]
  rcases m.evaluate c with ⟨e | v, after⟩ <;> exact ⟨rfl, rfl, rfl, rfl⟩

/-- A call keeps the configuration, since no instruction can change it. -/
theorem config_evaluate (m : Machine W) (c : Chunk) : (m.evaluate c).2.config = m.config := by
  rw [evaluate_snd]
  exact (m.reset.run_steps c).config_eq

/-- **A call leaves its own records**, behind those that there were, and remembers what was
remembered before. -/
theorem frame_evaluate (m : Machine W) (c : Chunk) :
    (m.evaluate c).2.frame =
      m.frame.add (stepRecords m.config.trace c (m.reset.befores c)) := by
  have hself := (evaluate_inFrame Output.alike_eq m m rfl rfl c).eq
  exact congrArg (fun out => out.2.frame) hself

/-- **A call does what it would do on a fresh machine** with the same configuration and the same
output: it ends in the same way, and leaves the same machine but for what was recorded and
remembered before. -/
theorem evaluate_eq_fresh (m : Machine W) (c : Chunk) :
    m.evaluate c =
      (((withOutput m.config m.sink).evaluate c).1,
        { ((withOutput m.config m.sink).evaluate c).2 with
          log := m.log ++ ((withOutput m.config m.sink).evaluate c).2.log
          failure := m.failure }) := by
  have hm : m.evaluate c = _ :=
    evaluate_framed (withOutput m.config m.sink) m.config.trace m.log m.failure c
  have hframe := frame_evaluate (withOutput m.config m.sink) c
  have hconfig := config_evaluate (withOutput m.config m.sink) c
  rw [hm]
  generalize (withOutput m.config m.sink).evaluate c = out at hframe hconfig ⊢
  have hrecords : out.2.log = #[] ++ stepRecords m.config.trace c
      ((withOutput m.config m.sink).reset.befores c) := congrArg Frame.log hframe
  have hkept : { out.2.config with trace := m.config.trace } = out.2.config := by
    rw [hconfig]
    rfl
  simp only [framed, hkept, hrecords, Array.empty_append]

end Calls

end Machine

end ChunkMachine
