import ChunkMachine.Proofs.Machine.Frame
import ChunkMachine.Proofs.Machine.Spelled

set_option relaxedAutoImplicit false
set_option autoImplicit false

/-!
# What a call writes

A machine touches its output in one place only: a return instruction that finds a value takes it,
writes its text on a line of its own, and flushes. All other instructions, and all faults but one,
leave the output alone. So a call with an output that may fail does what the same call does with one
that never fails, and then tries to deliver the value. If that goes wrong it fails with the cause,
and what was taken from the stack stays taken.

## Main definitions

* `Value.lineBytes` — the line that a value is printed as.
* `Output.deliver` — writes some bytes and flushes.
* `Machine.delivering` — what comes of a run if its value is delivered to another output.
* `Sink.LongestFitting` — the longest beginning of some bytes that fits into a sink.

## Main results

* `Machine.Run.delivering` — a run works as with an output that never fails, and then delivers.
* `Machine.Run.delivers_iff` — a run delivers exactly if it reaches a return with a value.
* `Sink.content_of_refused` — what a sink takes of a delivery that fails.
* `Machine.evaluate_delivering` — calls work as with an output that never fails, and then deliver.
* `Machine.evaluate_writes_result` — what calls write, and when.
-/

namespace ChunkMachine

/-- The line that a value is printed as: its text and a line feed, as bytes. The return instruction
writes these at once, so that a sink can cut them anywhere, also within a character. -/
def Value.lineBytes (v : Value) : List UInt8 := Sink.textBytes (v.text ++ "\n")

/-- Writes some bytes and, if that goes well, flushes. After a write that fails there is no flush,
and the error is that of the write. -/
def Output.deliver {W : Type} [Output W] (w : W) (bytes : List UInt8) :
    Except SinkFault Unit × W :=
  match write w bytes with
  | (.error cause, w) => (.error cause, w)
  | (.ok (), w) => flush w

/-- An output that never fails takes every delivery: neither its write nor its flush is refused. -/
theorem Output.Reliable.deliver {W : Type} [Output W] {w : W} (h : Reliable w)
    (bytes : List UInt8) : (Output.deliver w bytes).1 = .ok () := by
  obtain ⟨hwrite, hflush⟩ := h bytes
  unfold Output.deliver
  split <;> simp_all

/-- A step has delivered a value, or could not. In both cases it was a return that found a value. -/
inductive StepResult.Delivers : StepResult → Prop where
  /-- It has handed the value to the output. -/
  | returned (v : Value) : Delivers (.returned v)
  /-- The output has refused the value, or the flush behind it has failed. -/
  | refused (cause : SinkFault) : Delivers (.faulted (.output cause))

/-- No instruction but a return delivers a value. The other faults of instructions have nothing to
do with the output. -/
theorem Instruction.Ends.eq_ret {i : Instruction} {r : StepResult} (h : i.Ends r)
    (hr : r.Delivers) : i = .ret := by
  cases hr <;> cases h <;> rfl

/-! ## Sinks -/

namespace Sink

/-- The sink that has room for everything never fails. It is what the cases below compare other
sinks with. -/
theorem reliable_unlimited : Output.Reliable unlimited := reliable_of_room rfl rfl

/-- There is room in a sink for some bytes. In a sink without a bound there is room for all
bytes. -/
def Fits (s : Sink) (bytes : List UInt8) : Prop :=
  ∀ room, s.room = some room → bytes.length ≤ room

/-- The longest beginning of some bytes that fits into a sink. It need not end where a character
does. -/
structure LongestFitting (s : Sink) (bytes front : List UInt8) : Prop where
  /-- It is a beginning of the bytes. -/
  isPrefix : front <+: bytes
  /-- There is room for it. -/
  fits : s.Fits front
  /-- Every other beginning for which there is room is a beginning of it. -/
  longest : ∀ other, other <+: bytes → s.Fits other → other <+: front

/-- What a sink takes of some bytes is the longest beginning that fits. So a write is never cut
further than it has to be. -/
theorem longestFitting (s : Sink) (bytes : List UInt8) :
    s.LongestFitting bytes (s.fitting bytes) := by
  unfold fitting
  cases hroom : s.room with
  | none =>
    refine ⟨List.prefix_refl _, fun room h => ?_, fun other hother _ => hother⟩
    rw [hroom] at h
    contradiction
  | some room =>
    refine ⟨List.take_prefix _ _, fun room' h => ?_, fun other hother hfits => ?_⟩
    · rw [hroom] at h
      cases h
      exact List.length_take_le _ _
    · exact List.prefix_take_iff.2 ⟨hother, hfits room hroom⟩

/-- A delivery to a sink fails if not everything fits, and otherwise if flushing does. In any case
the sink is left with what a write alone would leave in it. -/
theorem deliver_eq (s : Sink) (bytes : List UInt8) :
    Output.deliver s bytes =
      (if s.fitting bytes = bytes then s.flush else .error .full, (s.write bytes).2) := by
  have hlength : (s.fitting bytes).length = bytes.length ↔ s.fitting bytes = bytes :=
    ⟨(s.longestFitting bytes).isPrefix.eq_of_length, congrArg List.length⟩
  by_cases hall : s.fitting bytes = bytes
  · have hwrite : Output.write s bytes = (.ok (), (s.write bytes).2) :=
      Prod.ext (if_pos (hlength.2 hall)) rfl
    rw [Output.deliver, hwrite, if_pos hall]
    rfl
  · have hwrite : Output.write s bytes = (.error .full, (s.write bytes).2) :=
      Prod.ext (if_neg (mt hlength.1 hall)) rfl
    rw [Output.deliver, hwrite, if_neg hall]

/-- What was delivered to a sink is in it, behind what was there before. -/
theorem content_of_delivered {s s' : Sink} {bytes : List UInt8}
    (h : Output.deliver s bytes = (.ok (), s')) : s'.content = s.content ++ bytes := by
  rw [deliver_eq, Prod.mk.injEq] at h
  obtain ⟨hanswer, rfl⟩ := h
  split at hanswer
  · rw [content_write, ‹s.fitting bytes = bytes›]
  · contradiction

/-- **Of what could not be delivered** a sink holds the longest beginning that fits. If that is not
everything the sink is full, and otherwise the flush has failed. -/
theorem content_of_refused {s s' : Sink} {bytes : List UInt8} {cause : SinkFault}
    (h : Output.deliver s bytes = (.error cause, s')) :
    ∃ written, s'.content = s.content ++ written ∧ s.LongestFitting bytes written ∧
      (cause = .full ∧ written ≠ bytes ∨ cause = .flushFailed ∧ written = bytes) := by
  rw [deliver_eq, Prod.mk.injEq] at h
  obtain ⟨hanswer, rfl⟩ := h
  refine ⟨s.fitting bytes, s.content_write bytes, s.longestFitting bytes, ?_⟩
  split at hanswer
  · unfold flush at hanswer
    split at hanswer
    · cases hanswer
      exact .inr ⟨rfl, ‹_›⟩
    · contradiction
  · cases hanswer
    exact .inl ⟨rfl, ‹_›⟩

end Sink

namespace Machine

variable {W W' : Type}

/-! ## Return instructions -/

/-- Reading the code leaves the output alone, and does not look into it. A record of the instruction
goes into the log, which is no output. -/
theorem advance_redirect (m : Machine W) (w : W') (c : Chunk) (n : Nat) :
    (m.redirect w).advance c n = (m.advance c n).redirect w := by
  have hconfig : (m.redirect w).config = m.config := rfl
  unfold advance traceStep
  rw [hconfig]
  split <;> rfl

variable [Output W] [Output W']

/-- A return takes the topmost value and delivers it. The value is gone from the stack even if the
delivery fails, and without a value there is no delivery. -/
theorem finish_eq (m : Machine W) :
    m.finish =
      match m.stack.pop with
      | .error fault => (.faulted fault, m)
      | .ok (v, stack) =>
        match Output.deliver m.sink v.lineBytes with
        | (.ok (), sink) => (.returned v, { m with stack, sink })
        | (.error cause, sink) => (.faulted (.output cause), { m with stack, sink }) := by
  unfold finish Output.deliver Value.lineBytes
  cases m.stack.pop with
  | error fault => rfl
  | ok p =>
    simp only
    cases Output.write m.sink (Sink.textBytes (p.1.text ++ "\n")) with
    | mk answer w =>
      cases answer with
      | error cause => rfl
      | ok _ =>
        simp only
        cases Output.flush w with
        | mk answer w => cases answer <;> rfl

/-- At the byte of a return instruction a step executes it. The byte is the whole instruction, so
there is nothing more to fetch. -/
theorem step_of_ret {m : Machine W} {c : Chunk} (h : c.code[m.ip]? = some Opcode.ret.toByte) :
    m.step c = (m.advance c 1).finish :=
  step_eq_execute (Chunk.fetch_of_ret h)

/-- **A step delivers a value**, or tries to, exactly at a return instruction that finds one.
Neither the output nor what else the machine keeps has a part in this.

**Proof sketch.** What delivers is a return, by `Ends.eq_ret`, and a return delivers if there is a
value to be taken. What is not fetched has faults of its own. -/
theorem step_delivers_iff {m : Machine W} {c : Chunk} :
    (m.step c).1.Delivers ↔
      c.code[m.ip]? = some Opcode.ret.toByte ∧ m.stack.values ≠ [] := by
  obtain ⟨log, hadvance⟩ := m.advance_eq c 1
  constructor
  · intro hdelivers
    rcases m.step_ends c with ⟨i, hi, hends⟩ | ⟨f, hf, hends⟩
    · obtain rfl := hends.eq_ret hdelivers
      have hret := (Chunk.opcode_of_fetch_ok hi).1
      refine ⟨hret, fun hnil => ?_⟩
      rw [step_of_ret hret, finish_eq, hadvance] at hdelivers
      simp only [Stack.pop_of_nil hnil] at hdelivers
      cases hdelivers
    · rw [hends] at hdelivers
      cases hdelivers
      rcases Chunk.fetch_error_cases hf with hf | ⟨byte, hf⟩ | ⟨index, hf⟩ <;> contradiction
  · rintro ⟨hret, hne⟩
    obtain ⟨v, values, hvalues⟩ := List.exists_cons_of_ne_nil hne
    obtain ⟨t, hpop, -, -⟩ := Stack.exists_pop_eq_ok hvalues
    rw [step_of_ret hret, finish_eq, hadvance]
    simp only [hpop]
    split
    · exact .returned v
    · exact .refused _

/-- A step that lets the run go on is no return, since a return ends the run, with a value or
without. -/
theorem ne_ret_of_running {m m' : Machine W} {c : Chunk} (h : m.step c = (.running, m')) :
    c.code[m.ip]? ≠ some Opcode.ret.toByte := by
  intro hbyte
  obtain ⟨i, hi, hret, -⟩ := step_running h
  rw [(Chunk.opcode_of_fetch_ok hi).1] at hbyte
  have hop : i.opcode = .ret := Opcode.toByte_injective (Option.some.inj hbyte)
  cases i <;> contradiction

/-- **A run delivers a value**, or tries to, exactly if it reaches a return instruction with a value
on the stack.

**Proof sketch.** Induction on the run. Steps that let it go on are no returns, so what counts is
its last step, for which `step_delivers_iff` says it. -/
theorem Run.delivers_iff {c : Chunk} {m : Machine W} {ss : List (StepResult × Machine W)}
    {out : Except Fault Value × Machine W} (h : Run c m ss out) :
    (StepResult.final out.1).Delivers ↔
      ∃ before ∈ m :: (ss.map Prod.snd).dropLast,
        c.code[before.ip]? = some Opcode.ret.toByte ∧ before.stack.values ≠ [] := by
  induction h with
  | @last m m' r h =>
    have hlast := step_delivers_iff (m := m) (c := c)
    rw [h] at hlast
    simpa using hlast
  | @next m m' ss out h hrest ih =>
    have hne : ss.map Prod.snd ≠ [] := by cases hrest <;> simp
    rw [List.map_cons, List.dropLast_cons_of_ne_nil hne, ih]
    simp [ne_ret_of_running h]

/-! ## Other outputs -/

/-- What comes of a run if its value is delivered to another output, and not to the one that it had:
if that fails, the run does. A run that has failed delivers nothing. -/
def delivering (w : W) : Except Fault Value × Machine W' → Except Fault Value × Machine W
  | (.error fault, m) => (.error fault, m.redirect w)
  | (.ok v, m) =>
    let (answer, w) := Output.deliver w v.lineBytes
    ((answer.mapError .output).map fun _ => v, m.redirect w)

/-- A return that has an output that never fails does what it does with any other one, but for the
delivery. In particular it does not fail for its output.

**Proof sketch.** By what is on the stack. Without a value both fail alike. Otherwise the first
output takes the value, and what becomes of the second one is what a delivery to it does. -/
theorem finish_delivering {m m' : Machine W'} {r : Except Fault Value}
    (hsink : Output.Reliable m.sink) (h : m.finish = (.final r, m')) (w : W) :
    (m.redirect w).finish = (.final (delivering w (r, m')).1, (delivering w (r, m')).2) ∧
      ∀ cause, r ≠ .error (.output cause) := by
  have hstack : (m.redirect w).stack = m.stack := rfl
  rw [finish_eq] at h
  rw [finish_eq, hstack]
  cases hpop : m.stack.pop with
  | error fault =>
    obtain ⟨-, rfl⟩ := Stack.pop_eq_error_iff.1 hpop
    rw [hpop] at h
    cases r with
    | ok v => simp [StepResult.final] at h
    | error fault =>
      obtain ⟨rfl, rfl⟩ : .stackUnderflow = fault ∧ m = m' := by simpa [StepResult.final] using h
      exact ⟨rfl, by simp⟩
  | ok p =>
    -- the value is off the stack before it is delivered, so the answer does not change the stack
    have hanswer := hsink.deliver p.1.lineBytes
    rw [hpop] at h
    simp only at h ⊢
    generalize Output.deliver m.sink p.1.lineBytes = delivered at h hanswer
    obtain ⟨answer, sink⟩ := delivered
    obtain rfl : answer = .ok () := hanswer
    cases r with
    | error fault => simp [StepResult.final] at h
    | ok v =>
      obtain ⟨rfl, rfl⟩ : p.1 = v ∧ ({ m with stack := p.2, sink } : Machine W') = m' := by
        simpa [StepResult.final] using h
      refine ⟨?_, by simp⟩
      have hw : (m.redirect w).sink = w := rfl
      simp only [delivering, hw]
      rcases Output.deliver w p.1.lineBytes with ⟨cause | _, w'⟩ <;> rfl

/-- Other steps than returns leave the output alone, and do not look into it.

**Proof sketch.** The step is made in its own frame, with two outputs that need not have anything in
common. No instruction that it can find looks into them, so each is still there behind it. -/
theorem step_of_ne_ret {m : Machine W'} {c : Chunk}
    (h : c.code[m.ip]? ≠ some Opcode.ret.toByte) (w : W) :
    (m.step c).2.sink = m.sink ∧
      (m.redirect w).step c = ((m.step c).1, (m.step c).2.redirect w) := by
  have hmirrors := step_inFrame_of_execute (m := m) (R := fun u u' => u = m.sink ∧ u' = w) m.frame
    ⟨rfl, rfl⟩ c fun i hi n g hn => execute_inFrame_of_ne_ret g hn fun hret =>
      h (by rw [(Chunk.opcode_of_fetch_ok hi).1, hret]; rfl)
  obtain ⟨w', ⟨hsink, rfl⟩, hstep⟩ :=
    hmirrors.redirect (step_inFrame m.frame Output.alike_eq rfl c)
  exact ⟨hsink, hstep⟩

namespace Run

variable {c : Chunk} {m : Machine W'} {ss : List (StepResult × Machine W')}
  {out : Except Fault Value × Machine W'}

/-- **A run works as with an output that never fails, and then delivers**: with whatever output, it
does what it does with such a one, and hands the value over at the end.

**Proof sketch.** Induction on the run. A step that lets it go on is no return, so it leaves the
output alone. The last step is a return, and delivers, or it has nothing to do with the output. -/
theorem delivering (h : Run c m ss out) (hsink : Output.Reliable m.sink) (w : W) :
    (m.redirect w).run c = Machine.delivering w out ∧
      ∀ cause, out.1 ≠ .error (.output cause) := by
  induction h with
  | @last m m' r h =>
    by_cases hret : c.code[m.ip]? = some Opcode.ret.toByte
    · obtain ⟨log, hadvance⟩ := m.advance_eq c 1
      have hsink' : Output.Reliable (m.advance c 1).sink := by rwa [hadvance]
      rw [step_of_ret hret] at h
      obtain ⟨hfinish, hne⟩ := finish_delivering hsink' h w
      have hstep : (m.redirect w).step c = _ := step_of_ret hret
      rw [advance_redirect, hfinish] at hstep
      exact ⟨run_of_final hstep, hne⟩
    · obtain ⟨-, hstep⟩ := step_of_ne_ret hret w
      have hnot : ¬ (m.step c).1.Delivers := fun hdelivers => hret (step_delivers_iff.1 hdelivers).1
      rw [h] at hstep hnot
      cases r with
      | ok v => exact absurd (.returned v) hnot
      | error fault =>
        refine ⟨run_of_final (r := .error fault) hstep, ?_⟩
        rintro cause ⟨⟩
        exact hnot (.refused cause)
  | @next m m' ss out h hrest ih =>
    obtain ⟨hkeep, hstep⟩ := step_of_ne_ret (ne_ret_of_running h) w
    rw [h] at hkeep hstep
    rw [run_of_running hstep]
    exact ih (hkeep ▸ hsink)

end Run

/-! ## Calls -/

/-- **A call works as with an output that never fails, and then delivers**: either both fail in the
same way, and the output is left alone, or the value that the one gives is what the other delivers.
In that case the answer to the delivery decides how the call ends. -/
theorem evaluate_delivering (m : Machine W) {w' : W'} (hw' : Output.Reliable w') (c : Chunk) :
    let ideal := (m.redirect w').evaluate c
    (∃ e, ideal.1 = .error e ∧ (∀ cause, e.fault ≠ .output cause) ∧
      m.evaluate c = (.error e, ideal.2.redirect m.sink)) ∨
    ∃ v, ideal.1 = .ok v ∧
      (m.evaluate c).2 = ideal.2.redirect (Output.deliver m.sink v.lineBytes).2 ∧
      ((Output.deliver m.sink v.lineBytes).1 = .ok () ∧ (m.evaluate c).1 = .ok v ∨
        ∃ cause line, (Output.deliver m.sink v.lineBytes).1 = .error cause ∧
          (m.evaluate c).1 = .error ⟨.output cause, line⟩) := by
  intro ideal
  obtain ⟨hrun, hne⟩ := ((m.redirect w').reset.run_steps c).delivering hw' m.sink
  have hreset : (m.redirect w').reset.redirect m.sink = m.reset := rfl
  rw [hreset] at hrun
  simp only [ideal, evaluate]
  rw [hrun]
  generalize (m.redirect w').reset.run c = run at hne
  obtain ⟨fault | v, after⟩ := run
  · exact .inl ⟨_, rfl, fun cause hcause => hne cause (congrArg Except.error hcause), rfl⟩
  · refine .inr ⟨v, rfl, ?_⟩
    simp only [delivering]
    rcases Output.deliver m.sink v.lineBytes with ⟨cause | _, w⟩
    · exact ⟨rfl, .inr ⟨cause, _, rfl, rfl⟩⟩
    · exact ⟨rfl, .inl ⟨rfl, rfl⟩⟩

/-- A call that fails for another reason than its output leaves the output alone. Nothing is printed
of a run that fails before its return. -/
theorem sink_of_error {m : Machine W} {c : Chunk} {e : RuntimeError}
    (h : (m.evaluate c).1 = .error e) (hne : ∀ cause, e.fault ≠ .output cause) :
    (m.evaluate c).2.sink = m.sink := by
  rcases m.evaluate_delivering Sink.reliable_unlimited c with
    ⟨e', -, -, hcall⟩ | ⟨v, -, -, ⟨-, hv⟩ | ⟨cause, line, -, hrefused⟩⟩
  · rw [hcall]
    rfl
  · rw [h] at hv
    contradiction
  · rw [h] at hrefused
    cases hrefused
    exact absurd rfl (hne cause)

/-- A call that gives a value has delivered it, so that the value was printed and the output was
flushed. -/
theorem deliver_of_ok {m : Machine W} {c : Chunk} {v : Value} (h : (m.evaluate c).1 = .ok v) :
    Output.deliver m.sink v.lineBytes = (.ok (), (m.evaluate c).2.sink) := by
  rcases m.evaluate_delivering Sink.reliable_unlimited c with
    ⟨e, -, -, hcall⟩ | ⟨w, -, hafter, ⟨hanswer, hw⟩ | ⟨cause, line, -, hrefused⟩⟩
  · rw [hcall] at h
    contradiction
  · rw [h] at hw
    cases hw
    rw [hafter]
    exact Prod.ext hanswer rfl
  · rw [h] at hrefused
    contradiction

/-- A call that fails for its output has tried to deliver a value: the one that it gives with an
output that never fails. The stack that it leaves is then the same. -/
theorem deliver_of_refused {m : Machine W} {c : Chunk} {cause : SinkFault} {line : UInt32}
    (h : (m.evaluate c).1 = .error ⟨.output cause, line⟩) :
    ∃ v, Output.deliver m.sink v.lineBytes = (.error cause, (m.evaluate c).2.sink) ∧
      ∀ {W' : Type} [Output W'] (w' : W'), Output.Reliable w' →
        ((m.redirect w').evaluate c).1 = .ok v ∧
          ((m.redirect w').evaluate c).2.stack = (m.evaluate c).2.stack := by
  rcases m.evaluate_delivering Sink.reliable_unlimited c with
    ⟨e, -, hne, hcall⟩ | ⟨v, hv, hafter, ⟨-, hgiven⟩ | ⟨cause', line', hanswer, hrefused⟩⟩
  · rw [hcall] at h
    cases h
    exact absurd rfl (hne cause)
  · rw [h] at hgiven
    contradiction
  · rw [h] at hrefused
    cases hrefused
    refine ⟨v, by rw [hafter]; exact Prod.ext hanswer rfl, fun w' hw' => ?_⟩
    -- two outputs that never fail are compared through the delivery to one of them
    rcases (m.redirect w').evaluate_delivering Sink.reliable_unlimited c with
      ⟨e, he, -, -⟩ | ⟨w, hw, hafter', ⟨-, hgiven⟩ | ⟨cause, line, hanswer', -⟩⟩
    · exact absurd (hv.symm.trans he) (by simp)
    · cases hv.symm.trans hw
      rw [hafter, hafter']
      exact ⟨hgiven, rfl⟩
    · exact absurd ((hw'.deliver _).symm.trans hanswer') (by simp)

/-- A call that could not deliver its value was at a return instruction, and is blamed on the line
of its byte. The line is known wherever the chunk has one for every byte. -/
theorem line_of_refused {m : Machine W} {c : Chunk} {cause : SinkFault} {line : UInt32}
    (h : (m.evaluate c).1 = .error ⟨.output cause, line⟩) :
    c.code[(m.evaluate c).2.current]? = some Opcode.ret.toByte ∧
      (c.lines.size = c.code.size → c.lineAt? (m.evaluate c).2.current = some line) := by
  obtain ⟨hfault, hline⟩ := evaluate_fst_eq_error_iff.1 h
  rw [evaluate_snd]
  rcases (m.reset.run_steps c).fault_cases hfault with hf | ⟨i, hi, hends⟩
  · rcases Chunk.fetch_error_cases hf with hf | ⟨byte, hf⟩ | ⟨index, hf⟩ <;> contradiction
  · obtain rfl := hends.eq_ret (.refused cause)
    have hbyte := (Chunk.opcode_of_fetch_ok hi).1
    refine ⟨hbyte, fun hsize => ?_⟩
    obtain ⟨hlt, -⟩ := Array.getElem?_eq_some_iff.1 hbyte
    rw [lineAt?_eq_lineOf (hsize ▸ hlt), ← hline]

/-- **A call delivers a value**, or tries to, exactly if it reaches a return instruction with a
value on the stack. Whether the output takes the value is another matter. -/
theorem evaluate_delivers_iff (m : Machine W) (c : Chunk) :
    (∃ v, (m.evaluate c).1 = .ok v) ∨
        (∃ cause line, (m.evaluate c).1 = .error ⟨.output cause, line⟩) ↔
      ∃ before ∈ m.reset.befores c,
        c.code[before.ip]? = some Opcode.ret.toByte ∧ before.stack.values ≠ [] := by
  rw [befores, ← (m.reset.run_steps c).delivers_iff, evaluate_fst]
  cases (m.reset.run c).1 with
  | ok v => exact ⟨fun _ => .returned v, fun _ => .inl ⟨v, rfl⟩⟩
  | error fault =>
    constructor
    · rintro (⟨v, hv⟩ | ⟨cause, line, hrefused⟩)
      · cases hv
      · cases hrefused
        exact .refused cause
    · rintro ⟨⟩
      exact .inr ⟨_, _, rfl⟩

/-- **A call writes its result and nothing else.** For every chunk, every machine and every sink,
with room for a number of bytes or for all and with flushes that fail or do not:

* if the call fails for any other reason than the sink, then nothing is written;
* if it gives a value, then exactly the line of the value is written;
* if it fails for the sink, then there is a value that it could not deliver. With a sink that never
  fails the same call gives that value and leaves the same stack. Of the line of the value the
  longest beginning that fits is written, all of it if only the flush failed, and the error is
  blamed on the line of the return instruction;
* it gives a value or fails for the sink exactly if it reaches a return with a value on the stack.

**Proof sketch.** By `evaluate_delivering` the call is one with a sink that never fails, and a
delivery. What a sink takes of a delivery is told by `Sink.content_of_delivered` and
`Sink.content_of_refused`. -/
theorem evaluate_writes_result (m : Machine) (c : Chunk) :
    let out := m.evaluate c
    (∀ e, out.1 = .error e → (∀ cause, e.fault ≠ .output cause) → out.2.sink = m.sink) ∧
    (∀ v, out.1 = .ok v → out.2.sink.content = m.sink.content ++ v.lineBytes) ∧
    (∀ cause line, out.1 = .error ⟨.output cause, line⟩ →
      ∃ v written,
        (∀ s : Sink, Output.Reliable s →
          ((m.redirect s).evaluate c).1 = .ok v ∧
            ((m.redirect s).evaluate c).2.stack = out.2.stack) ∧
        out.2.sink.content = m.sink.content ++ written ∧
        m.sink.LongestFitting v.lineBytes written ∧
        (cause = .full ∧ written ≠ v.lineBytes ∨ cause = .flushFailed ∧ written = v.lineBytes) ∧
        c.code[out.2.current]? = some Opcode.ret.toByte ∧
        (c.lines.size = c.code.size → c.lineAt? out.2.current = some line)) ∧
    ((∃ v, out.1 = .ok v) ∨ (∃ cause line, out.1 = .error ⟨.output cause, line⟩) ↔
      ∃ before ∈ m.reset.befores c,
        c.code[before.ip]? = some Opcode.ret.toByte ∧ before.stack.values ≠ []) := by
  refine ⟨fun e he hne => sink_of_error he hne,
    fun v hv => Sink.content_of_delivered (deliver_of_ok hv), fun cause line hrefused => ?_,
    m.evaluate_delivers_iff c⟩
  obtain ⟨v, hdeliver, hideal⟩ := deliver_of_refused hrefused
  obtain ⟨written, hcontent, hlongest, hcause⟩ := Sink.content_of_refused hdeliver
  exact ⟨v, written, fun s hs => hideal s hs, hcontent, hlongest, hcause, line_of_refused hrefused⟩

/-- A value that is no number, above another one. With room for two bytes its text is cut, and the
machine is left with the other value, as if all had gone well. With room for everything its line is
written. A return that finds no value writes nothing. -/
theorem evaluate_writes_result_cut_text :
    let c : Chunk := ⟨#[0, 0, 0, 1, 6], #[1, 1, 2, 2, 3], #[⟨0⟩, ⟨0x7FF8000000000000⟩]⟩
    let bare : Chunk := ⟨#[6], #[1], #[]⟩
    let nan : Value := ⟨0x7FF8000000000000⟩
    let roomy := new ⟨2, false, .ieee⟩ .unlimited
    let tight := new ⟨2, false, .ieee⟩ ⟨[65], some 2, false⟩
    ((tight.evaluate c).1 = .error ⟨.output .full, 3⟩ ∧
        (∃ v written, ((tight.redirect Sink.unlimited).evaluate c).1 = .ok v ∧
          ((tight.redirect Sink.unlimited).evaluate c).2.stack = (tight.evaluate c).2.stack ∧
          (tight.evaluate c).2.sink.content = [65] ++ written ∧
          tight.sink.LongestFitting v.lineBytes written ∧ written ≠ v.lineBytes) ∧
        c.lineAt? (tight.evaluate c).2.current = some 3) ∧
      ((roomy.evaluate c).1 = .ok nan ∧ (roomy.evaluate c).2.sink.content = nan.lineBytes) ∧
      (roomy.evaluate bare).1 = .error ⟨.stackUnderflow, 1⟩ ∧
        (roomy.evaluate bare).2.sink = .unlimited := by
  intro c bare nan roomy tight
  have htight : (tight.evaluate c).1 = .error ⟨.output .full, 3⟩ :=
    evaluate_fst_eq_error_iff.2
      ⟨StepResult.final_eq_faulted_iff.1 (by decide +kernel), by decide +kernel⟩
  have hroomy : (roomy.evaluate c).1 = .ok nan :=
    evaluate_fst_eq_ok_iff.2 (StepResult.final_eq_returned_iff.1 (by decide +kernel))
  have hbare : (roomy.evaluate bare).1 = .error ⟨.stackUnderflow, 1⟩ :=
    evaluate_fst_eq_error_iff.2
      ⟨StepResult.final_eq_faulted_iff.1 (by decide +kernel), by decide +kernel⟩
  obtain ⟨v, written, hideal, hcontent, hlongest, hcause, -, hline⟩ :=
    (evaluate_writes_result tight c).2.2.1 .full 3 htight
  obtain ⟨hv, hstack⟩ := hideal .unlimited Sink.reliable_unlimited
  have hcut : written ≠ v.lineBytes := by simpa using hcause
  exact ⟨⟨htight, ⟨v, written, hv, hstack, hcontent, hlongest, hcut⟩, hline rfl⟩,
    ⟨hroomy, (evaluate_writes_result roomy c).2.1 nan hroomy⟩, hbare,
    (evaluate_writes_result roomy bare).1 _ hbare (by simp)⟩

end Machine

end ChunkMachine
