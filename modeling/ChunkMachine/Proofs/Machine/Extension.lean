import ChunkMachine.Proofs.Machine.Frame
import ChunkMachine.Proofs.Machine.Spelled

set_option relaxedAutoImplicit false
set_option autoImplicit false

/-!
# Calls do not read ahead

A machine reads its code from the front, an instruction at a time, and of the pool it reads what
the instructions load. So a call cannot tell two chunks apart that agree up to where it ends. If a
chunk is extended, a call of it changes only if it was at the end of something: of the code, or of
the pool. What stands behind the return instruction that ends a call does not matter at all.

## Main definitions

* `Chunk.DecidedBelow` — what is found at an offset is told by the code below another one.
* `Machine.EndsAlike` — the same result, with the same stack and the same output, at the same place.

## Main results

* `Machine.step_of_fetch_ok` — a step depends on the instruction it finds, not on the chunk.
* `Machine.Run.decidedBelow` — a run reads nothing behind its last instruction.
* `Machine.Run.endsAlike` — a run depends on what it fetches, not on the chunk.
* `Machine.evaluate_extended` — calls of chunks that were extended.
-/

namespace ChunkMachine

namespace Chunk

variable {c d : Chunk} {n offset : Nat}

/-- What a machine finds at an offset is told by the code below another one: it is a whole
instruction, or a byte that is no opcode. An operand that is missing would be told by the end of the
code, and is not covered. -/
inductive DecidedBelow (c : Chunk) (n offset : Nat) : Prop where
  /-- A whole instruction is found, which ends in front of the bound. -/
  | instruction {i : Instruction} (h : c.fetch offset = .ok i) (hn : offset + i.width ≤ n)
  /-- A byte is found in front of the bound that is no opcode. -/
  | unknown {byte : UInt8} (h : c.fetch offset = .error (.unknownOpcode byte)) (hn : offset < n)

/-- What is told by the code below an offset starts below it, since an instruction has at least one
byte. -/
theorem DecidedBelow.lt (h : c.DecidedBelow n offset) : offset < n := by
  cases h with
  | @instruction i h hn =>
    have hpos : 0 < i.width := i.opcode.width_pos
    omega
  | unknown h hn => exact hn

/-- What the code below an offset tells is the same in every chunk that agrees on it. This is what
chunks have to do with each other here, and all that they need to. -/
theorem DecidedBelow.fetch_eq (hc : c.DecidedBelow n offset) (h : c.AgreesBelow n d) :
    d.fetch offset = c.fetch offset := by
  cases hc with
  | instruction hi hn => rw [hi, h.fetch_eq_ok hi hn]
  | unknown hf hn =>
    rw [hf, fetch_eq_unknownOpcode_iff, h.code offset hn]
    exact fetch_eq_unknownOpcode_iff.1 hf

end Chunk

namespace Machine

variable {W : Type} [Output W]

/-- The same result, with machines that are at the same instruction, with the same stack and the
same output. -/
structure EndsAlike {α : Type} (r r' : α × Machine W) : Prop where
  /-- They end in the same way. -/
  result_eq : r'.1 = r.1
  /-- They leave the same output. -/
  sink_eq : r'.2.sink = r.2.sink
  /-- They leave the same values. -/
  stack_eq : r'.2.stack = r.2.stack
  /-- They are at the same instruction. -/
  current_eq : r'.2.current = r.2.current

/-! ## Steps -/

/-- Whole instructions do not see the frame of their machine, and with the same output nothing else
changes. This is the law of frames in the form of an equation. -/
theorem execute_framed (m : Machine W) (trace : Bool) (log : Array LogRecord)
    (failure : Option CallError) (i : Instruction) :
    (m.framed trace log failure).execute i =
      ((m.execute i).1, (m.execute i).2.framed trace log failure) :=
  (execute_inFrame (m := m) ⟨trace, log, failure⟩ Output.alike_eq rfl i).eq

/-- **A step depends on the instruction it finds**, not on the chunk: with another chunk, and in
another frame, it does the same if it finds the same instruction. -/
theorem step_of_fetch_ok {m : Machine W} {c d : Chunk} {i : Instruction}
    (hc : c.fetch m.ip = .ok i) (hd : d.fetch m.ip = .ok i) (trace : Bool)
    (log : Array LogRecord) (failure : Option CallError) :
    ∃ log', (m.framed trace log failure).step d =
      ((m.step c).1, (m.step c).2.framed trace log' failure) := by
  obtain ⟨_, hadvance⟩ := m.advance_eq c i.width
  obtain ⟨log', hadvance'⟩ := (m.framed trace log failure).advance_eq d i.width
  refine ⟨log', ?_⟩
  rw [step_eq_execute hc, ← execute_framed, hadvance]
  have hstep : (m.framed trace log failure).step d = _ := step_eq_execute hd
  rw [hstep, hadvance']
  rfl

namespace Run

variable {c d : Chunk} {m : Machine W} {ss : List (StepResult × Machine W)}
  {out : Except Fault Value × Machine W}

/-! ## Runs -/

/-- **A run reads nothing behind its last instruction.** If what is found there is told by the code
below an offset, then so is what all of its steps find.

**Proof sketch.** Induction on the run, together with the fact that it ends where it starts or
further on. A step that lets it go on passes a whole instruction, which is in front of the last
one. -/
theorem decidedBelow (h : Run c m ss out) {n : Nat} (hlast : c.DecidedBelow n out.2.current) :
    m.ip ≤ out.2.current ∧ ∀ s ∈ ss, c.DecidedBelow n s.2.current := by
  induction h with
  | @last m m' r h =>
    refine ⟨Nat.le_of_eq (current_of_step h).symm, ?_⟩
    simpa using hlast
  | @next m m' ss out h hrest ih =>
    obtain ⟨i, hi, -, hip⟩ := step_running h
    obtain ⟨hle, hss⟩ := ih hlast
    have hlt := hlast.lt
    refine ⟨by omega, fun s hs => ?_⟩
    rcases List.mem_cons.1 hs with rfl | hs
    · rw [current_of_step h]
      exact .instruction hi (by omega)
    · exact hss s hs

/-- **A run depends on what it fetches**, not on the chunk: with another chunk, and in another
frame, it ends in the same way if each of its steps fetches the same.

**Proof sketch.** Induction on the run. The two machines go in step, in their frames, as long as
they find instructions. Where they find none they fault alike. -/
theorem endsAlike (h : Run c m ss out)
    (hfetch : ∀ s ∈ ss, d.fetch s.2.current = c.fetch s.2.current) (trace : Bool)
    (log : Array LogRecord) (failure : Option CallError) :
    EndsAlike out ((m.framed trace log failure).run d) := by
  induction h generalizing log with
  | @last m m' r h =>
    have hd := hfetch _ (List.mem_singleton_self _)
    rw [current_of_step h] at hd
    cases hc : c.fetch m.ip with
    | ok i =>
      obtain ⟨log', hstep⟩ := step_of_fetch_ok hc (hd.trans hc) trace log failure
      rw [h] at hstep
      rw [run_of_final hstep]
      exact ⟨rfl, rfl, rfl, rfl⟩
    | error f =>
      obtain ⟨n, _, hstep⟩ := step_of_fetch_error hc
      obtain ⟨n', _, hstep'⟩ :=
        step_of_fetch_error (m := m.framed trace log failure) (hd.trans hc)
      rw [h, Prod.mk.injEq, StepResult.final_eq_faulted_iff] at hstep
      obtain ⟨rfl, rfl⟩ := hstep
      rw [run_of_final (r := .error f) hstep']
      exact ⟨rfl, rfl, rfl, rfl⟩
  | @next m m' ss out h hrest ih =>
    obtain ⟨i, hc, -, -⟩ := step_running h
    have hd := hfetch _ List.mem_cons_self
    rw [current_of_step h] at hd
    obtain ⟨log', hstep⟩ := step_of_fetch_ok hc (hd.trans hc) trace log failure
    rw [h] at hstep
    rw [run_of_running hstep]
    exact ih (fun s hs => hfetch s (List.mem_cons_of_mem _ hs)) log'

end Run

/-! ## Calls -/

section Calls

variable {c d : Chunk} {m m' : Machine W}

/-- The line of a fault is the same in two chunks that have a line there, and the same one. Where
one of them has no line, that of its last byte would stand in. -/
theorem lineOf_eq_of_lineAt? {offset : Nat} {line : UInt32} (hc : c.lineAt? offset = some line)
    (hd : d.lineAt? offset = some line) : lineOf d offset = lineOf c offset := by
  rw [lineOf, lineOf, hc, hd]
  rfl

/-- **Calls of chunks that agree** up to where one of the calls ends do the same, on machines with
the same stack capacity, the same arithmetic and the same output. For the line of an error the
chunks have to agree at that place, too.

**Proof sketch.** The second machine is the first one in another frame. All that the run finds is
told by the code on which the chunks agree, by `Run.decidedBelow`, and so it goes on in the same
way, by `Run.endsAlike`. -/
theorem evaluate_endsAlike (hcapacity : m'.config.capacity = m.config.capacity)
    (harithmetic : m'.config.arithmetic = m.config.arithmetic) (hsink : m'.sink = m.sink) {n : Nat}
    (hlast : c.DecidedBelow n (m.evaluate c).2.current) (hagree : c.AgreesBelow n d)
    {line : UInt32} (hline : c.lineAt? (m.evaluate c).2.current = some line)
    (hline' : d.lineAt? (m.evaluate c).2.current = some line) :
    EndsAlike (m.evaluate c) (m'.evaluate d) := by
  have hreset : m'.reset = m.reset.framed m'.config.trace m'.log m'.failure := by
    have hconfig : m'.config = ⟨m.config.capacity, m'.config.trace, m.config.arithmetic⟩ := by
      rw [← hcapacity, ← harithmetic]
    unfold reset framed
    rw [hconfig, hsink]
  -- from here on it is about the runs, of which the calls only add the lines of faults
  rw [evaluate_snd] at hlast hline hline'
  have hrun := m.reset.run_steps c
  have hdecided := (hrun.decidedBelow hlast).2
  obtain ⟨hresult, hsink', hstack, hcurrent⟩ :=
    hrun.endsAlike (fun s hs => (hdecided s hs).fetch_eq hagree) m'.config.trace m'.log m'.failure
  rw [← hreset] at hresult hsink' hstack hcurrent
  refine ⟨?_, ?_, ?_, ?_⟩
  · rw [evaluate_fst, evaluate_fst, hresult, hcurrent, lineOf_eq_of_lineAt? hline hline']
  · rw [evaluate_snd, evaluate_snd, hsink']
  · rw [evaluate_snd, evaluate_snd, hstack]
  · rw [evaluate_snd, evaluate_snd, hcurrent]

/-- A call that does not fail at the end of the code or of the pool ends at something that is told
by the code. The two faults are those that more code or more constants could cure. -/
theorem decidedBelow_size
    (h : ∀ e, (m.evaluate c).1 = .error e →
      e.fault ≠ .endOfCode ∧ ∀ index size, e.fault ≠ .constantOutOfRange index size) :
    c.DecidedBelow c.code.size (m.evaluate c).2.current := by
  rw [evaluate_snd]
  rcases (m.reset.run_steps c).last_cases with ⟨i, hi, -⟩ | ⟨f, hf, hresult⟩
  · exact .instruction hi (Chunk.opcode_of_fetch_ok hi).2
  · obtain ⟨hend, hpool⟩ := h ⟨f, _⟩ (evaluate_fst_eq_error_iff.2 ⟨hresult, rfl⟩)
    rcases Chunk.fetch_error_cases hf with rfl | ⟨byte, rfl⟩ | ⟨index, rfl⟩
    · exact absurd rfl hend
    · have hbyte := (Chunk.fetch_eq_unknownOpcode_iff.1 hf).1
      exact .unknown hf (Array.getElem?_eq_some_iff.1 hbyte).1
    · exact absurd rfl (hpool index _)

/-- **Calls do not read ahead.** Let a chunk have a line for every byte of its code, as all chunks
have that were built or decoded. Let two machines have the same stack capacity, the same arithmetic
and the same output, whatever else they keep.

* If a call of a chunk ends in anything but the end of the code and an index beyond the pool, then a
  call of every chunk that begins with it ends in the same way: with the same value, or with the
  same error on the same line, and with the same output and the same stack.
* If a call ends at a return instruction, then the code behind that does not matter: a call of every
  chunk that agrees with the first one up to there, on the line of the return too, ends in the same
  way, whatever the first one came to.

**Proof sketch.** What a call finds at its end is told by the code in front of some offset: by all
of the code in the first case, and by the code up to the return in the second one. Then so is what
it finds before, and it depends on nothing else. -/
theorem evaluate_extended (hlines : c.lines.size = c.code.size)
    (hcapacity : m'.config.capacity = m.config.capacity)
    (harithmetic : m'.config.arithmetic = m.config.arithmetic) (hsink : m'.sink = m.sink) :
    let out := m.evaluate c
    (∀ d, c.IsPrefix d →
      (∀ e, out.1 = .error e →
        e.fault ≠ .endOfCode ∧ ∀ index size, e.fault ≠ .constantOutOfRange index size) →
      EndsAlike out (m'.evaluate d)) ∧
    ∀ d, c.code[out.2.current]? = some Opcode.ret.toByte →
      c.AgreesBelow (out.2.current + 1) d →
      d.lineAt? out.2.current = c.lineAt? out.2.current →
      EndsAlike out (m'.evaluate d) := by
  intro out
  refine ⟨fun d hd herror => ?_, fun d hret hagree hline => ?_⟩
  · have hlast := decidedBelow_size herror
    have hline := lineAt?_eq_lineOf (hlines ▸ hlast.lt)
    exact evaluate_endsAlike hcapacity harithmetic hsink hlast hd.agreesBelow hline
      (hd.lineAt?_eq_some hline)
  · obtain ⟨hlt, -⟩ := Array.getElem?_eq_some_iff.1 hret
    have hlast : c.DecidedBelow (out.2.current + 1) out.2.current :=
      .instruction (Chunk.fetch_of_ret hret) (Nat.le_refl _)
    have hline' := lineAt?_eq_lineOf (hlines ▸ hlt)
    exact evaluate_endsAlike hcapacity harithmetic hsink hlast hagree hline' (hline.trans hline')

/-- A load of a value that is no number, a return and a byte that is no opcode. A machine with
leftovers that records every instruction gives the same value for a chunk with more of everything
behind, and for one that ends with the return. A byte that is no opcode is the same error in a
longer chunk. -/
theorem evaluate_extended_tails :
    let nan : Value := ⟨0x7FF8000000000000⟩
    let c : Chunk := ⟨#[0, 0, 6, 9], #[1, 1, 2, 3], #[nan]⟩
    let longer : Chunk := ⟨#[0, 0, 6, 9, 0, 1], #[1, 1, 2, 3, 4, 4], #[nan, ⟨0⟩]⟩
    let shorter : Chunk := ⟨#[0, 0, 6], #[1, 1, 2], #[nan]⟩
    let unknown : Chunk := ⟨#[9], #[5], #[]⟩
    let unknownThenMore : Chunk := ⟨#[9, 6], #[5, 6], #[⟨0⟩]⟩
    let m := new ⟨1, false, .ieee⟩ .unlimited
    let used := { new ⟨1, true, .ieee⟩ .unlimited with
      stack := ⟨1, [nan], 1, rfl, Nat.le_refl 1⟩, ip := 7, failure := some (.compile []) }
    ((m.evaluate c).1 = .ok nan ∧ (m.evaluate c).2.current = 2) ∧
      EndsAlike (m.evaluate c) (used.evaluate longer) ∧
      EndsAlike (m.evaluate c) (used.evaluate shorter) ∧
      (m.evaluate unknown).1 = .error ⟨.unknownOpcode 9, 5⟩ ∧
      EndsAlike (m.evaluate unknown) (used.evaluate unknownThenMore) := by
  intro nan c longer shorter unknown unknownThenMore m used
  have hvalue : (m.evaluate c).1 = .ok nan :=
    evaluate_fst_eq_ok_iff.2 (StepResult.final_eq_returned_iff.1 (by decide +kernel))
  have hcurrent : (m.evaluate c).2.current = 2 := by decide +kernel
  have hunknown : (m.evaluate unknown).1 = .error ⟨.unknownOpcode 9, 5⟩ :=
    evaluate_fst_eq_error_iff.2
      ⟨StepResult.final_eq_faulted_iff.1 (by decide +kernel), by decide +kernel⟩
  have hcalls := @evaluate_extended Sink _ c m used rfl rfl rfl rfl
  have hunknowns := @evaluate_extended Sink _ unknown m used rfl rfl rfl rfl
  refine ⟨⟨hvalue, hcurrent⟩, hcalls.1 longer ?_ ?_, hcalls.2 shorter ?_ ?_ ?_, hunknown,
    hunknowns.1 unknownThenMore ?_ ?_⟩
  · exact ⟨⟨[0, 1], rfl⟩, ⟨[4, 4], rfl⟩, ⟨[⟨0⟩], rfl⟩⟩
  · rw [hvalue]
    simp
  · rw [hcurrent]
    rfl
  · rw [hcurrent]
    exact ⟨by decide, List.prefix_refl _⟩
  · rw [hcurrent]
    rfl
  · exact ⟨⟨[6], rfl⟩, ⟨[6], rfl⟩, ⟨[⟨0⟩], rfl⟩⟩
  · rw [hunknown]
    rintro e ⟨⟩
    simp

end Calls

end Machine

end ChunkMachine
