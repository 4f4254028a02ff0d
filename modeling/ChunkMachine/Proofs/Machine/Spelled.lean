import ChunkMachine.Proofs.Machine.Interpretation
import ChunkMachine.Proofs.Machine.Walk

set_option relaxedAutoImplicit false
set_option autoImplicit false

/-!
# Machines that run spelled routines

A chunk that spells a routine is run as the routine is interpreted. The machine reads opcodes,
operands and constants at offsets; the interpretation knows of none of them, and of lines only what
the routine says.

## Main definitions

* `Chunk.lineBefore` — the line that the end of the code is blamed on.

## Main results

* `Machine.execute_eq` — a machine executes an instruction as its effect says.
* `Machine.run_spelled` — a machine runs a spelled routine as it is interpreted.
* `Machine.evaluate_spelled`, `Machine.evaluate_emitted` — so does a call of a chunk that spells a
  routine, and of a chunk that a routine was appended to.
-/

namespace ChunkMachine

/-- The line of the byte before an offset; there is none before the first one, and zero stands for
it. It is what the end of the code is blamed on. -/
def Chunk.lineBefore (c : Chunk) : Nat → UInt32
  | 0 => 0
  | offset + 1 => (c.lineAt? offset).getD 0

/-! ## Stacks -/

namespace Stack

/-- Below the capacity a push succeeds, and the value is on top of those that were there. -/
theorem exists_push_eq_ok {s : Stack} (h : s.values.length < s.capacity) (v : Value) :
    ∃ t : Stack, s.push v = .ok t ∧ t.capacity = s.capacity ∧ t.values = v :: s.values := by
  cases hpush : s.push v with
  | ok t => exact ⟨t, rfl, (push_eq_ok_iff.1 hpush).2⟩
  | error f =>
    obtain ⟨hfull, -⟩ := push_eq_error_iff.1 hpush
    omega

/-- At the capacity a push fails, and the fault names the capacity. -/
theorem push_of_full {s : Stack} (h : ¬ s.values.length < s.capacity) (v : Value) :
    s.push v = .error (.stackOverflow s.capacity) := by
  have hle := s.height_le
  rw [s.height_eq] at hle
  exact push_eq_error_iff.2 ⟨by omega, rfl⟩

/-- A pop takes the topmost value away, and leaves those below it. -/
theorem exists_pop_eq_ok {s : Stack} {v : Value} {values : List Value}
    (h : s.values = v :: values) :
    ∃ t : Stack, s.pop = .ok (v, t) ∧ t.capacity = s.capacity ∧ t.values = values := by
  cases hpop : s.pop with
  | ok p =>
    obtain ⟨w, t⟩ := p
    obtain ⟨hvalues, hcapacity⟩ := pop_eq_ok_iff.1 hpop
    rw [h] at hvalues
    cases hvalues
    exact ⟨t, rfl, hcapacity, rfl⟩
  | error f =>
    obtain ⟨hnil, -⟩ := pop_eq_error_iff.1 hpop
    rw [h] at hnil
    contradiction

/-- A pop of nothing fails. These four laws say what a stack does by the list of its values, in the
form in which a machine asks for it. -/
theorem pop_of_nil {s : Stack} (h : s.values = []) : s.pop = .error .stackUnderflow :=
  pop_eq_error_iff.2 ⟨h, rfl⟩

end Stack

/-! ## Machines -/

namespace Machine

variable {W : Type} [Output W]

/-- **A machine executes an instruction as its effect says**, if its output never fails: it ends in
the same way, with the same values on its stack and with its output after what is printed.

**Proof sketch.** The cases are those of the effect: which instruction it is, and how many of its
operands there are. After a pop there is room for the result. -/
theorem execute_eq {m : Machine W} (hcapacity : m.stack.capacity = m.config.capacity)
    (hsink : Output.Reliable m.sink) (i : Instruction) :
    ∃ s : Stack, s.capacity = m.stack.capacity ∧
      s.values = (i.effect m.config.arithmetic m.config.capacity m.stack.values).2 ∧
      m.execute i =
        ((i.effect m.config.arithmetic m.config.capacity m.stack.values).1,
          { m with
            stack := s
            sink := Output.print m.sink
              (i.effect m.config.arithmetic m.config.capacity m.stack.values).1.printed }) := by
  have hle := m.stack.height_le
  rw [m.stack.height_eq] at hle
  cases i with
  | load v =>
    simp only [execute, push, Instruction.effect, ← hcapacity]
    by_cases hlt : m.stack.values.length < m.stack.capacity
    · obtain ⟨t, hpush, htcap, hvalues⟩ := Stack.exists_push_eq_ok hlt v
      rw [hpush, if_pos hlt]
      exact ⟨t, htcap, hvalues, rfl⟩
    · rw [Stack.push_of_full hlt v, if_neg hlt]
      exact ⟨m.stack, rfl, rfl, rfl⟩
  | binary op =>
    simp only [execute, applyBinary]
    cases hvalues : m.stack.values with
    | nil =>
      rw [Stack.pop_of_nil hvalues]
      exact ⟨m.stack, rfl, hvalues, rfl⟩
    | cons right below =>
      obtain ⟨t, hpop, htcap, htvalues⟩ := Stack.exists_pop_eq_ok hvalues
      cases below with
      | nil =>
        simp only [hpop, Stack.pop_of_nil htvalues]
        exact ⟨t, htcap, htvalues, rfl⟩
      | cons left values =>
        obtain ⟨u, hpop', hucap, huvalues⟩ := Stack.exists_pop_eq_ok htvalues
        have hlt : u.values.length < u.capacity := by
          rw [hvalues, List.length_cons, List.length_cons] at hle
          rw [huvalues]
          omega
        obtain ⟨s, hpush, hscap, hsvalues⟩ :=
          Stack.exists_push_eq_ok hlt (m.config.arithmetic.binary op left right)
        simp only [hpop, hpop', push, hpush]
        exact ⟨s, by omega, huvalues ▸ hsvalues, rfl⟩
  | negate =>
    simp only [execute, applyUnary]
    cases hvalues : m.stack.values with
    | nil =>
      rw [Stack.pop_of_nil hvalues]
      exact ⟨m.stack, rfl, hvalues, rfl⟩
    | cons v values =>
      obtain ⟨t, hpop, htcap, htvalues⟩ := Stack.exists_pop_eq_ok hvalues
      have hlt : t.values.length < t.capacity := by
        rw [hvalues, List.length_cons] at hle
        rw [htvalues]
        omega
      obtain ⟨s, hpush, hscap, hsvalues⟩ :=
        Stack.exists_push_eq_ok hlt (m.config.arithmetic.negate v)
      simp only [hpop, push, hpush]
      exact ⟨s, by omega, htvalues ▸ hsvalues, rfl⟩
  | ret =>
    simp only [execute, finish]
    cases hvalues : m.stack.values with
    | nil =>
      rw [Stack.pop_of_nil hvalues]
      exact ⟨m.stack, rfl, hvalues, rfl⟩
    | cons v values =>
      obtain ⟨t, hpop, htcap, htvalues⟩ := Stack.exists_pop_eq_ok hvalues
      obtain ⟨hwrite, hflush⟩ := hsink (Sink.textBytes (v.text ++ "\n"))
      refine ⟨t, htcap, htvalues, ?_⟩
      simp only [hpop]
      split
      · rename_i heq
        rw [heq] at hwrite
        contradiction
      · rename_i w heq
        rw [heq] at hflush
        split
        · rename_i heq'
          rw [heq'] at hflush
          contradiction
        · rename_i w' heq'
          simp only [Instruction.effect, StepResult.printed, Output.print, heq, heq']

omit [Output W] in
/-- Reading an instruction changes nothing that it works on: only the records, if the machine is
traced, and the place in the code. -/
theorem advance_eq (m : Machine W) (c : Chunk) (n : Nat) :
    ∃ log, m.advance c n = { m with current := m.ip, ip := m.ip + n, log } := by
  unfold advance traceStep
  split
  · exact ⟨_, rfl⟩
  · exact ⟨m.log, rfl⟩

/-- A machine at an instruction executes it, and is left behind it. What the instruction does is
told by its effect on the list of values. -/
theorem step_eq {m : Machine W} {c : Chunk} {i : Instruction} (hi : c.fetch m.ip = .ok i)
    (hcapacity : m.stack.capacity = m.config.capacity) (hsink : Output.Reliable m.sink) :
    ∃ (s : Stack) (log : Array LogRecord), s.capacity = m.config.capacity ∧
      s.values = (i.effect m.config.arithmetic m.config.capacity m.stack.values).2 ∧
      m.step c =
        ((i.effect m.config.arithmetic m.config.capacity m.stack.values).1,
          { m with
            stack := s
            ip := m.ip + i.width
            current := m.ip
            log := log
            sink := Output.print m.sink
              (i.effect m.config.arithmetic m.config.capacity m.stack.values).1.printed }) := by
  obtain ⟨log, hadvance⟩ := m.advance_eq c i.width
  have hstep := step_eq_execute hi
  rw [hadvance] at hstep
  obtain ⟨s, hscapacity, hvalues, hexecute⟩ := execute_eq
    (m := { m with current := m.ip, ip := m.ip + i.width, log }) hcapacity hsink i
  exact ⟨s, log, hscapacity.trans hcapacity, hvalues, hstep.trans hexecute⟩

/-- A machine that finds no instruction faults, and nothing that it works on changes. It may have
read some bytes before it noticed. -/
theorem step_of_fetch_error {m : Machine W} {c : Chunk} {f : Fault} (hf : c.fetch m.ip = .error f) :
    ∃ n log, m.step c = (.faulted f, { m with current := m.ip, ip := m.ip + n, log }) := by
  rcases m.step_cases c with ⟨i, hi, -⟩ | ⟨f', n, hf', hstep⟩
  · rw [hf] at hi
    contradiction
  · rw [hf] at hf'
    cases hf'
    obtain ⟨log, hadvance⟩ := m.advance_eq c n
    exact ⟨n, log, hadvance ▸ hstep⟩

/-- The line of a fault is that of the byte where its instruction starts, if there is such a
byte. -/
theorem lineAt?_eq_lineOf {c : Chunk} {offset : Nat} (h : offset < c.lines.size) :
    c.lineAt? offset = some (lineOf c offset) := by
  rw [lineOf, Chunk.lineAt?, Array.getElem?_eq_getElem h]
  rfl

/-- Behind the code the line of a fault is that of the last byte, and zero if there is no byte at
all. -/
theorem lineOf_size {c : Chunk} (h : c.WellFormed) :
    lineOf c c.code.size = c.lineBefore c.code.size := by
  have hsize := h.size_lines
  unfold lineOf Chunk.lineBefore Chunk.lineAt?
  rw [← hsize, Array.getElem?_eq_none (Nat.le_refl _), Array.back?]
  cases hn : c.lines.size with
  | zero => simp [hn]
  | succ n => rfl

/-- **A machine runs a spelled routine as it is interpreted**: with the same result, a fault being
blamed on the same line, with the same text printed, and with the same values left.

**Proof sketch.** Induction on the routine. A step executes its first instruction, whose line is
that of the byte where the step starts. If the run goes on, the line before the instruction pointer
is the line of the instruction that was just passed, and this is the one that the end of the code is
blamed on. -/
theorem run_spelled {c : Chunk} (hc : c.WellFormed) {p : Routine UInt32} {m : Machine W}
    (hp : c.Spells m.ip p) (hcapacity : m.stack.capacity = m.config.capacity)
    (hsink : Output.Reliable m.sink) :
    let out := p.interpret m.config.arithmetic m.config.capacity (c.lineBefore m.ip) m.stack.values
    ((m.run c).1.mapError fun f => (f, lineOf c (m.run c).2.current)) = out.result ∧
      (m.run c).2.sink = Output.print m.sink out.printed ∧
      (m.run c).2.stack.values = out.values := by
  induction p generalizing m with
  | nil =>
    have hend : m.ip = c.code.size := hp
    obtain ⟨n, log, hstep⟩ := step_of_fetch_error (Chunk.fetch_of_size_le (Nat.le_of_eq hend.symm))
    rw [run_of_final (r := .error .endOfCode) hstep]
    refine ⟨congrArg (fun line => Except.error (Fault.endOfCode, line)) ?_, rfl, rfl⟩
    rw [hend]
    exact lineOf_size hc
  | cons s rest ih =>
    obtain ⟨line, i⟩ := s
    obtain ⟨hi, hline, hrest⟩ := hp
    obtain ⟨s, log, hscapacity, hvalues, hstep⟩ := step_eq hi hcapacity hsink
    have hlineOf : lineOf c m.ip = line := by
      rw [lineOf, ← Nat.add_zero m.ip, hline 0 i.opcode.width_pos]
      rfl
    generalize heffect : i.effect m.config.arithmetic m.config.capacity m.stack.values = e
      at hstep hvalues
    obtain ⟨r, values⟩ := e
    simp only [Routine.interpret, heffect]
    cases r with
    | running =>
      rw [run_of_running hstep]
      have hbefore : c.lineBefore (m.ip + i.width) = line := by
        obtain ⟨w, hw⟩ := Nat.exists_eq_succ_of_ne_zero (Nat.ne_of_gt i.opcode.width_pos)
        have hwidth : i.width = w + 1 := hw
        rw [hwidth, ← Nat.add_assoc, Chunk.lineBefore, hline w (by omega)]
        rfl
      have hafter := ih (m := { m with stack := s, ip := m.ip + i.width, current := m.ip, log })
        hrest hscapacity hsink
      simp only [hbefore, hvalues] at hafter
      exact hafter
    | returned v =>
      rw [run_of_final (r := .ok v) hstep]
      exact ⟨rfl, rfl, hvalues⟩
    | faulted f =>
      rw [run_of_final (r := .error f) hstep]
      exact ⟨congrArg (fun line => Except.error (f, line)) hlineOf, rfl, hvalues⟩

/-- **A call of a chunk that spells a routine** does what the routine is interpreted to do. The call
starts at the start of the code and with an empty stack, which is where `run_spelled` applies. -/
theorem evaluate_spelled {c : Chunk} (hc : c.WellFormed) {p : Routine UInt32} (hp : c.Spells 0 p)
    (m : Machine W) (hsink : Output.Reliable m.sink) :
    let out := p.interpret m.config.arithmetic m.config.capacity 0 []
    (m.evaluate c).1 = (out.result.mapError fun e => ⟨e.1, e.2⟩) ∧
      (m.evaluate c).2.sink = Output.print m.sink out.printed ∧
      (m.evaluate c).2.stack.values = out.values := by
  have hrun := run_spelled (m := m.reset) hc hp rfl hsink
  rw [evaluate_snd, evaluate_fst]
  refine ⟨Eq.trans ?_ (congrArg (Except.mapError _) hrun.1), hrun.2⟩
  cases (m.reset.run c).1 <;> rfl

/-- **A call of a chunk that a routine was appended to**, from nothing, does what the routine is
interpreted to do. It is the form in which assembled chunks and expressions are run. -/
theorem evaluate_emitted {c : Chunk} {p : Routine UInt32} (h : Chunk.empty.emitAll p = .ok c)
    (m : Machine W) (hsink : Output.Reliable m.sink) :
    let out := p.interpret m.config.arithmetic m.config.capacity 0 []
    (m.evaluate c).1 = (out.result.mapError fun e => ⟨e.1, e.2⟩) ∧
      (m.evaluate c).2.sink = Output.print m.sink out.printed ∧
      (m.evaluate c).2.stack.values = out.values := by
  obtain ⟨-, hc, hspells⟩ := Chunk.spells_of_emitAll .empty h
  exact evaluate_spelled hc hspells m hsink

end Machine

end ChunkMachine
