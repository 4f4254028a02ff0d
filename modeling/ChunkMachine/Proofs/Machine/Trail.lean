import ChunkMachine.Proofs.Machine.Delivery
import ChunkMachine.Proofs.Machine.Expression

set_option relaxedAutoImplicit false
set_option autoImplicit false

/-!
# What is on the stack along the way

The result of a call does not tell how high the stack was in between. A routine that is interpreted
leaves a trail, the values after each of its instructions, and a machine that runs the routine has
exactly these on its stack. Along the code of an expression there are never more values than the
expression needs room for.

## Main definitions

* `Routine.trail` — the values after each instruction of a routine.

## Main results

* `Machine.map_values_steps` — a run of a spelled routine leaves the trail of the routine.
* `Expression.length_of_mem_trail` — an expression stays within the room that it needs.
* `Machine.evaluate_spelled_error` — where a routine fails, a call fails on every output.
-/

namespace ChunkMachine

/-- The values after each instruction of a routine that is executed. Where the routine is over for
want of a return there is one more entry, since a machine finds that out in a step of its own. -/
def Routine.trail {Line : Type} (a : Arithmetic) (capacity : Nat) (values : List Value) :
    Routine Line → List (List Value)
  | [] => [values]
  | (_, i) :: rest =>
    match i.effect a capacity values with
    | (.running, left) => left :: trail a capacity left rest
    | (_, left) => [left]

namespace Machine

variable {W : Type} [Output W]

/-- **A run of a spelled routine leaves the trail of the routine**, if the output never fails.

**Proof sketch.** Induction on the routine, whose first instruction is what the first step
executes. -/
theorem map_values_steps {c : Chunk} {p : Routine UInt32} {m : Machine W} (hp : c.Spells m.ip p)
    (hcapacity : m.stack.capacity = m.config.capacity) (hsink : Output.Reliable m.sink) :
    (m.steps c).map (fun s => s.2.stack.values) =
      p.trail m.config.arithmetic m.config.capacity m.stack.values := by
  induction p generalizing m with
  | nil =>
    have hend : m.ip = c.code.size := hp
    obtain ⟨n, log, hstep⟩ := step_of_fetch_error (Chunk.fetch_of_size_le (Nat.le_of_eq hend.symm))
    rw [steps_of_final (r := .error .endOfCode) hstep]
    rfl
  | cons s rest ih =>
    obtain ⟨line, i⟩ := s
    obtain ⟨hi, -, hrest⟩ := hp
    obtain ⟨s, log, hscapacity, hvalues, hstep⟩ := step_eq hi hcapacity hsink
    generalize heffect : i.effect m.config.arithmetic m.config.capacity m.stack.values = e
      at hstep hvalues
    obtain ⟨r, left⟩ := e
    simp only [Routine.trail, heffect]
    cases r with
    | running =>
      have hafter := ih (m := { m with stack := s, ip := m.ip + i.width, current := m.ip, log })
        hrest hscapacity hsink
      rw [steps_of_running hstep, List.map_cons]
      simp only [hvalues] at hafter ⊢
      exact congrArg (left :: ·) hafter
    | returned v =>
      rw [steps_of_final (r := .ok v) hstep]
      exact congrArg (fun values => [values]) hvalues
    | faulted f =>
      rw [steps_of_final (r := .error f) hstep]
      exact congrArg (fun values => [values]) hvalues

end Machine

namespace Expression

variable {a : Arithmetic} {capacity : Nat}

/-- An expression needs room for its value, if for nothing else. -/
theorem need_pos (e : Expression) : 0 < e.need := by
  induction e with
  | constant line v => exact Nat.one_pos
  | negate line e ih => exact ih
  | binary line op l r ihl ihr => exact Nat.lt_of_lt_of_le ihl (Nat.le_max_left _ _)

/-- **An expression stays within the room that it needs**: along its code there are at most so many
values above those that were there before. Whatever comes after it on the trail is left by the code
behind it, which starts with the value of the expression.

**Proof sketch.** Induction on the expression, as for `Expression.interpret_routine`. -/
theorem length_of_mem_trail {e : Expression} {rest : Routine UInt32} {values left : List Value}
    (hroom : values.length + e.need ≤ capacity)
    (h : left ∈ Routine.trail a capacity values (e.routine ++ rest)) :
    left.length ≤ values.length + e.need ∨ left ∈ rest.trail a capacity (e.eval a :: values) := by
  induction e generalizing rest values with
  | constant line v =>
    have hfits : values.length < capacity := hroom
    simp only [routine, List.cons_append, List.nil_append, Routine.trail, Instruction.effect,
      if_pos hfits, List.mem_cons] at h
    rcases h with rfl | h
    · exact .inl (Nat.le_refl _)
    · exact .inr h
  | negate line e ih =>
    have hpos := e.need_pos
    rw [routine, List.append_assoc] at h
    rcases ih hroom h with hleft | h
    · exact .inl hleft
    · simp only [List.cons_append, List.nil_append, Routine.trail, Instruction.effect,
        List.mem_cons] at h
      rcases h with rfl | h
      · left
        rw [List.length_cons, need]
        omega
      · exact .inr h
  | binary line op l r ihl ihr =>
    rw [need] at hroom ⊢
    have hpos := r.need_pos
    rw [routine, List.append_assoc, List.append_assoc] at h
    rcases ihl (by omega) h with hleft | h
    · exact .inl (by omega)
    · rcases ihr (by rw [List.length_cons]; omega) h with hleft | h
      · rw [List.length_cons] at hleft
        exact .inl (by omega)
      · simp only [List.cons_append, List.nil_append, Routine.trail, Instruction.effect,
          List.mem_cons] at h
        rcases h with rfl | h
        · left
          rw [List.length_cons]
          omega
        · exact .inr h

end Expression

namespace Machine

variable {W : Type} [Output W]

/-- **Where a routine fails, a call fails**, on every output: nothing is written before. The fault
and its line are those of the routine. -/
theorem evaluate_spelled_error {c : Chunk} (hc : c.WellFormed) {p : Routine UInt32}
    (hp : c.Spells 0 p) (m : Machine W) {f : Fault} {line : UInt32}
    (h : (p.interpret m.config.arithmetic m.config.capacity 0 []).result = .error (f, line)) :
    (m.evaluate c).1 = .error ⟨f, line⟩ := by
  obtain ⟨hideal, -, -⟩ :=
    evaluate_spelled hc hp (m.redirect Sink.unlimited) Sink.reliable_unlimited
  have hconfig : (m.redirect Sink.unlimited).config = m.config := rfl
  rw [hconfig, h] at hideal
  rcases m.evaluate_delivering Sink.reliable_unlimited c with
    ⟨e, he, -, hcall⟩ | ⟨v, hv, -⟩
  · rw [hideal] at he
    cases he
    rw [hcall]
  · rw [hideal] at hv
    contradiction

end Machine

end ChunkMachine
