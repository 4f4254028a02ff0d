import ChunkMachine.Proofs.Chunk.Growth

set_option relaxedAutoImplicit false
set_option autoImplicit false

/-!
# Routines without a machine

A routine is a list of instructions. What it means can be said without code bytes, offsets and a
pool: it works through its instructions over a list of values that may not grow beyond a capacity,
and prints the value that it returns.

## Main definitions

* `Output.Reliable`, `Output.print` — outputs that never fail, and what they are after printing.
* `Instruction.effect` — what an instruction does to a list of values.
* `Routine.interpret` — works through a routine, with `Routine.Outcome` as its result.
* `Routine.stackAfter` — the values after a routine whose instructions all go on.

## Main results

* `Routine.interpret_mapLine` — only the line of an outcome depends on how lines are told.
* `Routine.interpret_error_cases` — where an interpreted routine fails.
* `Routine.exists_ret_of_result_ok`, `Routine.not_mem_ret_of_endOfCode` — routines that give a
  value have a return, and those that are over for want of one have none.
-/

namespace ChunkMachine

/-! ## Outputs -/

namespace Output

variable {W : Type} [Output W]

/-- An output takes everything that is written into it, and flushes it. Nothing is said of what
becomes of it, so this holds of outputs of any kind. -/
def Reliable (w : W) : Prop :=
  ∀ bytes, (write w bytes).1 = .ok () ∧ (flush (write w bytes).2).1 = .ok ()

/-- An output after a text was written and flushed, if there is one to print. Answers are not looked
at, as such an output is only asked to take everything. -/
def print (w : W) : Option String → W
  | none => w
  | some text => (flush (write w (Sink.textBytes text)).2).2

end Output

namespace Sink

/-- A sink with room for everything that can be flushed never fails, whatever it holds. -/
theorem reliable_of_room {s : Sink} (hroom : s.room = none) (hflush : s.flushFails = false) :
    Output.Reliable s := by
  intro bytes
  simp [Output.write, Output.flush, write_unlimited hroom, flush, hflush]

/-- What is printed into such a sink stands behind what was there before. -/
theorem content_print {s : Sink} (hroom : s.room = none) (text : String) :
    (Output.print s (some text)).content = s.content ++ textBytes text := by
  simp [Output.print, Output.write, Output.flush, write_unlimited hroom, content]

end Sink

/-! ## Interpretation -/

/-- What an instruction does to a list of values, the topmost one first: how it ends, and the
values it leaves. Operands are taken away before anything is known to be missing. -/
def Instruction.effect (a : Arithmetic) (capacity : Nat) :
    Instruction → List Value → StepResult × List Value
  | load v, values =>
    if values.length < capacity then (.running, v :: values)
    else (.faulted (.stackOverflow capacity), values)
  | binary op, right :: left :: values => (.running, a.binary op left right :: values)
  | binary _, _ => (.faulted .stackUnderflow, [])
  | negate, v :: values => (.running, a.negate v :: values)
  | negate, [] => (.faulted .stackUnderflow, [])
  | ret, v :: values => (.returned v, values)
  | ret, [] => (.faulted .stackUnderflow, [])

/-- The text that a step prints: the value that it returns, on a line of its own. -/
def StepResult.printed : StepResult → Option String
  | returned v => some (v.text ++ "\n")
  | _ => none

namespace Routine

variable {Line : Type}

/-- What comes of a routine: its value or a fault and the line of the fault, the text that it
prints, and the values that it leaves. -/
structure Outcome (Line : Type) where
  /-- The value, or a fault and its line. -/
  result : Except (Fault × Line) Value
  /-- What was printed, if anything was. -/
  printed : Option String
  /-- What is left on the stack, the topmost value first. -/
  values : List Value

/-- An outcome with its line told in another way. Only a fault has a line. -/
def Outcome.mapLine {Line Line' : Type} (f : Line → Line') (out : Outcome Line) : Outcome Line' :=
  ⟨out.result.mapError fun e => (e.1, f e.2), out.printed, out.values⟩

/-- Works through a routine over a list of values. Behind the last instruction the routine is over
for want of a return; `last` is the line to blame for that. -/
def interpret (a : Arithmetic) (capacity : Nat) (last : Line) (values : List Value) :
    Routine Line → Outcome Line
  | [] => ⟨.error (.endOfCode, last), none, values⟩
  | (line, i) :: rest =>
    match i.effect a capacity values with
    | (.running, values) => interpret a capacity line values rest
    | (.returned v, values) => ⟨.ok v, some (v.text ++ "\n"), values⟩
    | (.faulted f, values) => ⟨.error (f, line), none, values⟩

/-- The values after a routine all of whose instructions let it go on. If one of them ends it there
are none. -/
def stackAfter (a : Arithmetic) (capacity : Nat) (values : List Value) :
    Routine Line → Option (List Value)
  | [] => some values
  | (_, i) :: rest =>
    match i.effect a capacity values with
    | (.running, values) => stackAfter a capacity values rest
    | _ => none

/-- The line of the last instruction, if there is any, and another one if there is none. -/
def lastLine (p : Routine Line) (default : Line) : Line := (p.getLast?.map Prod.fst).getD default

variable {a : Arithmetic} {capacity : Nat}

/-- Only the line of an outcome depends on how lines are told. So numbers and words give the same
values, the same faults and the same texts. -/
theorem interpret_mapLine {Line' : Type} (f : Line → Line') (p : Routine Line) (last : Line)
    (values : List Value) :
    interpret a capacity (f last) values (p.map (Prod.map f id)) =
      (p.interpret a capacity last values).mapLine f := by
  induction p generalizing last values with
  | nil => rfl
  | cons s rest ih =>
    obtain ⟨line, i⟩ := s
    simp only [List.map_cons, Prod.map, id, interpret]
    split
    · exact ih line _
    · rfl
    · rfl

/-- **Where an interpreted routine fails**: behind its last instruction, or at an instruction that
is reached with values on which it faults.

**Proof sketch.** Induction on the routine. An instruction that lets it go on joins those that were
passed, and one that ends it without a value is where it fails. -/
theorem interpret_error_cases {p : Routine Line} {last line : Line} {values : List Value}
    {f : Fault} (h : (p.interpret a capacity last values).result = .error (f, line)) :
    (f = .endOfCode ∧ line = p.lastLine last) ∨
      ∃ (before : Routine Line) (i : Instruction) (after : Routine Line) (reached : List Value),
        p = before ++ (line, i) :: after ∧
        before.stackAfter a capacity values = some reached ∧
        i.effect a capacity reached =
          (.faulted f, (p.interpret a capacity last values).values) := by
  induction p generalizing last values with
  | nil =>
    cases h
    exact .inl ⟨rfl, rfl⟩
  | cons s rest ih =>
    obtain ⟨next, i⟩ := s
    simp only [interpret] at h ⊢
    split at h
    · rename_i values' heffect
      rcases ih h with ⟨rfl, hlast⟩ | ⟨before, j, after, reached, rfl, hbefore, hj⟩
      · refine .inl ⟨rfl, hlast.trans ?_⟩
        unfold lastLine
        rw [List.getLast?_cons]
        cases rest.getLast? <;> rfl
      · refine .inr ⟨(next, i) :: before, j, after, reached, rfl, ?_, hj⟩
        simp only [stackAfter, heffect, hbefore]
    · contradiction
    · rename_i f' values' heffect
      cases h
      exact .inr ⟨[], i, rest, values, rfl, rfl, heffect⟩

/-- An instruction that is interpreted never lacks what only code can lack: it faults on the stack
or not at all. -/
theorem effect_fault_cases {i : Instruction} {values left : List Value} {f : Fault}
    (h : i.effect a capacity values = (.faulted f, left)) :
    f = .stackUnderflow ∨ f = .stackOverflow capacity := by
  unfold Instruction.effect at h
  split at h
  · split at h
    · cases h
    · cases h
      exact .inr rfl
  all_goals
    cases h
    try exact .inl rfl

/-- Nothing but a load overflows, as all others put their result where an operand was. -/
theorem load_of_effect_overflow {i : Instruction} {values left : List Value} {k : Nat}
    (h : i.effect a capacity values = (.faulted (.stackOverflow k), left)) : ∃ v, i = .load v := by
  unfold Instruction.effect at h
  split at h
  · exact ⟨_, rfl⟩
  all_goals cases h

/-- The return instruction does not let a routine go on, and it alone returns a value. So a routine
ends well at its first return or not at all. -/
theorem effect_ret_cases {i : Instruction} {values left : List Value} {r : StepResult}
    (h : i.effect a capacity values = (r, left)) :
    (r = .running → i ≠ .ret) ∧ ∀ v, r = .returned v → i = .ret := by
  unfold Instruction.effect at h
  split at h
  · split at h
    all_goals
      cases h
      simp
  all_goals
    cases h
    simp

/-- A value comes from a return instruction of the routine, by induction on it. -/
theorem exists_ret_of_result_ok {p : Routine Line} {last : Line} {values : List Value} {v : Value}
    (h : (p.interpret a capacity last values).result = .ok v) : ∃ line, (line, .ret) ∈ p := by
  induction p generalizing last values with
  | nil => contradiction
  | cons s rest ih =>
    obtain ⟨next, i⟩ := s
    simp only [interpret] at h
    split at h
    · obtain ⟨line, hret⟩ := ih h
      exact ⟨line, List.mem_cons_of_mem _ hret⟩
    · rename_i heffect
      rw [(effect_ret_cases heffect).2 _ rfl]
      exact ⟨next, List.mem_cons_self⟩
    · contradiction

/-- A routine that is over for want of a return has none. If it had one, the interpretation would
have come to it, and a return ends it in another way.

**Proof sketch.** Induction on the routine. Only an instruction that is no return lets it go on, and
no instruction has this fault. -/
theorem not_mem_ret_of_endOfCode {p : Routine Line} {last line : Line} {values : List Value}
    (h : (p.interpret a capacity last values).result = .error (.endOfCode, line)) (number : Line) :
    (number, .ret) ∉ p := by
  induction p generalizing last values with
  | nil => exact List.not_mem_nil
  | cons s rest ih =>
    obtain ⟨next, i⟩ := s
    simp only [interpret] at h
    split at h
    · rename_i heffect
      intro hmem
      rcases List.mem_cons.1 hmem with heq | hmem
      · exact (effect_ret_cases heffect).1 rfl (Prod.mk.inj heq).2.symm
      · exact ih h hmem
    · contradiction
    · rename_i heffect
      cases h
      rcases effect_fault_cases heffect with hfault | hfault <;> contradiction

end Routine

end ChunkMachine
