import ChunkMachine.Proofs.Machine.Instruction

set_option relaxedAutoImplicit false
set_option autoImplicit false

/-!
# The steps of a run

A run of a machine is the sequence of its steps, of which only the last one ends it. This module
gives that sequence as a list, and an induction along it.

## Main definitions

* `Machine.steps` — the result and the machine after each step of a run.
* `Machine.starts` — the offsets at which the steps of a run start.
* `Machine.Run` — runs with their steps and their outcome, as a relation to induct on.

## Main results

* `Machine.run_steps` — the steps and the outcome of every machine are related so.
* `Machine.step_ends` — a step ends like the instruction it fetches, or with the fault of fetching.
* `Machine.step_running` — a step that lets the run go on passes a whole instruction.
* `Machine.Run.getLast?` — the outcome of a run is that of its last step.
* `Machine.Run.last_cases` — a run ends in a way of its last instruction, or with the fault of
  fetching it.
-/

namespace ChunkMachine

/-- The result of the step that ends a run so. With this the two ways of ending are treated as
one. -/
def StepResult.final : Except Fault Value → StepResult
  | .ok v => .returned v
  | .error f => .faulted f

/-- A step ends the run with a fault exactly if the run faults so. -/
theorem StepResult.final_eq_faulted_iff {r : Except Fault Value} {fault : Fault} :
    final r = .faulted fault ↔ r = .error fault := by
  cases r <;> simp [final]

/-- A step ends the run with a value exactly if the run returns it. -/
theorem StepResult.final_eq_returned_iff {r : Except Fault Value} {v : Value} :
    final r = .returned v ↔ r = .ok v := by
  cases r <;> simp [final]

namespace Machine

variable {W : Type} [Output W]

/-- The result and the machine after each step of a run. The list is never empty, and its last entry
is the outcome of the run. -/
def steps (m : Machine W) (c : Chunk) : List (StepResult × Machine W) :=
  match _h : m.step c with
  | (.running, m') => (.running, m') :: m'.steps c
  | (.returned v, m') => [(.returned v, m')]
  | (.faulted fault, m') => [(.faulted fault, m')]
termination_by c.code.size - m.ip
decreasing_by exact size_sub_ip_lt ‹_›

/-- The offsets at which the steps of a run start. Each machine remembers where its last step
did. -/
def starts (m : Machine W) (c : Chunk) : List Nat := (m.steps c).map fun s => s.2.current

/-- A run, with its steps and its outcome. A proof by induction on it has two cases: the step that
ends the run, and a step that lets it go on. -/
inductive Run (c : Chunk) :
    Machine W → List (StepResult × Machine W) → Except Fault Value × Machine W → Prop where
  /-- A step that ends the run is a run of one step. -/
  | last {m m' : Machine W} {r : Except Fault Value} (h : m.step c = (.final r, m')) :
      Run c m [(.final r, m')] (r, m')
  /-- In front of a run stands a step that lets it go on. -/
  | next {m m' : Machine W} {ss : List (StepResult × Machine W)}
      {out : Except Fault Value × Machine W} (h : m.step c = (.running, m'))
      (hrest : Run c m' ss out) : Run c m ((.running, m') :: ss) out

/-! ## Runs and their steps -/

section Unfolding

variable {c : Chunk} {m m' : Machine W}

/-- Behind a step that lets the run go on come the steps of the machine after it. -/
theorem steps_of_running (h : m.step c = (.running, m')) :
    m.steps c = (.running, m') :: m'.steps c := by
  rw [steps]
  split <;> simp_all

/-- Behind a step that lets the run go on comes the run of the machine after it. This and the laws
beside it are the equations of `Machine.run` and `Machine.steps`, which are not unfolded again. -/
theorem run_of_running (h : m.step c = (.running, m')) : m.run c = m'.run c := by
  rw [run]
  split <;> simp_all

/-- A step that ends the run is its only one. -/
theorem steps_of_final {r : Except Fault Value} (h : m.step c = (.final r, m')) :
    m.steps c = [(.final r, m')] := by
  rw [steps]
  cases r <;> split <;> simp_all [StepResult.final]

/-- A step that ends the run gives its outcome. -/
theorem run_of_final {r : Except Fault Value} (h : m.step c = (.final r, m')) :
    m.run c = (r, m') := by
  rw [run]
  cases r <;> split <;> simp_all [StepResult.final]

end Unfolding

/-- Every machine has a run, and its steps and its outcome are the computed ones.

**Proof sketch.** Induction along the run. A step lets the run go on, or it returns a value or
faults; the latter two are ends of one kind. -/
theorem run_steps (m : Machine W) (c : Chunk) : Run c m (m.steps c) (m.run c) := by
  have hfinal {m m' : Machine W} {r : Except Fault Value} (h : m.step c = (.final r, m')) :
      Run c m (m.steps c) (m.run c) := by
    rw [steps_of_final h, run_of_final h]
    exact .last h
  induction m using Machine.run.induct (W := W) c with
  | case1 m m' h ih =>
    rw [steps_of_running h, run_of_running h]
    exact .next h ih
  | case2 m v m' h => exact hfinal (r := .ok v) h
  | case3 m fault m' h => exact hfinal (r := .error fault) h

/-! ## Single steps -/

/-- A step notes where it starts, whatever becomes of it. -/
theorem current_of_step {m m' : Machine W} {c : Chunk} {r : StepResult} (h : m.step c = (r, m')) :
    m'.current = m.ip := by
  have hadvance (n : Nat) : (m.advance c n).current = m.ip := by
    unfold advance traceStep
    split <;> rfl
  rcases m.step_cases c with ⟨i, -, hstep⟩ | ⟨f, n, -, hstep⟩
  · obtain ⟨stack, sink, hframe⟩ := (m.advance c i.width).execute_frame i
    rw [← hstep, h] at hframe
    subst hframe
    exact hadvance i.width
  · rw [h] at hstep
    cases hstep
    exact hadvance n

/-- A step keeps the configuration, so all machines of a run have the same one. -/
theorem config_step (m : Machine W) (c : Chunk) : (m.step c).2.config = m.config := by
  have hadvance (n : Nat) : (m.advance c n).config = m.config := by
    unfold advance traceStep
    split <;> rfl
  rcases m.step_cases c with ⟨i, -, hstep⟩ | ⟨f, n, -, hstep⟩
  · obtain ⟨stack, sink, hframe⟩ := (m.advance c i.width).execute_frame i
    rw [hstep, hframe]
    exact hadvance i.width
  · rw [hstep]
    exact hadvance n

/-- A step ends like the instruction it fetches, or with the fault of fetching it. The two cases
exclude each other, as something is fetched or not. -/
theorem step_ends (m : Machine W) (c : Chunk) :
    (∃ i, c.fetch m.ip = .ok i ∧ i.Ends (m.step c).1) ∨
      ∃ f, c.fetch m.ip = .error f ∧ (m.step c).1 = .faulted f := by
  rcases m.step_cases c with ⟨i, hi, h⟩ | ⟨f, n, hf, h⟩
  · refine .inl ⟨i, hi, ?_⟩
    rw [h]
    exact execute_ends _ i
  · exact .inr ⟨f, hf, by rw [h]⟩

/-- A step that lets the run go on passes a whole instruction, which is no return. The next step
starts right behind that. -/
theorem step_running {m m' : Machine W} {c : Chunk} (h : m.step c = (.running, m')) :
    ∃ i, c.fetch m.ip = .ok i ∧ i ≠ .ret ∧ m'.ip = m.ip + i.width := by
  rcases m.step_cases c with ⟨i, hi, hstep⟩ | ⟨f, n, -, hstep⟩
  · refine ⟨i, hi, ?_, ?_⟩
    · rintro rfl
      have hends := execute_ends (m.advance c Instruction.ret.width) .ret
      rw [← hstep, h] at hends
      cases hends with
      | running hret => exact hret rfl
    · obtain ⟨stack, sink, hframe⟩ := (m.advance c i.width).execute_frame i
      rw [← hstep, h] at hframe
      subst hframe
      rfl
  · rw [hstep] at h
    cases h

namespace Run

variable {c : Chunk} {m : Machine W} {ss : List (StepResult × Machine W)}
  {out : Except Fault Value × Machine W}

/-! ## Whole runs -/

/-- The outcome of a run is that of its last step, and the machine is left as that step leaves
it. -/
theorem getLast? (h : Run c m ss out) : ss.getLast? = some (.final out.1, out.2) := by
  induction h with
  | last h => rfl
  | next h hrest ih => rw [List.getLast?_cons, ih]; rfl

/-- All machines of a run have the same configuration, in particular the last one. -/
theorem config_eq (h : Run c m ss out) : out.2.config = m.config := by
  induction h with
  | @last m m' r h => exact (congrArg (fun s => s.2.config) h).symm.trans (config_step m c)
  | @next m m' ss out h hrest ih =>
    exact ih.trans ((congrArg (fun s => s.2.config) h).symm.trans (config_step m c))

/-- A run ends where its last step started: in a way of the instruction there, or with the fault of
fetching it. -/
theorem last_cases (h : Run c m ss out) :
    (∃ i, c.fetch out.2.current = .ok i ∧ i.Ends (.final out.1)) ∨
      ∃ f, c.fetch out.2.current = .error f ∧ out.1 = .error f := by
  induction h with
  | @last m m' r h =>
    have hends := m.step_ends c
    simp only [h, current_of_step h, StepResult.final_eq_faulted_iff] at hends ⊢
    exact hends
  | next h hrest ih => exact ih

/-- A run faults where its last step started: with the fault of fetching there, or in a way of the
instruction there. It is `last_cases` for runs that are known to fault. -/
theorem fault_cases (h : Run c m ss out) {f : Fault} (hf : out.1 = .error f) :
    c.fetch out.2.current = .error f ∨
      ∃ i, c.fetch out.2.current = .ok i ∧ i.Ends (.faulted f) := by
  rcases h.last_cases with ⟨i, hi, hends⟩ | ⟨f', hfetch, hf'⟩
  · rw [hf] at hends
    exact .inr ⟨i, hi, hends⟩
  · rw [hf] at hf'
    cases hf'
    exact .inl hfetch

/-- Every step of a run but the last one passes a whole instruction, which is no return. Their
offsets are those of the steps without the last. -/
theorem fetch_of_mem_dropLast (h : Run c m ss out) {offset : Nat}
    (hoffset : offset ∈ (ss.map fun s => s.2.current).dropLast) :
    ∃ i, c.fetch offset = .ok i ∧ i ≠ .ret := by
  induction h with
  | last h => simp at hoffset
  | @next m m' ss out h hrest ih =>
    have hne : ss.map (fun s => s.2.current) ≠ [] := by cases hrest <;> simp
    rw [List.map_cons, List.dropLast_cons_of_ne_nil hne, List.mem_cons] at hoffset
    rcases hoffset with rfl | hoffset
    · obtain ⟨i, hi, hret, -⟩ := step_running h
      exact ⟨i, by rw [current_of_step h, hi], hret⟩
    · exact ih hoffset

end Run

end Machine

end ChunkMachine
