import ChunkMachine.Proofs.Machine.Height
import ChunkMachine.Proofs.Machine.Spelled

set_option relaxedAutoImplicit false
set_option autoImplicit false

/-!
# Control does not depend on data

Two chunks that differ only in their constants are run alike: they end in the same way, with the
same fault on the same line if there is one, after the same number of steps and with the same number
of values left. What they share is the course that a machine takes which only counts its values.

## Main definitions

* `StepResult.ending` — how a step ends the run, whatever value it returns.
* `Machine.gauge` — what a machine is if only its values are counted.
* `Machine.course` — the course of a call.

## Main results

* `Instruction.effect_count` — instructions do to values what they do to their number.
* `Machine.gauge_step` — a step of a machine is a step of its gauge.
* `Machine.Run.course_eq` — so is a whole run.
* `Machine.course_independent_of_constants` — calls do not depend on constants.
-/

namespace ChunkMachine

/-- How a step ends the run, whatever value it returns. A step that does not end it has no
ending. -/
@[simp]
def StepResult.ending : StepResult → Ending
  | running => none
  | returned _ => some (.ok ())
  | faulted fault => some (.error fault)

/-! ## Instructions -/

/-- Where an instruction is fetched from a chunk, its opcode is fetched from the outline, and where
none is fetched the faults are the same. So the constants of a chunk have no part in fetching.

**Proof sketch.** By the byte at the offset. Only a load looks further, at its index and at the size
of the pool, and both are in the outline. -/
theorem Chunk.fetch_outline (c : Chunk) (offset : Nat) :
    c.outline.fetch offset = (c.fetch offset).map Instruction.opcode := by
  unfold Outline.fetch Chunk.fetch outline
  cases c.code[offset]? with
  | none => rfl
  | some byte =>
    cases hop : Opcode.ofByte? byte with
    | none => simp only [hop]; rfl
    | some op =>
      simp only [hop]
      cases op with
      | constant =>
        simp only
        cases c.code[offset + 1]? with
        | none => rfl
        | some index =>
          by_cases hpool : index.toNat < c.constants.size
          · simp only [if_pos hpool, Array.getElem?_eq_getElem hpool]
            rfl
          · simp only [if_neg hpool, Array.getElem?_eq_none (Nat.le_of_not_lt hpool)]
            rfl
      | binary op => rfl
      | negate => rfl
      | ret => rfl

/-- **Instructions do to values what they do to their number.** How an instruction ends, and how
many values it leaves, is told by how many there were.

**Proof sketch.** The cases are the instruction and the number of values that it finds. A result
takes the room of an operand, so that only a load can overflow. -/
theorem Instruction.effect_count (a : Arithmetic) {capacity : Nat} {values : List Value}
    (h : values.length ≤ capacity) (i : Instruction) :
    i.opcode.count capacity values.length =
      ((i.effect a capacity values).1.ending, (i.effect a capacity values).2.length) := by
  unfold Opcode.count
  cases i with
  | load v =>
    by_cases hroom : values.length < capacity
    · simp [opcode, effect, hroom, Nat.not_lt_of_le (Nat.succ_le_of_lt hroom)]
    · simp [opcode, effect, hroom, Nat.lt_succ_of_le (Nat.le_of_not_lt hroom)]
  | binary op =>
    rcases values with _ | ⟨right, _ | ⟨left, values⟩⟩
    · rfl
    · rfl
    · have hroom : ¬ capacity < values.length + 1 := by
        rw [List.length_cons, List.length_cons] at h
        omega
      simp [opcode, effect, hroom]
  | negate =>
    rcases values with _ | ⟨v, values⟩
    · rfl
    · have hroom : ¬ capacity < values.length + 1 := Nat.not_lt_of_le h
      simp [opcode, effect, hroom]
  | ret =>
    rcases values with _ | ⟨v, values⟩
    · rfl
    · have hroom : ¬ capacity < values.length := by
        rw [List.length_cons] at h
        omega
      simp [opcode, effect, hroom]

namespace Machine

variable {W : Type}

/-- What a machine is if only its values are counted, and only its place in the code is looked
at. -/
def gauge (m : Machine W) : Gauge := ⟨m.ip, m.stack.values.length⟩

variable [Output W]

/-- The course of a call: how it ends, how many steps it takes, and how many values it leaves. The
value that it returns is no part of it. -/
def course (m : Machine W) (c : Chunk) : Course :=
  ⟨(m.evaluate c).1.map fun _ => (), (m.reset.steps c).length, (m.evaluate c).2.stack.values.length⟩

/-! ## Steps -/

/-- A step keeps the capacity of the stack, and leaves the output alone unless it ends the run.
These two are what the next step needs to know of the machine. -/
theorem step_keeps {m : Machine W} {c : Chunk} (hcapacity : m.stack.capacity = m.config.capacity)
    (hsink : Output.Reliable m.sink) :
    (m.step c).2.stack.capacity = m.config.capacity ∧
      ((m.step c).1 = .running → (m.step c).2.sink = m.sink) := by
  cases hfetch : c.fetch m.ip with
  | error f =>
    obtain ⟨n, log, hstep⟩ := step_of_fetch_error hfetch
    rw [hstep]
    exact ⟨hcapacity, fun _ => rfl⟩
  | ok i =>
    obtain ⟨s, log, hscapacity, -, hstep⟩ := step_eq hfetch hcapacity hsink
    rw [hstep]
    refine ⟨hscapacity, fun hrunning => ?_⟩
    show Output.print m.sink _ = m.sink
    rw [hrunning]
    rfl

/-- **A step of a machine is a step of its gauge**: it ends in the same way and leaves the same
number of values, and if the run goes on, then at the same place.

**Proof sketch.** The gauge fetches the opcode of what the machine fetches. If there is an
instruction, the machine does what the effect of the instruction says, and the effect counts as the
gauge does. -/
theorem gauge_step {m : Machine W} {c : Chunk} (hcapacity : m.stack.capacity = m.config.capacity)
    (hsink : Output.Reliable m.sink) :
    (m.gauge.step c.outline m.config.capacity).1 = (m.step c).1.ending ∧
      (m.gauge.step c.outline m.config.capacity).2.height = (m.step c).2.stack.values.length ∧
      ((m.step c).1 = .running →
        (m.gauge.step c.outline m.config.capacity).2 = (m.step c).2.gauge) := by
  have hoffset : c.outline.fetch m.gauge.ip = (c.fetch m.ip).map Instruction.opcode :=
    c.fetch_outline m.ip
  unfold Gauge.step
  rw [hoffset]
  cases hfetch : c.fetch m.ip with
  | error f =>
    obtain ⟨n, log, hstep⟩ := step_of_fetch_error hfetch
    rw [hstep]
    exact ⟨rfl, rfl, fun hrunning => nomatch hrunning⟩
  | ok i =>
    obtain ⟨s, log, -, hvalues, hstep⟩ := step_eq hfetch hcapacity hsink
    have hle := m.stack.height_le
    rw [m.stack.height_eq, hcapacity] at hle
    have hcount := i.effect_count m.config.arithmetic hle
    rw [hstep]
    simp only [Except.map, gauge, hcount, hvalues]
    exact ⟨trivial, trivial, fun _ => rfl⟩

/-- A step overflows only where a constant load finds the stack full. An operation puts its result
where an operand was.

**Proof sketch.** Of all instructions only a load overflows, by `execute_ends`, and it does so where
its push finds the stack full. What is not fetched has other faults. -/
theorem step_overflow {m : Machine W} {c : Chunk} {k : Nat}
    (h : (m.step c).1 = .faulted (.stackOverflow k)) :
    k = m.stack.capacity ∧ m.stack.values.length = m.stack.capacity ∧
      c.code[m.ip]? = some Opcode.constant.toByte := by
  rcases m.step_cases c with ⟨i, hi, hstep⟩ | ⟨f, n, hf, hstep⟩
  · have hends := execute_ends (m.advance c i.width) i
    rw [← hstep, h] at hends
    cases hends with
    | overflow v =>
      obtain ⟨log, hadvance⟩ := m.advance_eq c (Instruction.load v).width
      rw [hstep, hadvance] at h
      rcases push_ends { m with current := m.ip, ip := m.ip + _, log } v with
        hrunning | ⟨hfull, hfault⟩
      · rw [execute, hrunning] at h
        cases h
      · rw [execute, hfault] at h
        cases h
        exact ⟨rfl, hfull, (Chunk.opcode_of_fetch_ok hi).1⟩
  · rw [hstep] at h
    cases h
    -- what keeps an instruction from being fetched is another fault
    rcases Chunk.fetch_error_cases hf with hf | ⟨byte, hf⟩ | ⟨index, hf⟩ <;> cases hf

/-! ## Runs -/

namespace Run

variable {c : Chunk} {m : Machine W} {ss : List (StepResult × Machine W)}
  {out : Except Fault Value × Machine W}

/-- All machines of a run have the same configuration, and stacks of its capacity. The proof goes by
induction on the run; what `step_keeps` says of one step it says of all. -/
theorem keeps (h : Run c m ss out) (hcapacity : m.stack.capacity = m.config.capacity)
    (hsink : Output.Reliable m.sink) :
    ∀ m' ∈ m :: ss.map Prod.snd,
      m'.config = m.config ∧ m'.stack.capacity = m.config.capacity := by
  induction h with
  | @last m m' r h =>
    have hconfig := config_step m c
    obtain ⟨hcapacity', -⟩ := step_keeps (c := c) hcapacity hsink
    rw [h] at hconfig hcapacity'
    intro m'' hm''
    simp only [List.map_cons, List.map_nil, List.mem_cons, List.not_mem_nil, or_false] at hm''
    rcases hm'' with rfl | rfl
    · exact ⟨rfl, hcapacity⟩
    · exact ⟨hconfig, hcapacity'⟩
  | @next m m' ss out h hrest ih =>
    have hconfig := config_step m c
    obtain ⟨hcapacity', hsink'⟩ := step_keeps (c := c) hcapacity hsink
    rw [h] at hconfig hcapacity' hsink'
    rw [List.map_cons, List.forall_mem_cons]
    refine ⟨⟨rfl, hcapacity⟩, ?_⟩
    have hafter := ih (hcapacity'.trans (congrArg _ hconfig.symm)) (hsink' rfl ▸ hsink)
    rwa [hconfig] at hafter

/-- **The course of a run** is that of its gauge: its end, the number of its steps and the number of
values that it leaves.

**Proof sketch.** Induction on the run, by `gauge_step`. What a step needs, the capacity of the
stack and an output that never fails, is kept as long as the run goes on. -/
theorem course_eq (h : Run c m ss out) (hcapacity : m.stack.capacity = m.config.capacity)
    (hsink : Output.Reliable m.sink) :
    m.gauge.run c.outline m.config.capacity =
      ⟨(out.1.map fun _ => ()).mapError fun f => ⟨f, lineOf c out.2.current⟩, ss.length,
        out.2.stack.values.length⟩ := by
  induction h with
  | @last m m' r h =>
    obtain ⟨hending, hheight, -⟩ := gauge_step (c := c) hcapacity hsink
    rw [h] at hending hheight
    have hended : m.gauge.step c.outline m.config.capacity =
        (some (r.map fun _ => ()), (m.gauge.step c.outline m.config.capacity).2) := by
      refine Prod.ext (hending.trans ?_) rfl
      cases r <;> rfl
    rw [Gauge.run_of_ended hended, hheight, current_of_step h]
    rfl
  | @next m m' ss out h hrest ih =>
    obtain ⟨hending, -, hgauge⟩ := gauge_step (c := c) hcapacity hsink
    have hconfig := config_step m c
    obtain ⟨hcapacity', hsink'⟩ := step_keeps (c := c) hcapacity hsink
    rw [h] at hending hgauge hconfig hcapacity' hsink'
    have hrunning : m.gauge.step c.outline m.config.capacity = (none, m'.gauge) :=
      Prod.ext hending (hgauge rfl)
    have hafter := ih (hcapacity'.trans (congrArg _ hconfig.symm)) (hsink' rfl ▸ hsink)
    rw [hconfig] at hafter
    rw [Gauge.run_of_running hrunning, hafter]
    rfl

end Run

/-- The course of a call is the one that is computed without constants. The call starts with nothing
on the stack and at the start of the code, and so does the gauge. -/
theorem course_eq {m : Machine W} (c : Chunk) (hsink : Output.Reliable m.sink) :
    m.course c = c.outline.course m.config.capacity := by
  have hrun := (m.reset.run_steps c).course_eq rfl hsink
  have hstart : m.reset.gauge = Gauge.start := rfl
  rw [hstart] at hrun
  rw [course, Outline.course, evaluate_snd, evaluate_fst]
  refine Eq.trans ?_ hrun.symm
  cases (m.reset.run c).1 <;> rfl

/-- **Control does not depend on data.** With an output that never fails, a call takes the course
that is computed without the constants of its chunk. On the way there are never more values than
the capacity, and only a constant load overflows, where it finds that many values. So any two chunks
that differ in their constants only, not in the number of them, are run alike by machines of the
same capacity: with the same end, a fault, its details and its line included, after the same number
of steps, and with the same number of values left.

**Proof sketch.** A step of the machine is a step of its gauge, and the gauge never sees a value. -/
theorem course_independent_of_constants :
    (∀ (c : Chunk) {W : Type} [Output W] (m : Machine W), Output.Reliable m.sink →
      m.course c = c.outline.course m.config.capacity ∧
        ∀ m' ∈ m.reset :: (m.reset.steps c).map Prod.snd,
          m'.stack.values.length ≤ m.config.capacity ∧
          ∀ k, (m'.step c).1 = .faulted (.stackOverflow k) →
            k = m.config.capacity ∧ m'.stack.values.length = m.config.capacity ∧
              c.code[m'.ip]? = some Opcode.constant.toByte) ∧
    ∀ c d : Chunk, c.code = d.code → c.lines = d.lines → c.constants.size = d.constants.size →
      ∀ {W W' : Type} [Output W] [Output W'] (m : Machine W) (m' : Machine W'),
        m.config.capacity = m'.config.capacity → Output.Reliable m.sink →
        Output.Reliable m'.sink → m.course c = m'.course d := by
  refine ⟨fun c W _ m hsink => ⟨course_eq c hsink, fun m' hm' => ?_⟩, ?_⟩
  · obtain ⟨-, hcapacity⟩ := (m.reset.run_steps c).keeps rfl hsink m' hm'
    have hcapacity : m'.stack.capacity = m.config.capacity := hcapacity
    have hle := m'.stack.height_le
    rw [m'.stack.height_eq, hcapacity] at hle
    refine ⟨hle, fun k hk => ?_⟩
    obtain ⟨hk, hfull, hbyte⟩ := step_overflow hk
    exact ⟨hk.trans hcapacity, hfull.trans hcapacity, hbyte⟩
  · intro c d hcode hlines hsize W W' _ _ m m' hcapacity hsink hsink'
    have houtline : c.outline = d.outline := by rw [Chunk.outline, hcode, hlines, hsize]; rfl
    rw [course_eq c hsink, course_eq d hsink', houtline, hcapacity]

/-- A sum of one constant, be it one or no number at all, lacks its left operand and has taken the
right one. Without any room its constant already overflows. In both cases the two chunks are run
alike. -/
theorem course_independent_of_constants_lone_operand :
    let chunkOf (bits : UInt64) : Chunk := ⟨#[0, 0, 1, 6], #[1, 1, 2, 3], #[⟨bits⟩]⟩
    let c := chunkOf 0x3FF0000000000000
    let d := chunkOf 0x7FF8000000000001
    let m := new ⟨1, false, .ieee⟩ .unlimited
    let m' := new ⟨1, true, .ieee⟩ .unlimited
    let tight := new ⟨0, false, .ieee⟩ .unlimited
    (c.code = d.code ∧ c.lines = d.lines ∧ c.constants.size = d.constants.size ∧
        Output.Reliable m.sink ∧ Output.Reliable m'.sink) ∧
      m.course c = m'.course d ∧ m.course c = ⟨.error ⟨.stackUnderflow, 2⟩, 2, 0⟩ ∧
      (Output.Reliable tight.sink ∧
        (tight.reset.step c).1 = .faulted (.stackOverflow 0)) ∧
      tight.course c = ⟨.error ⟨.stackOverflow 0, 1⟩, 1, 0⟩ ∧
      c.code[tight.reset.ip]? = some Opcode.constant.toByte := by
  intro chunkOf c d m m' tight
  have hsink : Output.Reliable Sink.unlimited := Sink.reliable_of_room rfl rfl
  have hload : Gauge.start.step c.outline 1 = (none, ⟨2, 1⟩) := rfl
  have hadd : Gauge.step c.outline 1 ⟨2, 1⟩ = (some (.error .stackUnderflow), ⟨3, 0⟩) := rfl
  have hfull : Gauge.start.step c.outline 0 = (some (.error (.stackOverflow 0)), ⟨2, 0⟩) := rfl
  have hcourse : c.outline.course 1 = ⟨.error ⟨.stackUnderflow, 2⟩, 2, 0⟩ := by
    rw [Outline.course, Gauge.run_of_running hload, Gauge.run_of_ended hadd]
    rfl
  have htight : c.outline.course 0 = ⟨.error ⟨.stackOverflow 0, 1⟩, 1, 0⟩ :=
    Gauge.run_of_ended hfull
  have hstep : (tight.reset.step c).1 = .faulted (.stackOverflow 0) := by decide +kernel
  have halike := course_independent_of_constants.2 c d rfl rfl rfl m m' rfl hsink hsink
  have hm := course_independent_of_constants.1 c m hsink
  have hover := course_independent_of_constants.1 c tight hsink
  exact ⟨⟨rfl, rfl, rfl, hsink, hsink⟩, halike, hm.1.trans hcourse, ⟨hsink, hstep⟩,
    hover.1.trans htight, (hover.2 _ List.mem_cons_self).2 0 hstep |>.2.2⟩

end Machine

end ChunkMachine
