import ChunkMachine.Machine.Call

set_option relaxedAutoImplicit false
set_option autoImplicit false

/-!
# Machine steps as whole instructions

A machine reads code byte by byte. Here its step is split into two parts that do not depend on each
other: the instruction that a chunk holds at an offset, operand included, and the effect of that
instruction on a stack and a sink. Everything said about runs is said about these two.

## Main definitions

* `Chunk.fetch` — the instruction at an offset, or the fault of a machine that reads it.
* `Machine.execute` — the effect of an instruction.
* `Instruction.Ends` — how instructions end.

## Main results

* `Chunk.opcode_of_fetch_ok` — what code holds where an instruction is fetched.
* `Chunk.fetch_error_cases` — why none is fetched.
* `Machine.step_uniform` — what a step finds is told by the code and the offset.
* `Machine.step_cases` — a step executes the instruction at the instruction pointer, or it faults.
* `Machine.step_eq_execute` — it executes the instruction if there is one.
* `Machine.execute_frame` — an instruction changes nothing but the stack and the sink.
* `Machine.execute_ends` — every instruction ends in one of its ways.
-/

namespace ChunkMachine

/-- A result is a value exactly if it is that value as an option. On closed terms the right side is
shown by evaluation of the left one, which needs no equality of errors. -/
theorem toOption_eq_some_iff {ε α : Type} {x : Except ε α} {a : α} :
    x.toOption = some a ↔ x = .ok a := by
  cases x <;> simp [Except.toOption]

namespace Instruction

/-- The opcode of an instruction. Of a load it does not tell the value. -/
def opcode : Instruction → Opcode
  | load _ => .constant
  | binary op => .binary op
  | negate => .negate
  | ret => .ret

/-- The number of bytes of an instruction, its operand included. -/
def width (i : Instruction) : Nat := i.opcode.width

/-- How an instruction ends: the ways differ in what the instruction does to the stack. -/
inductive Ends : Instruction → StepResult → Prop where
  /-- Any instruction but a return may let the run go on. -/
  | running {i : Instruction} (h : i ≠ .ret) : Ends i .running
  /-- Only a return gives a value. -/
  | returned (v : Value) : Ends .ret (.returned v)
  /-- Any instruction but a load may lack an operand. -/
  | underflow {i : Instruction} (h : i.opcode ≠ .constant) : Ends i (.faulted .stackUnderflow)
  /-- Only a load may lack room. -/
  | overflow (v : Value) (capacity : Nat) : Ends (.load v) (.faulted (.stackOverflow capacity))
  /-- Only a return may fail for the output. -/
  | output (cause : SinkFault) : Ends .ret (.faulted (.output cause))

end Instruction

/-- The instruction at an offset, with the constant it loads, or the fault of a machine that tries
to read it. A machine reads an instruction byte by byte; here all of it is read at once. -/
def Chunk.fetch (c : Chunk) (offset : Nat) : Except Fault Instruction :=
  match c.code[offset]? with
  | none => .error .endOfCode
  | some byte =>
    match Opcode.ofByte? byte with
    | none => .error (.unknownOpcode byte)
    | some .constant =>
      match c.code[offset + 1]? with
      | none => .error .endOfCode
      | some index =>
        match c.constants[index.toNat]? with
        | none => .error (.constantOutOfRange index c.constants.size)
        | some v => .ok (.load v)
    | some (.binary op) => .ok (.binary op)
    | some .negate => .ok .negate
    | some .ret => .ok .ret

namespace Chunk

/-! ## What code holds where an instruction is fetched -/

/-- Behind the code there is no instruction, and to look for one there is a fault. -/
theorem fetch_of_size_le {c : Chunk} {offset : Nat} (h : c.code.size ≤ offset) :
    c.fetch offset = .error .endOfCode := by
  unfold fetch
  rw [Array.getElem?_eq_none h]

/-- Where an instruction is fetched there is its opcode, and all of it is within the code. With this
facts about instructions become facts about bytes.

**Proof sketch.** By what is fetched: the byte, its opcode and, for a load, the index behind it,
which is within the code. In all other cases nothing is fetched. -/
theorem opcode_of_fetch_ok {c : Chunk} {offset : Nat} {i : Instruction}
    (h : c.fetch offset = .ok i) :
    c.code[offset]? = some i.opcode.toByte ∧ offset + i.width ≤ c.code.size := by
  unfold fetch at h
  cases hbyte : c.code[offset]? with
  | none => simp [hbyte] at h
  | some byte =>
    obtain ⟨hlt, -⟩ := Array.getElem?_eq_some_iff.1 hbyte
    simp only [hbyte] at h
    cases hop : Opcode.ofByte? byte with
    | none => simp [hop] at h
    | some op =>
      rw [Opcode.ofByte?_eq_some_iff.1 hop]
      cases op with
      | constant =>
        cases hindex : c.code[offset + 1]? with
        | none => simp [hop, hindex] at h
        | some index =>
          obtain ⟨hlt', -⟩ := Array.getElem?_eq_some_iff.1 hindex
          cases hv : c.constants[index.toNat]? with
          | none => simp [hop, hindex, hv] at h
          | some v =>
            obtain rfl : .load v = i := by simpa [hop, hindex, hv] using h
            exact ⟨rfl, hlt'⟩
      | binary op =>
        obtain rfl : .binary op = i := by simpa [hop] using h
        exact ⟨rfl, hlt⟩
      | negate =>
        obtain rfl : .negate = i := by simpa [hop] using h
        exact ⟨rfl, hlt⟩
      | ret =>
        obtain rfl : .ret = i := by simpa [hop] using h
        exact ⟨rfl, hlt⟩

/-- What keeps a machine from reading an instruction is in the code: it is over, a byte is no
opcode, or an index is outside the pool. The stack and the output have no part in it. -/
theorem fetch_error_cases {c : Chunk} {offset : Nat} {f : Fault} (h : c.fetch offset = .error f) :
    f = .endOfCode ∨ (∃ byte, f = .unknownOpcode byte) ∨
      ∃ index, f = .constantOutOfRange index c.constants.size := by
  unfold fetch at h
  split at h
  · cases h
    exact .inl rfl
  · split at h
    · cases h
      exact .inr (.inl ⟨_, rfl⟩)
    · split at h
      · cases h
        exact .inl rfl
      · split at h
        · cases h
          exact .inr (.inr ⟨_, rfl⟩)
        · cases h
    all_goals cases h

/-- An opcode is unknown exactly if the byte is there and no opcode has it. -/
theorem fetch_eq_unknownOpcode_iff {c : Chunk} {offset : Nat} {byte : UInt8} :
    c.fetch offset = .error (.unknownOpcode byte) ↔
      c.code[offset]? = some byte ∧ Opcode.ofByte? byte = none := by
  unfold fetch
  constructor
  · intro h
    split at h
    · cases h
    · split at h
      · cases h
        exact ⟨‹_›, ‹_›⟩
      · split at h
        · cases h
        · split at h <;> cases h
      all_goals cases h
  · rintro ⟨hbyte, hop⟩
    simp only [hbyte, hop]

/-- At the byte of a return there is a return instruction, as it has no operand that could be
missing. -/
theorem fetch_of_ret {c : Chunk} {offset : Nat}
    (h : c.code[offset]? = some Opcode.ret.toByte) : c.fetch offset = .ok .ret := by
  unfold fetch
  simp only [h, Opcode.ofByte?_toByte]

end Chunk

namespace Machine

variable {W : Type}

/-- The effect of an instruction that has been read. What it does depends on the machine, and no
longer on the code. -/
def execute [Output W] (m : Machine W) : Instruction → StepResult × Machine W
  | .load v => m.push v
  | .binary op => m.applyBinary (m.config.arithmetic.binary op)
  | .negate => m.applyUnary m.config.arithmetic.negate
  | .ret => m.finish

/-- The machine that has recorded an instruction and read so many bytes of it. This is what every
step does before anything else. -/
def advance (m : Machine W) (c : Chunk) (n : Nat) : Machine W :=
  { ({ m with current := m.ip } : Machine W).traceStep c with ip := m.ip + n }

/-! ## Steps -/

/-- A machine that has read nothing has only recorded the instruction, and knows where it
started. -/
theorem advance_zero (m : Machine W) (c : Chunk) :
    m.advance c 0 = ({ m with current := m.ip } : Machine W).traceStep c := by
  unfold advance traceStep
  split <;> rfl

/-- **What a step finds is told by the code and the offset**, and by nothing else of a machine:
where there is an instruction, every machine executes it, and where there is none, every machine
faults alike after the same number of bytes.

**Proof sketch.** The cases are those of `Chunk.fetch`: what a machine reads one byte at a time, and
checks in between, is what `Chunk.fetch` reads at once. -/
theorem step_uniform (c : Chunk) (offset : Nat) :
    (∃ i, c.fetch offset = .ok i ∧ ∀ {W : Type} [Output W] (m : Machine W), m.ip = offset →
      m.step c = (m.advance c i.width).execute i) ∨
    ∃ f n, c.fetch offset = .error f ∧ ∀ {W : Type} [Output W] (m : Machine W), m.ip = offset →
      m.step c = (.faulted f, m.advance c n) := by
  unfold Chunk.fetch
  cases hbyte : c.code[offset]? with
  | none =>
    refine .inr ⟨_, 0, rfl, ?_⟩
    rintro W _ m rfl
    simp only [step, ip_traceStep, hbyte, advance_zero]
  | some byte =>
    simp only
    cases hop : Opcode.ofByte? byte with
    | none =>
      refine .inr ⟨_, 1, rfl, ?_⟩
      rintro W _ m rfl
      simp only [step, ip_traceStep, hbyte, hop, advance]
    | some op =>
      cases op with
      | constant =>
        simp only
        cases hindex : c.code[offset + 1]? with
        | none =>
          refine .inr ⟨_, 1, rfl, ?_⟩
          rintro W _ m rfl
          simp only [step, ip_traceStep, hbyte, hop, perform, loadConstant, hindex, advance]
        | some index =>
          simp only
          cases hv : c.constants[index.toNat]? with
          | none =>
            refine .inr ⟨_, 2, rfl, ?_⟩
            rintro W _ m rfl
            simp only [step, ip_traceStep, hbyte, hop, perform, loadConstant, hindex, hv, advance]
          | some v =>
            refine .inl ⟨.load v, rfl, ?_⟩
            rintro W _ m rfl
            simp only [step, ip_traceStep, hbyte, hop, perform, loadConstant, hindex, hv]
            rfl
      | binary op =>
        refine .inl ⟨.binary op, rfl, ?_⟩
        rintro W _ m rfl
        simp only [step, ip_traceStep, hbyte, hop]
        rfl
      | negate =>
        refine .inl ⟨.negate, rfl, ?_⟩
        rintro W _ m rfl
        simp only [step, ip_traceStep, hbyte, hop]
        rfl
      | ret =>
        refine .inl ⟨.ret, rfl, ?_⟩
        rintro W _ m rfl
        simp only [step, ip_traceStep, hbyte, hop]
        rfl

/-- **A step** executes the instruction at the instruction pointer, or it faults after some bytes if
no whole instruction is there. This is what `step_uniform` says of one machine. -/
theorem step_cases [Output W] (m : Machine W) (c : Chunk) :
    (∃ i, c.fetch m.ip = .ok i ∧ m.step c = (m.advance c i.width).execute i) ∨
      ∃ f n, c.fetch m.ip = .error f ∧ m.step c = (.faulted f, m.advance c n) := by
  rcases step_uniform c m.ip with ⟨i, hi, hstep⟩ | ⟨f, n, hf, hstep⟩
  · exact .inl ⟨i, hi, hstep m rfl⟩
  · exact .inr ⟨f, n, hf, hstep m rfl⟩

/-- At an instruction a step executes it. Of the two cases of a step only this one is left. -/
theorem step_eq_execute [Output W] {m : Machine W} {c : Chunk} {i : Instruction}
    (hi : c.fetch m.ip = .ok i) : m.step c = (m.advance c i.width).execute i := by
  rcases m.step_cases c with ⟨j, hj, hstep⟩ | ⟨f, n, hf, -⟩
  · rw [hi] at hj
    cases hj
    exact hstep
  · rw [hi] at hf
    contradiction

/-! ## Effects -/

/-- An instruction changes nothing but the stack and the sink. Its place in the code was moved on
before, when it was read.

**Proof sketch.** By the instructions. All of them but the return end with a push or with a fault,
and a push changes the stack only. -/
theorem execute_frame [Output W] (m : Machine W) (i : Instruction) :
    ∃ stack sink, (m.execute i).2 = { m with stack, sink } := by
  have hpush (m' : Machine W) (v : Value) : ∃ stack, (m'.push v).2 = { m' with stack } := by
    unfold push
    split
    · exact ⟨_, rfl⟩
    · exact ⟨m'.stack, rfl⟩
  cases i with
  | load v =>
    obtain ⟨stack, h⟩ := hpush m v
    exact ⟨stack, m.sink, h⟩
  | binary op =>
    simp only [execute, applyBinary]
    split
    · exact ⟨m.stack, m.sink, rfl⟩
    · split
      · exact ⟨_, m.sink, rfl⟩
      · obtain ⟨stack, h⟩ := hpush _ _
        exact ⟨stack, m.sink, h⟩
  | negate =>
    simp only [execute, applyUnary]
    split
    · exact ⟨m.stack, m.sink, rfl⟩
    · obtain ⟨stack, h⟩ := hpush _ _
      exact ⟨stack, m.sink, h⟩
  | ret =>
    simp only [execute, finish]
    split
    · exact ⟨m.stack, m.sink, rfl⟩
    · split
      · exact ⟨_, _, rfl⟩
      · split
        · exact ⟨_, _, rfl⟩
        · exact ⟨_, _, rfl⟩

/-- A push ends well, unless the stack is full, and then the fault names its capacity. -/
theorem push_ends (m : Machine W) (v : Value) :
    (m.push v).1 = .running ∨
      m.stack.values.length = m.stack.capacity ∧
        (m.push v).1 = .faulted (.stackOverflow m.stack.capacity) := by
  unfold push
  cases h : m.stack.push v with
  | ok stack => exact .inl rfl
  | error fault =>
    obtain ⟨hfull, rfl⟩ := Stack.push_eq_error_iff.1 h
    exact .inr ⟨hfull, rfl⟩

/-- After a pop there is room for a value, so an operation never overflows. -/
theorem push_ends_of_pop {m : Machine W} {s stack : Stack} {v w : Value}
    (h : s.pop = .ok (w, stack)) (hm : m.stack = stack) : (m.push v).1 = .running := by
  obtain ⟨hvalues, hcapacity⟩ := Stack.pop_eq_ok_iff.1 h
  rcases m.push_ends v with hrun | ⟨hfull, -⟩
  · exact hrun
  · have hle := s.height_le
    rw [s.height_eq, hvalues, List.length_cons] at hle
    rw [hm] at hfull
    omega

/-- Every instruction ends in one of its ways. The cases are the instruction and, for each of them,
what it finds on the stack.

**Proof sketch.** By the instructions. Behind a pop there is room for the result, so that a push can
only fail in a load. -/
theorem execute_ends [Output W] (m : Machine W) (i : Instruction) : i.Ends (m.execute i).1 := by
  cases i with
  | load v =>
    rcases m.push_ends v with h | ⟨-, h⟩
    · rw [execute, h]
      exact .running (by simp)
    · rw [execute, h]
      exact .overflow v _
  | binary op =>
    simp only [execute, applyBinary]
    split
    · obtain ⟨-, rfl⟩ := Stack.pop_eq_error_iff.1 ‹_›
      exact .underflow (by simp [Instruction.opcode])
    · split
      · obtain ⟨-, rfl⟩ := Stack.pop_eq_error_iff.1 ‹_›
        exact .underflow (by simp [Instruction.opcode])
      · rw [push_ends_of_pop ‹Stack.pop _ = .ok (_, _)› rfl]
        exact .running (by simp)
  | negate =>
    simp only [execute, applyUnary]
    split
    · obtain ⟨-, rfl⟩ := Stack.pop_eq_error_iff.1 ‹_›
      exact .underflow (by simp [Instruction.opcode])
    · rw [push_ends_of_pop ‹Stack.pop _ = .ok (_, _)› rfl]
      exact .running (by simp)
  | ret =>
    simp only [execute, finish]
    split
    · obtain ⟨-, rfl⟩ := Stack.pop_eq_error_iff.1 ‹_›
      exact .underflow (by simp [Instruction.opcode])
    · split
      · exact .output _
      · split
        · exact .output _
        · exact .returned _

end Machine

end ChunkMachine
