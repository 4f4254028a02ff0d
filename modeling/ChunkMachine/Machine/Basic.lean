import ChunkMachine.Listing
import ChunkMachine.Log.Record
import ChunkMachine.Machine.Stack

set_option relaxedAutoImplicit false
set_option autoImplicit false

/-!
# The machine

A stack machine that runs one chunk at a time. It reads code bytes at its instruction pointer,
works on its operand stack, and writes the value that the return instruction takes into its sink.

## Main definitions

* `MachineConfig`, `Machine` — the fixed and the changing part of a machine.
* `Machine.step` — one instruction.
* `Machine.run` — instructions up to the end of a run.

## Main results

* `Machine.step_advances` — an instruction that lets the run go on moves the instruction pointer
  forward from within the code, so every run ends.
-/

namespace ChunkMachine

/-- The fixed part of a machine: how many values its stack holds, whether it records every
instruction before executing it, and its arithmetic. -/
structure MachineConfig where
  /-- How many values the stack holds. -/
  capacity : Nat
  /-- Whether every instruction is recorded before it is executed. -/
  trace : Bool
  /-- What the operations on values compute. -/
  arithmetic : Arithmetic

/-- A stack of 256 values, no records of instructions, and IEEE 754 arithmetic. This is what a shell
runs chunks with. -/
def MachineConfig.standard : MachineConfig := ⟨256, false, .ieee⟩

/-- A machine: its operand stack, the offset of the next code byte, the offset at which the current
instruction started, what it writes into, the records it made, and the error of its last call. -/
structure Machine (W : Type := Sink) where
  /-- The part that no call changes. -/
  config : MachineConfig
  /-- The operand stack. -/
  stack : Stack
  /-- The offset of the next code byte. -/
  ip : Nat
  /-- The offset at which the current instruction started. A fault is blamed on its line. -/
  current : Nat
  /-- What results are written into. -/
  sink : W
  /-- The records made so far, of this call and of those before. -/
  log : Array LogRecord
  /-- The error of the last call that was to be remembered, if it failed. -/
  failure : Option CallError

/-- How an instruction ends. -/
inductive StepResult where
  /-- The run goes on. -/
  | running
  /-- The run has returned a value. -/
  | returned (value : Value)
  /-- The run has faulted. -/
  | faulted (fault : Fault)
  deriving DecidableEq, Repr

/-- The operation of the arithmetic that a binary operation calls for. -/
def Arithmetic.binary (a : Arithmetic) : BinaryOp → Value → Value → Value
  | .add => a.add
  | .subtract => a.subtract
  | .multiply => a.multiply
  | .divide => a.divide

namespace Machine

variable {W : Type}

/-- A fresh machine with a given output: an empty stack, no records, and no call to remember. -/
def withOutput (config : MachineConfig) (sink : W) : Machine W :=
  ⟨config, .empty config.capacity, 0, 0, sink, #[], none⟩

/-- A fresh machine that writes into a sink. -/
def new (config : MachineConfig) (sink : Sink) : Machine := withOutput config sink

/-- The machine after its output and its records were taken. The values and the error of its last
call stay on it. -/
def collected (m : Machine) : Machine := { m with sink := m.sink.emptied, log := #[] }

/-- Adds a record, behind those that there are. -/
def note (m : Machine W) (level : LogLevel) (target message : String) : Machine W :=
  { m with log := m.log.push ⟨level, target, message⟩ }

/-! ## Operations on the stack -/

/-- Puts a value on the stack. If the stack is full this faults, and the stack stays as it is. -/
def push (m : Machine W) (v : Value) : StepResult × Machine W :=
  match m.stack.push v with
  | .ok stack => (.running, { m with stack })
  | .error fault => (.faulted fault, m)

/-- Replaces the topmost value by the result of an operation on it. Its room is free again when the
result is pushed, so only a missing value can be the fault. -/
def applyUnary (m : Machine W) (op : Value → Value) : StepResult × Machine W :=
  match m.stack.pop with
  | .error fault => (.faulted fault, m)
  | .ok (v, stack) => push { m with stack } (op v)

/-- Replaces the two topmost values by the result of an operation on them. The right operand is the
topmost one, and stays taken if the left one is missing. -/
def applyBinary (m : Machine W) (op : Value → Value → Value) : StepResult × Machine W :=
  match m.stack.pop with
  | .error fault => (.faulted fault, m)
  | .ok (right, stack) =>
    match stack.pop with
    | .error fault => (.faulted fault, { m with stack })
    | .ok (left, stack) => push { m with stack } (op left right)

/-- Takes the topmost value and writes its text on a line of its own. The value stays taken if it
cannot be written. -/
def finish [Output W] (m : Machine W) : StepResult × Machine W :=
  match m.stack.pop with
  | .error fault => (.faulted fault, m)
  | .ok (v, stack) =>
    match Output.write m.sink (Sink.textBytes (v.text ++ "\n")) with
    | (.error cause, sink) => (.faulted (.output cause), { m with stack, sink })
    | (.ok (), sink) =>
      match Output.flush sink with
      | (.error cause, sink) => (.faulted (.output cause), { m with stack, sink })
      | (.ok (), sink) => (.returned v, { m with stack, sink })

/-! ## Instructions -/

/-- Reads the index of a constant and pushes the constant. If the operand is missing the code is
exhausted; an index beyond the pool is read all the same, so the instruction pointer is behind
it. -/
def loadConstant (m : Machine W) (c : Chunk) : StepResult × Machine W :=
  match c.code[m.ip]? with
  | none => (.faulted .endOfCode, m)
  | some index =>
    let m := { m with ip := m.ip + 1 }
    match c.constants[index.toNat]? with
    | none => (.faulted (.constantOutOfRange index c.constants.size), m)
    | some v => m.push v

/-- Executes the instruction of an opcode whose byte has been read. The arithmetic is that of the
machine's configuration. -/
def perform [Output W] (m : Machine W) (c : Chunk) : Opcode → StepResult × Machine W
  | .constant => m.loadConstant c
  | .binary op => m.applyBinary (m.config.arithmetic.binary op)
  | .negate => m.applyUnary m.config.arithmetic.negate
  | .ret => m.finish

/-- The values of a stack, from the bottom to the top, each between brackets. -/
def stackText (s : Stack) : String := String.join (s.bottomUp.map fun v => s!"[ {v.text} ]")

/-- Records the stack and the instruction that comes next, if the machine is set to. At the end of
the code there is no instruction, and the record says so. -/
def traceStep (m : Machine W) (c : Chunk) : Machine W :=
  if m.config.trace then
    m.note .trace "lox_vm::exec"
      ("          " ++ stackText m.stack ++ "\n" ++ Listing.rowAt c m.ip)
  else m

/-- Executes the next instruction. It is recorded before its byte is read, so that there is a record
of a step that finds no byte or no opcode. -/
def step [Output W] (m : Machine W) (c : Chunk) : StepResult × Machine W :=
  let m := { m with current := m.ip }.traceStep c
  match c.code[m.ip]? with
  | none => (.faulted .endOfCode, m)
  | some byte =>
    let m := { m with ip := m.ip + 1 }
    match Opcode.ofByte? byte with
    | none => (.faulted (.unknownOpcode byte), m)
    | some op => m.perform c op

/-! ## Progress -/

/-- The stack is no part of the code, so a push stays where it is. -/
@[simp] theorem ip_push (m : Machine W) (v : Value) : (m.push v).2.ip = m.ip := by
  unfold push
  split <;> rfl

/-- An operation on one value does not read the code. -/
@[simp] theorem ip_applyUnary (m : Machine W) (op : Value → Value) :
    (m.applyUnary op).2.ip = m.ip := by
  unfold applyUnary
  split <;> simp

/-- Neither does an operation on two values, whether it finds both of them or not. -/
@[simp] theorem ip_applyBinary (m : Machine W) (op : Value → Value → Value) :
    (m.applyBinary op).2.ip = m.ip := by
  unfold applyBinary
  split
  · rfl
  · split <;> simp

/-- Nor does a return, whatever becomes of the value that it writes. -/
@[simp] theorem ip_finish [Output W] (m : Machine W) : m.finish.2.ip = m.ip := by
  unfold finish
  split
  · rfl
  · split
    · rfl
    · split <;> rfl

/-- A constant load reads one byte more, if it is there. -/
theorem ip_le_loadConstant (m : Machine W) (c : Chunk) : m.ip ≤ (m.loadConstant c).2.ip := by
  unfold loadConstant
  split
  · exact Nat.le_refl _
  · split <;> simp

/-- Whatever the instruction is, its execution does not go back in the code. -/
theorem ip_le_perform [Output W] (m : Machine W) (c : Chunk) (op : Opcode) :
    m.ip ≤ (m.perform c op).2.ip := by
  cases op <;> simp [perform, ip_le_loadConstant]

/-- A record does not move the machine. -/
@[simp] theorem ip_traceStep (m : Machine W) (c : Chunk) : (m.traceStep c).ip = m.ip := by
  unfold traceStep
  split <;> rfl

/-- An instruction that lets the run go on starts within the code and moves the instruction pointer
forward. -/
theorem step_advances [Output W] {m : Machine W} {c : Chunk} (h : (m.step c).1 = .running) :
    m.ip < c.code.size ∧ m.ip < (m.step c).2.ip := by
  unfold step at h ⊢
  simp only [ip_traceStep] at h ⊢
  cases hb : c.code[m.ip]? with
  | none => simp [hb] at h
  | some byte =>
    refine ⟨(Array.getElem?_eq_some_iff.1 hb).1, ?_⟩
    simp only [hb] at h ⊢
    cases ho : Opcode.ofByte? byte with
    | none => simp [ho] at h
    | some op =>
      simp only
      refine Nat.lt_of_lt_of_le ?_ (ip_le_perform _ c op)
      exact Nat.lt_succ_self _

/-- After an instruction that lets the run go on, less of the code is left. This is why every run
ends. -/
theorem size_sub_ip_lt [Output W] {m m' : Machine W} {c : Chunk}
    (h : m.step c = (.running, m')) :
    c.code.size - m'.ip < c.code.size - m.ip := by
  have hadv := step_advances (congrArg Prod.fst h)
  simp only [h] at hadv
  omega

/-! ## Runs -/

/-- Executes instructions until one returns or faults. There are no jumps, so every run comes to an
end. -/
def run [Output W] (m : Machine W) (c : Chunk) : Except Fault Value × Machine W :=
  match _h : m.step c with
  | (.running, m') => m'.run c
  | (.returned v, m') => (.ok v, m')
  | (.faulted fault, m') => (.error fault, m')
termination_by c.code.size - m.ip
decreasing_by exact size_sub_ip_lt ‹_›

end Machine

end ChunkMachine
