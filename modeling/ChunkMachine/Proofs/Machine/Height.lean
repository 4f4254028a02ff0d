import ChunkMachine.Machine.Call

set_option relaxedAutoImplicit false
set_option autoImplicit false

/-!
# Counting values

How a run goes on never depends on the values that it works with, only on how many there are. So a
run can be followed with nothing but the offset of the next instruction and the height of the stack,
over a chunk of whose constants only the number is known.

## Main definitions

* `Outline` — a chunk without its constants.
* `Opcode.count` — what an opcode does to a number of values.
* `Gauge`, `Gauge.step` — a machine that only counts its values, and one instruction of it.
* `Gauge.run` — a whole run of it, with a `Course` as its result.
-/

namespace ChunkMachine

/-! ## Chunks without constants -/

/-- What a chunk is without its constants: its code, its lines and the size of its pool. The size is
kept since an index beyond the pool is a fault. -/
structure Outline where
  /-- The code bytes. -/
  code : Array UInt8
  /-- The line of each of them. -/
  lines : Array UInt32
  /-- How many constants there are. -/
  poolSize : Nat
  deriving DecidableEq, Repr

/-- A chunk without its constants. Two chunks have the same outline if they differ in what the
constants are, and not in how many. -/
def Chunk.outline (c : Chunk) : Outline := ⟨c.code, c.lines, c.constants.size⟩

namespace Outline

/-- The opcode of the instruction at an offset, or the fault of a machine that tries to read it. -/
def fetch (o : Outline) (offset : Nat) : Except Fault Opcode :=
  match o.code[offset]? with
  | none => .error .endOfCode
  | some byte =>
    match Opcode.ofByte? byte with
    | none => .error (.unknownOpcode byte)
    | some .constant =>
      match o.code[offset + 1]? with
      | none => .error .endOfCode
      | some index =>
        if index.toNat < o.poolSize then .ok .constant
        else .error (.constantOutOfRange index o.poolSize)
    | some op => .ok op

/-- The line that a fault at an offset is blamed on. -/
def lineOf (o : Outline) (offset : Nat) : UInt32 := (o.lines[offset]?.or o.lines.back?).getD 0

/-- Where an opcode is fetched there is code. With this a run on an outline comes to an end. -/
theorem lt_size_of_fetch_ok {o : Outline} {offset : Nat} {op : Opcode}
    (h : o.fetch offset = .ok op) : offset < o.code.size := by
  unfold fetch at h
  cases hbyte : o.code[offset]? with
  | none => simp [hbyte] at h
  | some byte => exact (Array.getElem?_eq_some_iff.1 hbyte).1

end Outline

/-! ## Instructions -/

/-- How an instruction ends a run, whatever value it returns; none if the run goes on. -/
abbrev Ending := Option (Except Fault Unit)

namespace Opcode

/-- How many values an opcode takes, all of which have to be there. -/
@[simp]
def pops : Opcode → Nat
  | constant => 0
  | binary _ => 2
  | negate => 1
  | ret => 1

/-- How many values an opcode leaves on the stack in their place. -/
@[simp]
def pushes : Opcode → Nat
  | ret => 0
  | _ => 1

/-- What an opcode does to a number of values: how it ends, and the number that it leaves. It takes
its operands first, as many as there are, and then puts its result where there is room for it. -/
def count (capacity height : Nat) (op : Opcode) : Ending × Nat :=
  if height < op.pops then (some (.error .stackUnderflow), 0)
  else if capacity < height - op.pops + op.pushes then
    (some (.error (.stackOverflow capacity)), height - op.pops)
  else (if op = ret then some (.ok ()) else none, height - op.pops + op.pushes)

end Opcode

/-! ## Runs -/

/-- A machine that only counts its values: the offset of its next instruction, and their number. It
has no arithmetic and no output, as neither has a say in what it does. -/
structure Gauge where
  /-- The offset of the next instruction. -/
  ip : Nat
  /-- How many values there are. -/
  height : Nat
  deriving DecidableEq, Repr

/-- The course of a run, its values apart: how it ends, how many steps it takes, and how many values
it leaves. -/
structure Course where
  /-- That it went well, or its fault and the line of that. -/
  result : Except RuntimeError Unit
  /-- The number of its steps, the last one included. -/
  steps : Nat
  /-- How many values are left. -/
  height : Nat

namespace Gauge

/-- The machine at the start of the code, without values. Every call starts so. -/
def start : Gauge := ⟨0, 0⟩

/-- One instruction: it is fetched, and the values are counted. A fault in fetching leaves the count
as it is. -/
def step (o : Outline) (capacity : Nat) (g : Gauge) : Ending × Gauge :=
  match o.fetch g.ip with
  | .error fault => (some (.error fault), g)
  | .ok op => ((op.count capacity g.height).1, ⟨g.ip + op.width, (op.count capacity g.height).2⟩)

/-- After an instruction that lets the run go on, less of the code is left, which is why a run
ends. -/
theorem size_sub_ip_lt {o : Outline} {capacity : Nat} {g g' : Gauge}
    (h : g.step o capacity = (none, g')) : o.code.size - g'.ip < o.code.size - g.ip := by
  unfold step at h
  cases hfetch : o.fetch g.ip with
  | error fault => simp [hfetch] at h
  | ok op =>
    have hlt := Outline.lt_size_of_fetch_ok hfetch
    have hwidth := op.width_pos
    simp only [hfetch, Prod.mk.injEq] at h
    obtain ⟨-, rfl⟩ := h
    show o.code.size - (g.ip + op.width) < _
    omega

/-- A whole run: instructions until one of them ends it. A fault is blamed on the line of the
instruction that ends it. -/
def run (o : Outline) (capacity : Nat) (g : Gauge) : Course :=
  match _h : g.step o capacity with
  | (none, g') =>
    let rest := g'.run o capacity
    { rest with steps := rest.steps + 1 }
  | (some result, g') => ⟨result.mapError fun fault => ⟨fault, o.lineOf g.ip⟩, 1, g'.height⟩
termination_by o.code.size - g.ip
decreasing_by exact size_sub_ip_lt ‹_›

section Unfolding

variable {o : Outline} {capacity : Nat} {g g' : Gauge}

/-- Behind an instruction that lets the run go on comes the run from there, which takes one step
less. -/
theorem run_of_running (h : g.step o capacity = (none, g')) :
    g.run o capacity =
      { g'.run o capacity with steps := (g'.run o capacity).steps + 1 } := by
  rw [run]
  split <;> simp_all

/-- An instruction that ends the run is its only one. These two laws are all that is used of
`Gauge.run`. -/
theorem run_of_ended {result : Except Fault Unit} (h : g.step o capacity = (some result, g')) :
    g.run o capacity =
      ⟨result.mapError fun fault => ⟨fault, o.lineOf g.ip⟩, 1, g'.height⟩ := by
  rw [run]
  split <;> simp_all

end Unfolding

end Gauge

/-- The course that runs of a chunk take, computed without its constants. A machine takes it
whatever the constants are, see `Machine.course_eq`. -/
def Outline.course (o : Outline) (capacity : Nat) : Course := Gauge.start.run o capacity

end ChunkMachine
