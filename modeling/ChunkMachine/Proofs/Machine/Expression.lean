import ChunkMachine.Proofs.Machine.Spelled

set_option relaxedAutoImplicit false
set_option autoImplicit false

/-!
# Arithmetic expressions

An expression is turned into code by emitting its operands and then its operation, the left operand
before the right one. The code pushes the value of the expression, whatever is below it on the
stack, and it needs as much room as the number of values that wait for the deepest constant.

## Main definitions

* `Expression` — constants, negations and binary operations, with the lines that they stem from.
* `Expression.eval`, `Expression.need`, `Expression.leaves` — the value, the room and the constants.
* `Expression.chunk` — the chunk that computes an expression and returns it.

## Main results

* `Expression.interpret_routine` — what the code of an expression does within other code.
* `Machine.evaluate_expression` — a call of the chunk of an expression.
-/

namespace ChunkMachine

/-- An arithmetic expression. Every part has the line it stems from, and the lines need not have any
order. -/
inductive Expression where
  /-- A constant. -/
  | constant (line : UInt32) (value : Value)
  /-- The negation of an expression. -/
  | negate (line : UInt32) (operand : Expression)
  /-- An operation on two expressions. -/
  | binary (line : UInt32) (op : BinaryOp) (left right : Expression)
  deriving DecidableEq, Repr

namespace Expression

/-- The line of the outermost part. Its instruction is the last one of the code of the
expression. -/
def line : Expression → UInt32
  | constant line _ => line
  | negate line _ => line
  | binary line _ _ _ => line

/-- The value of an expression, by an arithmetic of any kind. -/
def eval (a : Arithmetic) : Expression → Value
  | constant _ v => v
  | negate _ e => a.negate (e.eval a)
  | binary _ op l r => a.binary op (l.eval a) (r.eval a)

/-- How many values an expression needs room for. The value of a left operand waits while the right
one is computed. -/
def need : Expression → Nat
  | constant _ _ => 1
  | negate _ e => e.need
  | binary _ _ l r => max l.need (1 + r.need)

/-- The number of constants in an expression. Each of them takes a place in the pool, even if it
occurs more than once. -/
def leaves : Expression → Nat
  | constant _ _ => 1
  | negate _ e => e.leaves
  | binary _ _ l r => l.leaves + r.leaves

/-- Appends the code of an expression: its operands from left to right, then its operation. -/
def emit (c : Chunk) : Expression → Except PoolFull Chunk
  | constant line v => c.emit line (.load v)
  | negate line e => do
    let c ← e.emit c
    c.emit line .negate
  | binary line op l r => do
    let c ← l.emit c
    let c ← r.emit c
    c.emit line (.binary op)

/-- The chunk that computes an expression and returns its value. -/
def chunk (e : Expression) (line : UInt32) : Except PoolFull Chunk := do
  let c ← e.emit .empty
  c.emit line .ret

/-- The instructions that compute an expression, its operands before its operation. -/
def routine : Expression → Routine UInt32
  | constant line v => [(line, .load v)]
  | negate line e => e.routine ++ [(line, .negate)]
  | binary line op l r => l.routine ++ r.routine ++ [(line, .binary op)]

/-! ## Code -/

/-- Appending one instruction is appending a routine of one. So code that is built instruction by
instruction is built from routines. -/
theorem emitAll_singleton (c : Chunk) (line : UInt32) (i : Instruction) :
    c.emitAll [(line, i)] = c.emit line i := by
  unfold Chunk.emitAll
  rw [List.foldlM_cons]
  cases c.emit line i <;> rfl

/-- The code of an expression is its routine. The proof goes by induction on the expression; the
operands are appended one after the other and then the operation. -/
theorem emit_eq_emitAll (e : Expression) (c : Chunk) : e.emit c = c.emitAll e.routine := by
  induction e generalizing c with
  | constant line v => rw [routine, emitAll_singleton, emit]
  | negate line e ih =>
    rw [routine, Chunk.emitAll_append, emit, ih]
    simp only [emitAll_singleton]
  | binary line op l r ihl ihr =>
    rw [routine, Chunk.emitAll_append, Chunk.emitAll_append, emit, ihl]
    simp only [emitAll_singleton, ihr, bind_assoc]

/-- The chunk of an expression is what its routine and a return append to nothing. It is refused if
these are, that is, if there are too many constants. -/
theorem chunk_eq_emitAll (e : Expression) (line : UInt32) :
    e.chunk line = Chunk.empty.emitAll (e.routine ++ [(line, .ret)]) := by
  rw [Chunk.emitAll_append, chunk, emit_eq_emitAll]
  simp only [emitAll_singleton]

/-- The routine of an expression loads one constant for each of its leaves, and no others. -/
theorem length_constants_routine (e : Expression) : e.routine.constants.length = e.leaves := by
  induction e with
  | constant line v => rfl
  | negate line e ih => simp_all [routine, Routine.constants, Instruction.constants, leaves]
  | binary line op l r ihl ihr =>
    simp_all [routine, Routine.constants, Instruction.constants, leaves]

/-! ## Execution -/

/-- **The code of an expression within other code.** With enough room it pushes the value of the
expression onto whatever values there are, and goes on. With less it overflows.

**Proof sketch.** Induction on the expression, for any values below and any code behind. The right
operand is computed above the value of the left one, which is the one value more that its room
has to exceed. An operator always finds the values of its operands. -/
theorem interpret_routine (a : Arithmetic) (capacity : Nat) (e : Expression)
    (rest : Routine UInt32) (last : UInt32) (values : List Value) :
    (values.length + e.need ≤ capacity →
      Routine.interpret a capacity last values (e.routine ++ rest) =
        rest.interpret a capacity e.line (e.eval a :: values)) ∧
    (capacity < values.length + e.need →
      ∃ line left, Routine.interpret a capacity last values (e.routine ++ rest) =
        ⟨.error (.stackOverflow capacity, line), none, left⟩) := by
  induction e generalizing rest last values with
  | constant line v =>
    simp only [need, routine, List.cons_append, List.nil_append, Routine.interpret,
      Instruction.effect]
    refine ⟨fun h => ?_, fun h => ?_⟩
    · rw [if_pos (by omega)]
      rfl
    · rw [if_neg (by omega)]
      exact ⟨line, values, rfl⟩
  | negate line e ih =>
    simp only [need, routine, List.append_assoc]
    obtain ⟨hroom, hover⟩ := ih ([(line, .negate)] ++ rest) last values
    exact ⟨fun h => (hroom h).trans rfl, hover⟩
  | binary line op l r ihl ihr =>
    simp only [need, routine, List.append_assoc]
    obtain ⟨hroom, hover⟩ := ihl (r.routine ++ ([(line, .binary op)] ++ rest)) last values
    obtain ⟨hroom', hover'⟩ :=
      ihr ([(line, .binary op)] ++ rest) l.line (l.eval a :: values)
    rw [List.length_cons] at hroom' hover'
    refine ⟨fun h => ?_, fun h => ?_⟩
    · rw [hroom (by omega), hroom' (by omega)]
      rfl
    · by_cases hl : values.length + l.need ≤ capacity
      · rw [hroom hl]
        exact hover' (by omega)
      · exact hover (by omega)

end Expression

namespace Machine

/-- **Expressions are computed with exactly the room that they need.** An expression with at most as
many constants as a pool holds has a chunk. A call of it with enough room returns the value of the
expression, prints it on a line, and leaves nothing on the stack; with less room it overflows and
prints nothing.

**Proof sketch.** The chunk is what the routine of the expression and a return append to nothing, so
a call does what they are interpreted to do: `Expression.interpret_routine` with nothing below and
the return behind. -/
theorem evaluate_expression (e : Expression) (hleaves : e.leaves ≤ 256) (line : UInt32) :
    ∃ c, e.chunk line = .ok c ∧
      ∀ {W : Type} [Output W] (m : Machine W), Output.Reliable m.sink →
        (e.need ≤ m.config.capacity →
          (m.evaluate c).1 = .ok (e.eval m.config.arithmetic) ∧
          (m.evaluate c).2.sink =
            Output.print m.sink (some ((e.eval m.config.arithmetic).text ++ "\n")) ∧
          (m.evaluate c).2.stack.values = []) ∧
        (m.config.capacity < e.need →
          (∃ blamed, (m.evaluate c).1 = .error ⟨.stackOverflow m.config.capacity, blamed⟩) ∧
          (m.evaluate c).2.sink = m.sink) := by
  have hpool : (Routine.constants (e.routine ++ [(line, .ret)])).length ≤ 256 := by
    rw [← e.length_constants_routine] at hleaves
    simpa [Routine.constants, Instruction.constants] using hleaves
  obtain ⟨c, hc⟩ := Chunk.exists_emitAll_eq_ok (c := .empty) .empty
    (p := e.routine ++ [(line, .ret)]) (by simpa [Chunk.empty, Chunk.maxConstants] using hpool)
  refine ⟨c, (e.chunk_eq_emitAll line).trans hc, fun m hsink => ?_⟩
  obtain ⟨hresult, hprinted, hvalues⟩ := evaluate_emitted hc m hsink
  obtain ⟨hroom, hover⟩ :=
    Expression.interpret_routine m.config.arithmetic m.config.capacity e [(line, .ret)] 0 []
  refine ⟨fun h => ?_, fun h => ?_⟩
  · rw [hroom (by simpa using h)] at hresult hprinted hvalues
    exact ⟨hresult, hprinted, hvalues⟩
  · obtain ⟨blamed, left, hout⟩ := hover (by simpa using h)
    rw [hout] at hresult hprinted
    exact ⟨⟨blamed, hresult⟩, hprinted⟩

/-- A difference of a difference waits with two values for its last constant: it is computed in a
room of three, and overflows in a room of two. The expression needs three, so both are as the
theorem above says. -/
theorem evaluate_expression_right_nested :
    let ten : Value := ⟨0x4024000000000000⟩
    let four : Value := ⟨0x4010000000000000⟩
    let two : Value := ⟨0x4000000000000000⟩
    let e : Expression := .binary 1 .subtract (.constant 1 ten)
      (.binary 2 .subtract (.constant 2 four) (.constant 3 two))
    let value := Arithmetic.ieee.subtract ten (Arithmetic.ieee.subtract four two)
    e.leaves ≤ 256 ∧ e.need = 3 ∧ ∃ c, e.chunk 4 = .ok c ∧
      Output.Reliable Sink.unlimited ∧
      (evaluate (new ⟨3, false, .ieee⟩ .unlimited) c).1 = .ok value ∧
      (evaluate (new ⟨3, false, .ieee⟩ .unlimited) c).2.sink.content =
        Sink.textBytes (value.text ++ "\n") ∧
      ∃ line, (evaluate (new ⟨2, false, .ieee⟩ .unlimited) c).1 =
        .error ⟨.stackOverflow 2, line⟩ := by
  intro ten four two e value
  have hsink : Output.Reliable Sink.unlimited := Sink.reliable_of_room rfl rfl
  obtain ⟨c, hc, hcall⟩ := evaluate_expression e (by decide) 4
  obtain ⟨hok, hprinted, -⟩ := (hcall (new ⟨3, false, .ieee⟩ .unlimited) hsink).1 (by decide)
  have hover := (hcall (new ⟨2, false, .ieee⟩ .unlimited) hsink).2 (by decide)
  refine ⟨by decide, rfl, c, hc, hsink, hok, ?_, hover.1⟩
  rw [hprinted]
  exact Sink.content_print rfl _

end Machine

end ChunkMachine
