set_option relaxedAutoImplicit false
set_option autoImplicit false

/-!
# Opcodes

The instruction set. An instruction is one opcode byte, followed for the constant load by one
operand byte that indexes the constant pool.

## Main definitions

* `BinaryOp` — the four operations on two operands.
* `Opcode` — the seven opcodes, with `Opcode.toByte`, `Opcode.ofByte?` and `Opcode.width`.
* `Opcode.mnemonic`, `Opcode.ofMnemonic?` — their names.

## Main results

* `Opcode.ofByte?_eq_some_iff` — a byte is read as an opcode exactly if that opcode is written so.
* `Opcode.toByte_injective` — no two opcodes share a byte.
-/

namespace ChunkMachine

/-- The operations that take two operands. They differ in what they compute, and nowhere else: each
takes two values from the stack and leaves one. -/
inductive BinaryOp where
  | add
  | subtract
  | multiply
  | divide
  deriving DecidableEq, Repr

/-- The instruction set. -/
inductive Opcode where
  /-- Push the constant that the operand byte indexes. -/
  | constant
  /-- Replace the two topmost values by the result of an operation on them. -/
  | binary (op : BinaryOp)
  /-- Replace the topmost value by its negation. -/
  | negate
  /-- Take the topmost value, write it and stop. -/
  | ret
  deriving DecidableEq, Repr

namespace Opcode

/-- Every opcode, in the order of their bytes. A word is looked up in this list, and two opcodes
never have the same name, so the order does not show. -/
def all : List Opcode :=
  [.constant, .binary .add, .binary .subtract, .binary .multiply, .binary .divide, .negate, .ret]

/-- The byte that encodes an opcode. -/
def toByte : Opcode → UInt8
  | constant => 0
  | binary .add => 1
  | binary .subtract => 2
  | binary .multiply => 3
  | binary .divide => 4
  | negate => 5
  | ret => 6

/-- The opcode that a byte encodes, if any. Bytes from seven on encode none. -/
def ofByte? (byte : UInt8) : Option Opcode :=
  match byte.toNat with
  | 0 => some constant
  | 1 => some (binary .add)
  | 2 => some (binary .subtract)
  | 3 => some (binary .multiply)
  | 4 => some (binary .divide)
  | 5 => some negate
  | 6 => some ret
  | _ => none

/-- The number of operand bytes that follow the opcode byte. Only a constant load has one, the index
into the pool. -/
def operandLength : Opcode → Nat
  | constant => 1
  | _ => 0

/-- The number of bytes of a whole instruction: the opcode byte, and the operand if there is one. -/
def width (op : Opcode) : Nat := 1 + op.operandLength

/-! ## Names -/

/-- The name of an opcode without the marker that starts every mnemonic. Assembly text may be
written in such names. -/
def bareName : Opcode → String
  | constant => "CONSTANT"
  | binary .add => "ADD"
  | binary .subtract => "SUBTRACT"
  | binary .multiply => "MULTIPLY"
  | binary .divide => "DIVIDE"
  | negate => "NEGATE"
  | ret => "RETURN"

/-- The mnemonic of an opcode, as listings and errors show it. -/
def mnemonic (op : Opcode) : String := "OP_" ++ op.bareName

/-- A word without the marker that starts every mnemonic. A word that does not begin with it stays
what it is, and it is taken off once only. -/
def stripMarker : List Char → List Char
  | 'O' :: 'P' :: '_' :: rest => rest
  | word => word

/-- The opcode that a word names: in any case, and with or without the marker. The marker is looked
for in capitals, after the whole word was put in capitals. -/
def ofMnemonic? (word : List Char) : Option Opcode :=
  let bare := stripMarker (word.map Char.toUpper)
  all.find? fun op => op.bareName.toList = bare

/-! ## Small laws -/

/-- An opcode is read back from its byte. -/
@[simp] theorem ofByte?_toByte (op : Opcode) : ofByte? op.toByte = some op := by
  rcases op with _ | ⟨_ | _ | _ | _⟩ | _ | _ <;> rfl

/-- Different opcodes have different bytes. -/
theorem toByte_injective {a b : Opcode} (h : a.toByte = b.toByte) : a = b :=
  Option.some.inj (by rw [← ofByte?_toByte a, h, ofByte?_toByte])

/-- A byte is read as an opcode exactly if that opcode is written as this byte. With this a fact
about a byte of the code becomes one about an opcode, and the other way around. -/
theorem ofByte?_eq_some_iff {byte : UInt8} {op : Opcode} :
    ofByte? byte = some op ↔ byte = op.toByte := by
  refine ⟨fun h => ?_, fun h => h ▸ ofByte?_toByte op⟩
  unfold ofByte? at h
  apply UInt8.toNat_inj.1
  split at h <;> first | contradiction | (cases h; assumption)

/-- Every opcode is listed. -/
theorem mem_all (op : Opcode) : op ∈ all := by
  rcases op with _ | ⟨_ | _ | _ | _⟩ | _ | _ <;> decide

/-- An instruction is never empty, so that reading code always advances. -/
theorem width_pos (op : Opcode) : 0 < op.width := by unfold width; omega

end Opcode

end ChunkMachine
