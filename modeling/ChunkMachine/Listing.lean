import ChunkMachine.Chunk.Basic
import ChunkMachine.Text.Column

set_option relaxedAutoImplicit false
set_option autoImplicit false

/-!
# Listings

The readable form of a chunk, one row an instruction:

```
== test chunk ==
0000  123 OP_CONSTANT         0 '1.2'
0002    | OP_RETURN
```

A listing never fails: bytes that are no opcode, operands that are cut off and indices beyond the
pool are shown as such, and the listing goes on after them.

## Main definitions

* `Listing.instructionAt` — the text of one instruction, and the offset after it.
* `Listing.rows` — the rows of a chunk.
* `Listing.render`, `Listing.renderFull` — the listing of a chunk, without and with its pool.

## Main results

* `Listing.lt_next` — within the code a listing always advances.
-/

namespace ChunkMachine.Listing

/-- A constant load, with its index and the value it loads. An index beyond the pool is shown as
well, with a word in the place of the value. -/
def loadText (c : Chunk) (index : UInt8) : String :=
  let value :=
    match c.constants[index.toNat]? with
    | some v => v.text
    | none => "<invalid>"
  let column := Text.number 4 ' ' index.toNat
  s!"{Text.padRight 16 Opcode.constant.mnemonic} {column} '{value}'"

/-- The text of the instruction at an offset, and the offset of the next one. A listing never fails:
a byte that is no opcode takes a row of its own, and a load whose operand is missing ends the
listing. -/
def instructionAt (c : Chunk) (offset : Nat) : String × Nat :=
  match c.code[offset]? with
  | none => ("<end of code>", c.code.size)
  | some byte =>
    match Opcode.ofByte? byte with
    | none => (s!"Unknown opcode: {byte}", offset + 1)
    | some .constant =>
      match c.code[offset + 1]? with
      | none => (Text.padRight 16 Opcode.constant.mnemonic ++ " <truncated>", c.code.size)
      | some index => (loadText c index, offset + Opcode.constant.width)
    | some op => (op.mnemonic, offset + 1)

/-- The offset, and the source line unless the byte before stems from the same one. It is the byte
before that counts, and not the instruction before: behind an operand with a line of its own, the
line is compared with that one. -/
def place (c : Chunk) (offset : Nat) : String :=
  let line :=
    if 0 < offset ∧ c.lineAt? offset = c.lineAt? (offset - 1) then "   |"
    else Text.number 4 ' ' ((c.lineAt? offset).getD 0).toNat
  Text.number 4 '0' offset ++ " " ++ line ++ " "

/-- The row of the instruction at an offset: where it is, and what it is. -/
def rowAt (c : Chunk) (offset : Nat) : String := place c offset ++ (instructionAt c offset).1

/-- The offset of the next instruction. Where the code breaks off that is the end of the code. -/
def next (c : Chunk) (offset : Nat) : Nat := (instructionAt c offset).2

/-- Within the code a listing always advances, which is why it comes to an end. -/
theorem lt_next {c : Chunk} {offset : Nat} (h : offset < c.code.size) : offset < next c offset := by
  unfold next instructionAt
  simp only [Array.getElem?_eq_getElem h]
  split
  · exact Nat.lt_succ_self _
  · split
    · exact h
    · exact Nat.lt_add_of_pos_right (Opcode.width_pos _)
  · exact Nat.lt_succ_self _

/-- A row of a listing: where it is in the code, and its text. -/
structure Row where
  /-- Where the instruction starts. -/
  offset : Nat
  /-- The whole row, without its line feed. -/
  text : String
  deriving DecidableEq, Repr

/-- The rows from an offset on, up to the end of the code. -/
def rowsFrom (c : Chunk) (offset : Nat) : List Row :=
  if offset < c.code.size then ⟨offset, rowAt c offset⟩ :: rowsFrom c (next c offset) else []
termination_by c.code.size - offset
decreasing_by
  have := lt_next ‹offset < c.code.size›
  omega

/-- The rows of a chunk, from its first instruction to its last. -/
def rows (c : Chunk) : List Row := rowsFrom c 0

/-- Lines of text, each with its line feed. -/
def unlines (lines : List String) : String := String.join (lines.map fun line => line ++ "\n")

/-- The listing of a chunk under a name: a heading, and its rows. -/
def render (c : Chunk) (name : String) : String :=
  s!"== {name} ==\n" ++ unlines ((rows c).map Row.text)

/-! ## With the pool -/

/-- A constant of the pool, with its index and its value. -/
def constantText (v : Value) (index : Nat) : String :=
  "const[" ++ Text.number 4 '0' index ++ "] = " ++ v.text

/-- The constants of a chunk, under a heading if there are any. Without constants there is no
heading either. -/
def poolText (c : Chunk) : String :=
  if c.constants.isEmpty then ""
  else
    ";; constants\n" ++
      unlines (c.constants.toList.zipIdx.map fun (v, index) => constantText v index)

/-- The listing of a chunk, preceded by a summary and its constants. The same name stands in the
summary and in the heading. -/
def renderFull (c : Chunk) (title : String) : String :=
  s!";; {title}: {c.code.size} bytes, {c.constants.size} constants\n" ++ poolText c ++
    render c title

end ChunkMachine.Listing
