import ChunkMachine.Assembly

set_option relaxedAutoImplicit false
set_option autoImplicit false

/-!
# Sample programs

Generated source texts and chunks of any size, for measuring.

## Main definitions

* `Samples.source` — lox source text of a given length.
* `Samples.arithmetic` — a small program in assembly text.
* `Samples.chain` — a chunk with a given number of constants that needs two stack slots.
* `Samples.tower` — a chunk with one constant that needs a given number of stack slots.
-/

namespace ChunkMachine.Samples

/-! ## Source text -/

/-- The statement with a given number: a declaration with a comment, and a print statement, each on
its own line. The declaration refers to the variable of the statement before, and that of the
statement number zero to its own. -/
def statement (i : Nat) : String :=
  "var v" ++ (toString i ++ " = " ++ toString i ++ ".5 * (v" ++ toString (i - 1) ++
    " + 3) / 7; // step " ++ toString i ++ "\nprint \"value " ++ toString i ++ "\";\n")

/-- No statement is empty, so that a text that grows by statements grows. -/
theorem utf8ByteSize_statement_pos (i : Nat) : 0 < (statement i).utf8ByteSize := by
  have h : "var v".utf8ByteSize = 5 := by decide
  rw [statement, String.utf8ByteSize_append, h]
  omega

/-- The statements from number `i` on that a text of `written` bytes needs to become as long as
`target`, after the reversed statements in `taken`. -/
def statementsFrom (target i written : Nat) (taken : List String) : List String :=
  if written < target then
    statementsFrom target (i + 1) (written + (statement i).utf8ByteSize) (statement i :: taken)
  else taken.reverse
termination_by target - written
decreasing_by
  have := utf8ByteSize_statement_pos i
  omega

/-- Source text of at least so many kibibytes: statements until it is long enough. The last
statement is not cut, so the text is longer by less than one statement. -/
def source (kibibytes : Nat) : String := String.join (statementsFrom (kibibytes * 1024) 0 0 [])

/-! ## Chunks -/

/-- The program `-((1.2 + 3.4) / 5.6)`. -/
def arithmetic : String :=
  "CONSTANT 1.2\nCONSTANT 3.4\nADD\nCONSTANT 5.6\nDIVIDE\nNEGATE\nRETURN\n"

/-- The number one, the constant of towers and the first one of chains. -/
def one : Value := .ofMagnitude false (Decimal.nearest ⟨1, 0⟩)

/-- A whole number and a half. Such numbers are exact, unless they are very large. -/
def andHalf (n : Nat) : Value := .ofMagnitude false (Decimal.nearest ⟨10 * n + 5, 1⟩)

/-- The operation of a link. The four operations take turns. -/
def linkOp (i : Nat) : BinaryOp :=
  match i % 4 with
  | 0 => .add
  | 1 => .multiply
  | 2 => .subtract
  | _ => .divide

/-- Appends links from number `i` on: a constant, an operation with what is already there, and a
negation, all on one line. -/
def links (c : Chunk) (i : Nat) : Nat → Except PoolFull Chunk
  | 0 => .ok c
  | n + 1 =>
    let line := UInt32.ofNat (i + 1)
    match c.pushLoad (andHalf (i + 1)) line with
    | .error e => .error e
    | .ok (_, c) =>
      links ((c.pushOpcode (.binary (linkOp i)) line).pushOpcode .negate line) (i + 1) n

/-- A chain of `n` constants, at least one, each combined with the value of the chain before it. -/
def chain (n : Nat) : Except PoolFull Chunk :=
  match Chunk.empty.pushLoad one 1 with
  | .error e => .error e
  | .ok (_, c) =>
    match links c 1 (n - 1) with
    | .error e => .error e
    | .ok c => .ok (c.pushOpcode .ret (UInt32.ofNat (max n 1 + 1)))

/-- Appends `n` loads of one constant, on the first line. The constant is in the pool once, however
often it is loaded. -/
def loads (c : Chunk) (index : UInt8) : Nat → Chunk
  | 0 => c
  | n + 1 => loads ((c.pushOpcode .constant 1).push index 1) index n

/-- Appends `n` additions, on the second line. Each of them leaves one value less on the stack. -/
def additions (c : Chunk) : Nat → Chunk
  | 0 => c
  | n + 1 => additions (c.pushOpcode (.binary .add) 2) n

/-- A tower of `n` loads of one constant, brought down by additions: with one addition less than
there are loads a single value is left, which the return takes. Without any load there is none to be
taken. -/
def tower (n : Nat) : Except PoolFull Chunk :=
  match Chunk.empty.pushConstant one with
  | .error e => .error e
  | .ok (index, c) => .ok ((additions (loads c index n) (n - 1)).pushOpcode .ret 3)

end ChunkMachine.Samples
