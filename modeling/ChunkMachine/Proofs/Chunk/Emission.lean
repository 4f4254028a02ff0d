import ChunkMachine.Proofs.Chunk.Growth

set_option relaxedAutoImplicit false
set_option autoImplicit false

/-!
# The bytes of routines

What a routine appends to a chunk can be told without the chunk, except for one number: the size of
the pool that its first constant is put behind. Its code is the opcodes of its instructions, each
load followed by the index of its constant; every byte has the line of its instruction; and its
constants are those that it loads, in order.

## Main definitions

* `Routine.bytes`, `Routine.byteLines` — the code of a routine, and the line of every byte of it.
* `Chunk.extend` — a chunk with the code, the lines and the constants of a routine behind its own.

## Main results

* `Chunk.emitAll_eq` — a routine is appended in this form, and exactly if its constants fit.
-/

namespace ChunkMachine

/-- The bytes of an instruction whose constant, if it loads one, has an index. -/
def Instruction.bytes (index : Nat) (i : Instruction) : List UInt8 :=
  match i with
  | load _ => [i.opcode.toByte, UInt8.ofNat index]
  | _ => [i.opcode.toByte]

namespace Routine

variable {Line : Type}

/-- The bytes of a routine whose first constant has an index. The constants behind it have the
indices that follow. -/
def bytes (index : Nat) : Routine Line → List UInt8
  | [] => []
  | (_, i) :: rest => i.bytes index ++ bytes (index + i.constants.length) rest

/-- The line of every byte of a routine: that of its instruction. -/
def byteLines (p : Routine Line) : List Line := p.flatMap fun s => List.replicate s.2.width s.1

/-- The constants of a routine are those of its first instruction and then those of the others. -/
theorem constants_cons (line : Line) (i : Instruction) (p : Routine Line) :
    constants ((line, i) :: p) = i.constants ++ p.constants :=
  List.flatMap_cons

/-- So are the lines of its bytes, with one line for each byte of the instruction. -/
theorem byteLines_cons (line : Line) (i : Instruction) (p : Routine Line) :
    byteLines ((line, i) :: p) = List.replicate i.width line ++ p.byteLines :=
  List.flatMap_cons

/-! ## Other lines

Neither the constants of a routine nor its bytes depend on what its lines are. -/

section Lines

variable {Line' : Type} (f : Line → Line') (p : Routine Line)

/-- Which constants a routine loads does not depend on how its lines are told. -/
theorem constants_map : constants (p.map (Prod.map f id)) = p.constants := by
  induction p with
  | nil => rfl
  | cons s p ih =>
    rw [List.map_cons, Prod.map, constants_cons, ih, ← constants_cons]
    rfl

/-- Neither do its bytes. -/
theorem bytes_map (index : Nat) : bytes index (p.map (Prod.map f id)) = p.bytes index := by
  induction p generalizing index with
  | nil => rfl
  | cons s p ih => exact congrArg (s.2.bytes index ++ ·) (ih (index + s.2.constants.length))

/-- The lines of its bytes are told as those of its instructions are. -/
theorem byteLines_map : byteLines (p.map (Prod.map f id)) = p.byteLines.map f := by
  induction p with
  | nil => rfl
  | cons s p ih =>
    rw [List.map_cons, Prod.map, byteLines_cons, ih, byteLines_cons, List.map_append,
      List.map_replicate]
    rfl

end Lines

end Routine

namespace Chunk

/-- A chunk with the code of a routine behind its code, with the lines of that and with the
constants of the routine behind its constants. This is the closed form of appending the routine. -/
def extend (c : Chunk) (p : Routine UInt32) : Chunk where
  code := c.code ++ (p.bytes c.constants.size).toArray
  lines := c.lines ++ p.byteLines.toArray
  constants := c.constants ++ p.constants.toArray

variable {c : Chunk}

/-- The pool grows by as many constants as the routine loads. -/
theorem size_constants_extend (c : Chunk) (p : Routine UInt32) :
    (c.extend p).constants.size = c.constants.size + p.constants.length := by
  simp [extend]

/-- Nothing is put behind a chunk by a routine without instructions. -/
theorem extend_nil (c : Chunk) : c.extend [] = c := by
  simp [extend, Routine.bytes, Routine.byteLines, Routine.constants]

/-- A routine is put behind a chunk by its first instruction and then by the others. The others find
a pool in which the constant of the first one is. -/
theorem extend_cons (c : Chunk) (line : UInt32) (i : Instruction) (p : Routine UInt32) :
    c.extend ((line, i) :: p) = (c.extend [(line, i)]).extend p := by
  rw [extend, mk.injEq]
  refine ⟨?_, ?_, ?_⟩ <;> apply Array.toList_inj.1 <;>
    simp [extend, Routine.bytes, Routine.byteLines, Routine.constants]

/-- A load is its opcode and the index of its constant, which is the size of the pool before. -/
theorem extend_load (c : Chunk) (line : UInt32) (v : Value) :
    c.extend [(line, .load v)] =
      (Chunk.pushOpcode { c with constants := c.constants.push v } .constant line).push
        (UInt8.ofNat c.constants.size) line :=
  rfl

/-- An instruction is appended exactly if its constant fits into the pool. If it is refused, that is
for the only reason that there is. -/
theorem emit_eq (h : c.constants.size ≤ maxConstants) (line : UInt32) (i : Instruction) :
    c.emit line i =
      if c.constants.size + i.constants.length ≤ maxConstants then .ok (c.extend [(line, i)])
      else .error .full := by
  cases i with
  | load v =>
    rw [extend_load, emit, pushLoad, pushConstant]
    by_cases hroom : c.constants.size < maxConstants
    · have hfits : c.constants.size + (Instruction.load v).constants.length ≤ maxConstants := hroom
      rw [if_pos hroom, if_pos hfits]
      rfl
    · have hfull : ¬ c.constants.size + (Instruction.load v).constants.length ≤ maxConstants :=
        hroom
      rw [if_neg hroom, if_neg hfull]
      rfl
  | binary op => exact (if_pos h).symm
  | negate => exact (if_pos h).symm
  | ret => exact (if_pos h).symm

/-- A routine is appended by appending its first instruction and then the others to what that
gives. -/
theorem emitAll_cons (c : Chunk) (line : UInt32) (i : Instruction) (p : Routine UInt32) :
    c.emitAll ((line, i) :: p) = c.emit line i >>= fun e => e.emitAll p :=
  List.foldlM_cons

/-- **A routine is appended** exactly if its constants fit into the pool.

**Proof sketch.** Induction on the routine: the pool that the first instruction leaves has room for
the other constants exactly if the pool before it has room for all of them. -/
theorem emitAll_eq (h : c.constants.size ≤ maxConstants) (p : Routine UInt32) :
    c.emitAll p =
      if c.constants.size + p.constants.length ≤ maxConstants then .ok (c.extend p)
      else .error .full := by
  induction p generalizing c with
  | nil => rw [extend_nil]; exact (if_pos h).symm
  | cons s p ih =>
    obtain ⟨line, i⟩ := s
    have hlength : (Routine.constants ((line, i) :: p)).length =
        i.constants.length + (Routine.constants p).length := by
      rw [Routine.constants_cons, List.length_append]
    have hsize : (c.extend [(line, i)]).constants.size = c.constants.size + i.constants.length := by
      rw [size_constants_extend, Routine.constants_cons]
      simp [Routine.constants]
    rw [emitAll_cons, emit_eq h, extend_cons c line i p]
    by_cases hroom : c.constants.size + i.constants.length ≤ maxConstants
    · have hfits : (c.extend [(line, i)]).constants.size ≤ maxConstants := by omega
      rw [if_pos hroom]
      refine (ih hfits).trans ?_
      rw [hsize, hlength, Nat.add_assoc]
    · rw [if_neg hroom, if_neg (by omega)]
      rfl

end Chunk

end ChunkMachine
