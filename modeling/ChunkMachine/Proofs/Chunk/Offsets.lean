import ChunkMachine.Chunk.Defect
import ChunkMachine.Listing
import ChunkMachine.Proofs.Machine.Instruction

set_option relaxedAutoImplicit false
set_option autoImplicit false

/-!
# Where instructions start

The code of a chunk is cut into instructions from its start on. The cut is the same for everything
that walks over code: the helper that lists the offsets, the listing, and a machine that fetches.

## Main results

* `Chunk.pairwise_offsets`, `Chunk.lt_size_of_mem_offsets` — the offsets increase within the code.
* `Chunk.offsetsFrom_of_fetch_ok` — from an instruction the walk goes on behind it.
* `Listing.rows_eq` — the rows of a listing are those of the instructions at the offsets.
* `Chunk.exists_fetch_ok`, `Chunk.defectAt?_eq_none_of_fetch_ok` — where there is no defect there is
  an instruction.
-/

namespace ChunkMachine

namespace Chunk

variable {c : Chunk} {start : Nat}

/-- From an offset within the code the walk goes on behind the instruction there. This and the next
law are the two equations of the walk. -/
theorem offsetsFrom_of_lt (h : start < c.code.size) :
    c.offsetsFrom start = start :: c.offsetsFrom (start + widthOf c.code[start]) := by
  rw [offsetsFrom, dif_pos h]

/-- Behind the code the walk is over. -/
theorem offsetsFrom_of_size_le (h : c.code.size ≤ start) : c.offsetsFrom start = [] := by
  rw [offsetsFrom, dif_neg (Nat.not_lt_of_le h)]

/-- The walk stays within the code, and never goes back behind where it started. -/
theorem mem_offsetsFrom {offset : Nat} (h : offset ∈ c.offsetsFrom start) :
    start ≤ offset ∧ offset < c.code.size := by
  induction start using offsetsFrom.induct c with
  | case1 start hstart ih =>
    rw [offsetsFrom_of_lt hstart, List.mem_cons] at h
    rcases h with rfl | h
    · exact ⟨Nat.le_refl _, hstart⟩
    · obtain ⟨hle, hlt⟩ := ih h
      exact ⟨by omega, hlt⟩
  | case2 start hstart =>
    rw [offsetsFrom_of_size_le (Nat.le_of_not_lt hstart)] at h
    simp at h

/-- The walk goes forward, as no instruction is empty. -/
theorem pairwise_offsetsFrom (c : Chunk) (start : Nat) :
    (c.offsetsFrom start).Pairwise (· < ·) := by
  induction start using offsetsFrom.induct c with
  | case1 start hstart ih =>
    rw [offsetsFrom_of_lt hstart, List.pairwise_cons]
    refine ⟨fun offset h => ?_, ih⟩
    have := (mem_offsetsFrom h).1
    have := widthOf_pos c.code[start]
    omega
  | case2 start hstart =>
    rw [offsetsFrom_of_size_le (Nat.le_of_not_lt hstart)]
    exact .nil

/-- The first instruction starts with the code, if there is any code. -/
theorem head?_offsets (c : Chunk) :
    c.offsets.head? = if 0 < c.code.size then some 0 else none := by
  by_cases h : 0 < c.code.size
  · rw [if_pos h, offsets, offsetsFrom_of_lt h]
    rfl
  · rw [if_neg h, offsets, offsetsFrom_of_size_le (Nat.le_of_not_lt h)]
    rfl

/-- Instructions start within the code, though the last one may not end there. -/
theorem lt_size_of_mem_offsets {offset : Nat} (h : offset ∈ c.offsets) : offset < c.code.size :=
  (mem_offsetsFrom h).2

/-- Instructions start one behind the other, so an offset is listed once. -/
theorem pairwise_offsets (c : Chunk) : c.offsets.Pairwise (· < ·) := c.pairwise_offsetsFrom 0

/-- The byte of an opcode stands for as many bytes as an instruction of the opcode has. So the walk
over the bytes and the instructions go on by the same steps. -/
theorem widthOf_toByte (op : Opcode) : widthOf op.toByte = op.width := by
  rw [widthOf, Opcode.ofByte?_toByte]
  rfl

/-- From an instruction the walk goes on behind it, operand included. -/
theorem offsetsFrom_of_fetch_ok {i : Instruction} (h : c.fetch start = .ok i) :
    c.offsetsFrom start = start :: c.offsetsFrom (start + i.width) := by
  obtain ⟨hlt, hbyte⟩ := Array.getElem?_eq_some_iff.1 (opcode_of_fetch_ok h).1
  rw [offsetsFrom_of_lt hlt, hbyte, widthOf_toByte, Instruction.width]

/-! ## Defects -/

/-- Where code has no defect there is a whole instruction, with its operand and with its constant in
the pool.

**Proof sketch.** By the byte at the offset. Of a load the check tells that its index is within the
code and that its constant is in the pool. -/
theorem exists_fetch_ok {offset : Nat} (hlt : offset < c.code.size)
    (h : c.defectAt? offset = none) : ∃ i, c.fetch offset = .ok i := by
  unfold defectAt? at h
  unfold fetch
  simp only [Array.getElem?_eq_getElem hlt] at h ⊢
  cases hop : Opcode.ofByte? c.code[offset] with
  | none => simp [hop] at h
  | some op =>
    cases op with
    | constant =>
      have hwidth : ¬ c.code.size < offset + 2 := by
        intro hshort
        simp [hop, Opcode.width, Opcode.operandLength, hshort] at h
      have hindex : offset + 1 < c.code.size := by omega
      have hpool : c.code[offset + 1].toNat < c.constants.size := by
        by_cases hpool : c.code[offset + 1].toNat < c.constants.size
        · exact hpool
        · simp [hop, Opcode.width, Opcode.operandLength, hwidth, hindex, hpool] at h
      simp only [Array.getElem?_eq_getElem hindex, Array.getElem?_eq_getElem hpool]
      exact ⟨_, rfl⟩
    | binary op => exact ⟨_, rfl⟩
    | negate => exact ⟨_, rfl⟩
    | ret => exact ⟨_, rfl⟩

/-- Where there is a whole instruction code has no defect.

**Proof sketch.** An instruction that is fetched is within the code, by `opcode_of_fetch_ok`, and
the constant of a load was found in the pool. -/
theorem defectAt?_eq_none_of_fetch_ok {offset : Nat} {i : Instruction}
    (h : c.fetch offset = .ok i) : c.defectAt? offset = none := by
  obtain ⟨hbyte, hwidth⟩ := opcode_of_fetch_ok h
  have hcut : ¬ c.code.size < offset + i.opcode.width := Nat.not_lt_of_le hwidth
  unfold defectAt?
  unfold fetch at h
  rw [hbyte] at h ⊢
  simp only [Opcode.ofByte?_toByte, if_neg hcut] at h ⊢
  cases i with
  | load v =>
    simp only [Instruction.opcode] at h ⊢
    cases hindex : c.code[offset + 1]? with
    | none => simp
    | some index =>
      cases hv : c.constants[index.toNat]? with
      | none => simp [hindex, hv] at h
      | some w => simp [(Array.getElem?_eq_some_iff.1 hv).1]
  | binary op => simp [Instruction.opcode]
  | negate => simp [Instruction.opcode]
  | ret => simp [Instruction.opcode]

/-- In a chunk without defects there is a whole instruction at every offset. A machine that walks
the offsets finds nothing else. -/
theorem exists_fetch_ok_of_mem_offsets (h : c.defect? = none) {offset : Nat}
    (hoffset : offset ∈ c.offsets) : ∃ i, c.fetch offset = .ok i := by
  unfold defect? at h
  split at h
  · contradiction
  · exact exists_fetch_ok (lt_size_of_mem_offsets hoffset)
      (List.findSome?_eq_none_iff.1 h offset hoffset)

end Chunk

namespace Listing

variable {c : Chunk}

/-- A listing goes on where the walk over the code does: only behind an operand that is cut off do
they stop at different offsets, both of them behind the code.

**Proof sketch.** By the byte at the offset. The two walks differ only behind a load without
operand, where both are over. -/
theorem offsetsFrom_next {offset : Nat} (h : offset < c.code.size) :
    c.offsetsFrom (next c offset) = c.offsetsFrom (offset + Chunk.widthOf c.code[offset]) := by
  unfold next instructionAt Chunk.widthOf
  simp only [Array.getElem?_eq_getElem h]
  cases hop : Opcode.ofByte? c.code[offset] with
  | none => rfl
  | some op =>
    cases op with
    | constant =>
      simp only
      cases hindex : c.code[offset + 1]? with
      | none =>
        have hsize := Array.getElem?_eq_none_iff.1 hindex
        rw [Chunk.offsetsFrom_of_size_le (Nat.le_refl _)]
        exact (Chunk.offsetsFrom_of_size_le (Nat.le_succ_of_le hsize)).symm
      | some index => rfl
    | binary op => rfl
    | negate => rfl
    | ret => rfl

/-- The rows of a listing from an offset on are those of the instructions from there on. The listing
goes its own way over the code, and this says that it is the same way. -/
theorem rowsFrom_eq (c : Chunk) (start : Nat) :
    rowsFrom c start = (c.offsetsFrom start).map fun offset => ⟨offset, rowAt c offset⟩ := by
  induction start using rowsFrom.induct c with
  | case1 start hstart ih =>
    rw [rowsFrom, if_pos hstart, ih, offsetsFrom_next hstart, Chunk.offsetsFrom_of_lt hstart]
    rfl
  | case2 start hstart =>
    rw [rowsFrom, if_neg hstart, Chunk.offsetsFrom_of_size_le (Nat.le_of_not_lt hstart)]
    rfl

/-- The rows of a listing are those of the instructions at the offsets of the chunk, one row
each. -/
theorem rows_eq (c : Chunk) : rows c = c.offsets.map fun offset => ⟨offset, rowAt c offset⟩ :=
  rowsFrom_eq c 0

end Listing

end ChunkMachine
