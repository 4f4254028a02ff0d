import ChunkMachine.Proofs.Chunk.Reachable
import ChunkMachine.Proofs.Machine.Instruction

set_option relaxedAutoImplicit false
set_option autoImplicit false

/-!
# How chunks grow

A chunk grows by whole instructions at its end. What it held before stays where it was, and the new
instruction is found at the old end, with the constant that it loads and with its line on every one
of its bytes. A chunk that has grown from nothing is therefore read back as exactly the
instructions that were appended.

## Main definitions

* `Routine` — a list of instructions, each with the line it stems from.
* `Chunk.IsPrefix` — a chunk that begins with another one.
* `Chunk.AgreesBelow` — a chunk that holds the code of another one below an offset.
* `Chunk.Appends` — a chunk with one more instruction than another one.
* `Chunk.emitAll` — appends a whole routine.
* `Chunk.Spells` — the code of a chunk holds a routine from an offset on.

## Main results

* `Chunk.AgreesBelow.fetch_eq_ok` — an instruction is read from its own bytes and from the pool.
* `Chunk.IsPrefix.fetch_eq_ok` — an instruction stays where it is.
* `Chunk.load_of_getElem?` — a load indexes a constant of the pool.
* `Chunk.appends_of_emit` — what it means to append an instruction.
* `Chunk.spells_of_emitAll` — a routine that was appended is spelled from the old end on.
* `Chunk.exists_emitAll_eq_ok` — a routine is appended if its constants fit into the pool.
-/

namespace ChunkMachine

/-- Instructions in the order in which they are executed, each with the line it stems from. How
lines are told is left open, as numbers or as words. -/
abbrev Routine (Line : Type) := List (Line × Instruction)

/-- The constants that an instruction loads, which is one or none. -/
def Instruction.constants : Instruction → List Value
  | load v => [v]
  | _ => []

/-- The constants that a routine loads, in order. A constant that is loaded twice is listed
twice. -/
def Routine.constants {Line : Type} (p : Routine Line) : List Value :=
  p.flatMap fun s => s.2.constants

namespace Chunk

/-- A chunk begins with another one: so do its code, its lines and its pool. This is what appending
keeps. -/
structure IsPrefix (c d : Chunk) : Prop where
  /-- The code begins with the code. -/
  code : c.code.toList <+: d.code.toList
  /-- The lines begin with the lines. -/
  lines : c.lines.toList <+: d.lines.toList
  /-- The pool begins with the pool. -/
  constants : c.constants.toList <+: d.constants.toList

/-- The chunk `d` holds the same code as the chunk `c` below an offset, and a pool that begins with
the one of `c`. -/
structure AgreesBelow (n : Nat) (c d : Chunk) : Prop where
  /-- The bytes below the offset are the same. -/
  code : ∀ k < n, d.code[k]? = c.code[k]?
  /-- Every constant has the index that it had. -/
  constants : c.constants.toList <+: d.constants.toList

/-- The chunk `d` is the chunk `c` with the instruction `i` of line `line` behind it. -/
structure Appends (c : Chunk) (line : UInt32) (i : Instruction) (d : Chunk) : Prop where
  /-- What there was is kept. -/
  isPrefix : c.IsPrefix d
  /-- The code is longer by the instruction and no more. -/
  size_code : d.code.size = c.code.size + i.width
  /-- Where the code of `c` ends the instruction is found. -/
  fetch_eq : d.fetch c.code.size = .ok i
  /-- All of its bytes have its line. -/
  lineAt?_eq : ∀ k < i.width, d.lineAt? (c.code.size + k) = some line
  /-- If it loads a constant, that is the last one of the pool. -/
  constants_eq : d.constants.toList = c.constants.toList ++ i.constants

/-- Appends the instructions of a routine, one after another, until one is refused. -/
def emitAll (c : Chunk) (p : Routine UInt32) : Except PoolFull Chunk :=
  p.foldlM (fun c s => c.emit s.1 s.2) c

/-- From an offset on the code of a chunk holds a routine and nothing else: each instruction, and
its line on all of its bytes. Which indices the constants have is left open. -/
def Spells (c : Chunk) (offset : Nat) : Routine UInt32 → Prop
  | [] => offset = c.code.size
  | (line, i) :: rest =>
    c.fetch offset = .ok i ∧ (∀ k < i.width, c.lineAt? (offset + k) = some line) ∧
      c.Spells (offset + i.width) rest

/-! ## Beginnings -/

namespace IsPrefix

variable {c d e : Chunk}

/-- A chunk begins with itself. -/
theorem refl (c : Chunk) : c.IsPrefix c :=
  ⟨List.prefix_refl _, List.prefix_refl _, List.prefix_refl _⟩

/-- A chunk that begins with a second one begins with whatever that begins with. So what is kept by
one step of growth is kept by many. -/
theorem trans (h : c.IsPrefix d) (h' : d.IsPrefix e) : c.IsPrefix e :=
  ⟨h.code.trans h'.code, h.lines.trans h'.lines, h.constants.trans h'.constants⟩

/-- Entries of an array are those of any array that begins with it. Everything that is kept when a
chunk grows is kept for this reason. -/
theorem getElem?_mono {α : Type} {xs ys : Array α} (h : xs.toList <+: ys.toList) {k : Nat}
    {x : α} (hx : xs[k]? = some x) : ys[k]? = some x := by
  obtain ⟨hlt, rfl⟩ := Array.getElem?_eq_some_iff.1 hx
  rw [← Array.getElem?_toList, List.prefix_iff_getElem?.1 h k (by simpa using hlt)]
  simp

/-- The line of a code byte stays what it is when the chunk grows. -/
theorem lineAt?_eq_some (h : c.IsPrefix d) {offset : Nat} {line : UInt32}
    (hline : c.lineAt? offset = some line) : d.lineAt? offset = some line :=
  getElem?_mono h.lines hline

/-- A chunk agrees with any chunk that begins with it on all of its code. -/
theorem agreesBelow (h : c.IsPrefix d) : c.AgreesBelow c.code.size d where
  code k hk := by
    have hbyte : c.code[k]? = some c.code[k] := Array.getElem?_eq_getElem hk
    rw [hbyte, getElem?_mono h.code hbyte]
  constants := h.constants

end IsPrefix

/-- **An instruction is read from its own bytes** and from the pool: it is found in every chunk that
agrees on them. What stands behind it may be anything.

**Proof sketch.** The byte at the offset is within the bound, and so is the index of a load. The
constant of that index is in the pool of the first chunk, with which the other pool begins. -/
theorem AgreesBelow.fetch_eq_ok {c d : Chunk} {n offset : Nat} {i : Instruction}
    (h : c.AgreesBelow n d) (hi : c.fetch offset = .ok i) (hn : offset + i.width ≤ n) :
    d.fetch offset = .ok i := by
  have hbyte := (opcode_of_fetch_ok hi).1
  have hpos : 0 < i.width := i.opcode.width_pos
  unfold fetch at hi ⊢
  rw [h.code offset (by omega)]
  simp only [hbyte, Opcode.ofByte?_toByte] at hi ⊢
  cases i with
  | load v =>
    simp only [Instruction.opcode] at hi ⊢
    rw [h.code (offset + 1) hn]
    cases hindex : c.code[offset + 1]? with
    | none => simp [hindex] at hi
    | some index =>
      simp only [hindex] at hi ⊢
      cases hv : c.constants[index.toNat]? with
      | none => simp [hv] at hi
      | some w =>
        rw [IsPrefix.getElem?_mono h.constants hv]
        simpa [hv] using hi
  | binary op => exact hi
  | negate => exact hi
  | ret => exact hi

/-- An instruction stays where it is when the chunk grows. -/
theorem IsPrefix.fetch_eq_ok {c d : Chunk} (h : c.IsPrefix d) {offset : Nat} {i : Instruction}
    (hi : c.fetch offset = .ok i) : d.fetch offset = .ok i :=
  h.agreesBelow.fetch_eq_ok hi (opcode_of_fetch_ok hi).2

/-! ## One instruction -/

section Append

variable {c d : Chunk} {line : UInt32} {i : Instruction}

/-- A byte is pushed behind everything that there is. -/
theorem isPrefix_push (c : Chunk) (byte : UInt8) (line : UInt32) : c.IsPrefix (c.push byte line) :=
  ⟨by simp [push], by simp [push], List.prefix_refl _⟩

/-- A byte is found where the code ended before it was pushed. -/
theorem getElem?_code_push (c : Chunk) (byte : UInt8) (line : UInt32) :
    (c.push byte line).code[c.code.size]? = some byte :=
  Array.getElem?_push_size

/-- The line of a byte is the one it was pushed with. It is found at the same offset, as there are
as many lines as bytes. -/
theorem lineAt?_push (h : c.WellFormed) (byte : UInt8) (line : UInt32) :
    (c.push byte line).lineAt? c.code.size = some line := by
  rw [← h.size_lines]
  exact Array.getElem?_push_size

/-- An instruction without a constant is its opcode: pushing that appends the instruction. -/
theorem appends_pushOpcode (h : c.WellFormed) (line : UInt32) (hi : i.constants = []) :
    c.Appends line i (c.pushOpcode i.opcode line) := by
  have hwidth : i.width = 1 := by cases i <;> first | contradiction | rfl
  refine ⟨c.isPrefix_push i.opcode.toByte line, ?_, ?_, fun k hk => ?_, ?_⟩
  · rw [hwidth]
    exact Array.size_push i.opcode.toByte
  · rw [fetch, pushOpcode, getElem?_code_push]
    cases i with
    | load v => contradiction
    | binary op => simp [Instruction.opcode]
    | negate => simp [Instruction.opcode]
    | ret => simp [Instruction.opcode]
  · obtain rfl : k = 0 := by omega
    exact lineAt?_push h i.opcode.toByte line
  · rw [hi, List.append_nil]
    rfl

/-- A constant becomes the last one of the pool, and its index fits into a byte. The index as a
number is the size of the pool before. -/
theorem pushConstant_eq_ok {v : Value} {index : UInt8}
    (ha : c.pushConstant v = .ok (index, d)) :
    d = { c with constants := c.constants.push v } ∧ index.toNat = c.constants.size := by
  unfold pushConstant at ha
  split at ha
  · rename_i hpool
    cases ha
    exact ⟨rfl, UInt8.toNat_ofNat_of_lt' hpool⟩
  · contradiction

/-- **The opcode of a load and an index of the pool** are a load of the constant at that index.

**Proof sketch.** Two bytes are pushed, and the second push keeps the first byte and its line. -/
theorem load_of_getElem? (h : c.WellFormed) (line : UInt32) {index : UInt8} {v : Value}
    (hv : c.constants[index.toNat]? = some v) :
    let d := (c.pushOpcode .constant line).push index line
    c.IsPrefix d ∧ d.code.size = c.code.size + (Instruction.load v).width ∧
      d.fetch c.code.size = .ok (.load v) ∧
      ∀ k < (Instruction.load v).width, d.lineAt? (c.code.size + k) = some line := by
  have hopcode := c.isPrefix_push Opcode.constant.toByte line
  have hoperand := (c.pushOpcode .constant line).isPrefix_push index line
  have hsize : (c.pushOpcode .constant line).code.size = c.code.size + 1 :=
    Array.size_push Opcode.constant.toByte
  refine ⟨hopcode.trans hoperand, ?_, ?_, fun k hk => ?_⟩
  · rw [push, Array.size_push, hsize]
    rfl
  · have hbyte := IsPrefix.getElem?_mono hoperand.code (c.getElem?_code_push _ line)
    have hnext := (c.pushOpcode .constant line).getElem?_code_push index line
    rw [hsize] at hnext
    rw [fetch, hbyte]
    simp only [Opcode.ofByte?_toByte, hnext]
    rw [push, pushOpcode, push, hv]
  · have hk : k = 0 ∨ k = 1 := by
      have hwidth : (Instruction.load v).width = 2 := rfl
      omega
    rcases hk with rfl | rfl
    · exact hoperand.lineAt?_eq_some (lineAt?_push h _ line)
    · exact hsize ▸ lineAt?_push (h.push _ line) index line

/-- A load is its opcode and the index of its constant, which is the last one of the pool. The
constant and the two bytes together append the instruction.

**Proof sketch.** The constant is taken, which changes neither code nor lines. Then two bytes are
appended that are the load of it, by `load_of_getElem?`. -/
theorem appends_of_pushLoad (h : c.WellFormed) {v : Value} {index : UInt8}
    (ha : c.pushLoad v line = .ok (index, d)) : c.Appends line (.load v) d := by
  unfold pushLoad at ha
  split at ha
  · rename_i index' c₁ hconstant
    cases ha
    obtain ⟨hc₁, hindex⟩ := pushConstant_eq_ok hconstant
    have hbegins : c.IsPrefix c₁ := by
      rw [hc₁]
      exact ⟨List.prefix_refl _, List.prefix_refl _, by simp⟩
    have hstart : c₁.code.size = c.code.size := by rw [hc₁]
    have hvalue : c₁.constants[index.toNat]? = some v := by
      rw [hc₁, hindex]
      exact Array.getElem?_push_size
    obtain ⟨hbegins', hsize, hfetch, hline⟩ :=
      load_of_getElem? (h.pushConstant hconstant) line hvalue
    rw [hstart] at hsize hfetch hline
    exact ⟨hbegins.trans hbegins', hsize, hfetch, hline,
      by simp [push, pushOpcode, hc₁, Instruction.constants]⟩
  · contradiction

/-- **What it means to append an instruction**: the chunk begins as before, and behind that comes
the instruction, on its line, and the constant that it loads. Later proofs use this, and do not ask
how an instruction is encoded. -/
theorem appends_of_emit (h : c.WellFormed) (he : c.emit line i = .ok d) : c.Appends line i d := by
  cases i with
  | load v =>
    simp only [emit] at he
    cases ha : c.pushLoad v line with
    | ok p =>
      rw [ha] at he
      cases he
      exact appends_of_pushLoad h ha
    | error e =>
      rw [ha] at he
      contradiction
  | binary op => cases he; exact appends_pushOpcode h line rfl
  | negate => cases he; exact appends_pushOpcode h line rfl
  | ret => cases he; exact appends_pushOpcode h line rfl

/-- An instruction is appended if its constant fits into the pool. One without a constant always
fits. -/
theorem exists_emit_eq_ok (h : c.constants.size + i.constants.length ≤ maxConstants) :
    ∃ d, c.emit line i = .ok d := by
  cases i with
  | load v =>
    have hpool : c.constants.size < maxConstants := h
    exact ⟨_, by simp only [emit, pushLoad, pushConstant, if_pos hpool]; rfl⟩
  | binary op => exact ⟨_, rfl⟩
  | negate => exact ⟨_, rfl⟩
  | ret => exact ⟨_, rfl⟩

end Append

/-! ## Whole routines -/

section Routines

variable {c d : Chunk}

/-- A routine is appended by appending its first instruction and then the others. -/
theorem emitAll_cons_eq_ok_iff {line : UInt32} {i : Instruction} {p : Routine UInt32} :
    c.emitAll ((line, i) :: p) = .ok d ↔ ∃ e, c.emit line i = .ok e ∧ e.emitAll p = .ok d := by
  unfold emitAll
  rw [List.foldlM_cons]
  cases c.emit line i with
  | ok e => exact ⟨fun h => ⟨e, rfl, h⟩, fun ⟨_, rfl, h⟩ => h⟩
  | error e => exact ⟨fun h => (nomatch h), fun ⟨_, he, _⟩ => (nomatch he)⟩

/-- Routines are appended one after another, to what the first one gives. -/
theorem emitAll_append (c : Chunk) (p q : Routine UInt32) :
    c.emitAll (p ++ q) = c.emitAll p >>= fun d => d.emitAll q :=
  List.foldlM_append

/-- **A routine that was appended** is spelled from the old end of the code on.

**Proof sketch.** Induction on the routine. Its first instruction stands at the old end, and stays
there while the others are appended behind it. -/
theorem spells_of_emitAll {p : Routine UInt32} (h : c.WellFormed) (ha : c.emitAll p = .ok d) :
    c.IsPrefix d ∧ d.WellFormed ∧ d.Spells c.code.size p := by
  induction p generalizing c with
  | nil =>
    cases ha
    exact ⟨.refl _, h, rfl⟩
  | cons s rest ih =>
    obtain ⟨line, i⟩ := s
    obtain ⟨e, he, hrest⟩ := emitAll_cons_eq_ok_iff.1 ha
    have happ := appends_of_emit h he
    obtain ⟨hbegins, hd, hspells⟩ := ih (h.emit he) hrest
    refine ⟨happ.isPrefix.trans hbegins, hd, hbegins.fetch_eq_ok happ.fetch_eq, fun k hk => ?_, ?_⟩
    · exact hbegins.lineAt?_eq_some (happ.lineAt?_eq k hk)
    · exact happ.size_code ▸ hspells

/-- A routine is appended if its constants fit into the pool all together. -/
theorem exists_emitAll_eq_ok {p : Routine UInt32} (h : c.WellFormed)
    (hpool : c.constants.size + p.constants.length ≤ maxConstants) :
    ∃ d, c.emitAll p = .ok d := by
  induction p generalizing c with
  | nil => exact ⟨c, rfl⟩
  | cons s rest ih =>
    obtain ⟨line, i⟩ := s
    have hlength : (Routine.constants ((line, i) :: rest)).length =
        i.constants.length + (Routine.constants rest).length := by
      simp [Routine.constants]
    have hroom : c.constants.size + i.constants.length ≤ maxConstants := by omega
    obtain ⟨e, he⟩ : ∃ e, c.emit line i = .ok e := exists_emit_eq_ok hroom
    have hsize := congrArg List.length (appends_of_emit h he).constants_eq
    simp only [List.length_append, Array.length_toList] at hsize
    obtain ⟨d, hd⟩ := ih (h.emit he) (by omega)
    exact ⟨d, emitAll_cons_eq_ok_iff.2 ⟨e, he, hd⟩⟩

end Routines

end Chunk

end ChunkMachine
