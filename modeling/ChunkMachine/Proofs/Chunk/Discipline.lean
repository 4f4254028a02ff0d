import ChunkMachine.Proofs.Chunk.Grammar
import ChunkMachine.Proofs.Chunk.Store
import ChunkMachine.Proofs.Machine.Assembled

set_option relaxedAutoImplicit false
set_option autoImplicit false

/-!
# Disciplined building

Bytes can be appended to a chunk one at a time, and then nothing keeps them from being defective. A
chunk that is built by whole instructions only, a load always together with its constant, cannot get
a defect: what is appended is a complete instruction, and it is appended behind others. That is how
the assembler builds.

## Main definitions

* `Chunk.Edit.Disciplined` — the changes that append whole instructions.
* `Chunk.Whole` — what such changes keep.
* `Instruction.edit` — the change that appends an instruction.

## Main results

* `Chunk.Whole.attempt`, `Chunk.Whole.attemptAll` — disciplined changes keep a chunk whole.
* `Chunk.eq_attemptAll_of_emitAll` — a routine is appended by disciplined changes.
* `Chunk.defect?_of_disciplined` — what is built so has no defect.
-/

namespace ChunkMachine

namespace Chunk

/-- A change that leaves no instruction without its operand: it appends no lone byte, and no load
without a constant. -/
def Edit.Disciplined : Edit → Prop
  | push _ _ => False
  | pushOpcode op _ => op ≠ .constant
  | pushConstant _ => True
  | pushLoad _ _ => True
  | clear => True

/-- A well-formed chunk whose code is a concatenation of complete instructions. This is what
disciplined changes preserve. -/
structure Whole (c : Chunk) : Prop where
  /-- There is a line for each byte, and the pool is within its limit. -/
  wellFormed : c.WellFormed
  /-- The code can be cut into instructions that are complete for the pool as it is. -/
  exists_cut : ∃ words, c.Cut words

/-! ## Changes -/

section Changes

variable {c d : Chunk}

/-- The code of the empty chunk is the concatenation of no instructions. -/
theorem Whole.empty : Whole .empty := ⟨.empty, [], rfl, nofun⟩

/-- A whole chunk has no defect. The check finds the cut, as it decides whether there is one. -/
theorem Whole.defect?_eq_none (h : c.Whole) : c.defect? = none :=
  defect?_eq_none_iff.2 ⟨h.wellFormed.size_lines, h.exists_cut⟩

/-- Code with complete instructions behind it, and perhaps a larger pool, is cut as before and
behind each of the new instructions. -/
theorem Cut.append {words more : List (List UInt8)} (h : c.Cut words)
    (hcode : d.code.toList = c.code.toList ++ more.flatten)
    (hpool : c.constants.size ≤ d.constants.size)
    (hmore : ∀ word ∈ more, Complete d.constants.size word) : d.Cut (words ++ more) := by
  refine ⟨?_, fun word hword => ?_⟩
  · rw [hcode, h.code_eq, List.flatten_append]
  · rcases List.mem_append.1 hword with hword | hword
    · exact (h.complete word hword).mono hpool
    · exact hmore word hword

/-- The byte of an opcode other than the constant load is a complete instruction, whatever the pool
is. -/
theorem complete_toByte {op : Opcode} (h : op ≠ .constant) (poolSize : Nat) :
    Complete poolSize [op.toByte] := by
  cases op with
  | constant => contradiction
  | binary op => cases op <;> exact .plain (by decide) (by decide)
  | negate => exact .plain (by decide) (by decide)
  | ret => exact .plain (by decide) (by decide)

/-- A constant that was appended is not loaded by any instruction yet. The code is cut as before,
for a pool that is larger. -/
theorem Cut.pushConstant {words : List (List UInt8)} (h : c.Cut words) {v : Value} {index : UInt8}
    (ha : c.pushConstant v = .ok (index, d)) : d.Cut words := by
  obtain ⟨rfl, -⟩ := pushConstant_eq_ok ha
  have hcut : Cut { c with constants := c.constants.push v } (words ++ []) :=
    h.append (by simp) (by simp) nofun
  rwa [List.append_nil] at hcut

/-- A load that was appended is complete, since its constant was appended before. It is the last
piece of the new cut. -/
theorem Cut.pushLoad {words : List (List UInt8)} (h : c.Cut words) {v : Value} {line : UInt32}
    {index : UInt8} (ha : c.pushLoad v line = .ok (index, d)) : d.Cut (words ++ [[0, index]]) := by
  unfold Chunk.pushLoad at ha
  split at ha
  · rename_i index' c₁ hconstant
    cases ha
    obtain ⟨rfl, hindex⟩ := pushConstant_eq_ok hconstant
    refine h.append ?_ ?_ ?_
    · simp [pushOpcode, push, Opcode.toByte]
    · simp [pushOpcode, push]
    · intro word hword
      rw [List.mem_singleton.1 hword]
      apply Complete.load
      simp [pushOpcode, push, hindex]
  · contradiction

/-- **A disciplined change keeps a chunk whole**, whether a constant is taken or refused. The proof
goes through the changes: a lone byte and a lone opcode of a load, which could leave an operand
missing, are those that discipline excludes. -/
theorem Whole.attempt (h : c.Whole) {e : Edit} (he : e.Disciplined) : (c.attempt e).2.Whole := by
  obtain ⟨hc, words, hcut⟩ := h
  rw [attempt_snd]
  refine ⟨hc.apply e, ?_⟩
  cases e with
  | push byte line => contradiction
  | pushOpcode op line =>
    refine ⟨words ++ [[op.toByte]], hcut.append ?_ (Nat.le_refl _) ?_⟩
    · simp [apply, pushOpcode, push]
    · intro word hword
      rw [List.mem_singleton.1 hword]
      exact complete_toByte he _
  | pushConstant v =>
    cases ha : c.pushConstant v with
    | ok p => exact ⟨words, by simpa [apply, ha, settle] using hcut.pushConstant ha⟩
    | error e => exact ⟨words, by simpa [apply, ha, settle] using hcut⟩
  | pushLoad v line =>
    cases ha : c.pushLoad v line with
    | ok p => exact ⟨_, by simpa [apply, ha, settle] using hcut.pushLoad ha⟩
    | error e => exact ⟨words, by simpa [apply, ha, settle] using hcut⟩
  | clear => exact Whole.empty.exists_cut

/-- So do many of them, by induction on their list. -/
theorem Whole.attemptAll (h : c.Whole) {es : List Edit} (hes : ∀ e ∈ es, e.Disciplined) :
    (c.attemptAll es).Whole := by
  induction es generalizing c with
  | nil => exact h
  | cons e es ih =>
    obtain ⟨he, hes⟩ := List.forall_mem_cons.1 hes
    exact ih (h.attempt he) hes

end Changes

end Chunk

/-! ## Routines -/

/-- The change that appends an instruction. It is disciplined, and there is one for every
instruction. -/
def Instruction.edit (line : UInt32) : Instruction → Chunk.Edit
  | load v => .pushLoad v line
  | binary op => .pushOpcode (.binary op) line
  | negate => .pushOpcode .negate line
  | ret => .pushOpcode .ret line

/-- Appending a whole instruction is disciplined: a load comes with its constant, and the others
have no operand. -/
theorem Instruction.disciplined_edit (line : UInt32) (i : Instruction) :
    (i.edit line).Disciplined := by
  cases i with
  | load v => trivial
  | binary op => exact Opcode.noConfusion
  | negate => exact Opcode.noConfusion
  | ret => exact Opcode.noConfusion

namespace Chunk

/-- An instruction that is appended is appended by its change.

**Proof sketch.** By the instructions. A load is one change, which either takes its constant or is
refused as a whole. -/
theorem attempt_edit_of_emit {c d : Chunk} {line : UInt32} {i : Instruction}
    (h : c.emit line i = .ok d) : (c.attempt (i.edit line)).2 = d := by
  rw [attempt_snd]
  cases i with
  | load v =>
    simp only [emit] at h
    cases ha : c.pushLoad v line with
    | ok p =>
      rw [ha] at h
      cases h
      rw [Instruction.edit, apply, ha]
      rfl
    | error e =>
      rw [ha] at h
      contradiction
  | binary op => exact Except.ok.inj h
  | negate => exact Except.ok.inj h
  | ret => exact Except.ok.inj h

/-- A routine is appended by the changes of its instructions, in their order. So what the assembler
builds is built by disciplined changes. -/
theorem eq_attemptAll_of_emitAll {p : Routine UInt32} {c d : Chunk} (h : c.emitAll p = .ok d) :
    c.attemptAll (p.map fun s => s.2.edit s.1) = d := by
  induction p generalizing c with
  | nil => exact Except.ok.inj h
  | cons s rest ih =>
    obtain ⟨line, i⟩ := s
    obtain ⟨e, he, hrest⟩ := emitAll_cons_eq_ok_iff.1 h
    have hfirst := attempt_edit_of_emit he
    rw [List.map_cons, attemptAll, List.foldl_cons, hfirst]
    exact ih hrest

/-- **What is built with discipline has no defect**: neither a chunk that disciplined changes make
of nothing, whatever they are and however many, nor, in particular, the chunk of an assembly text.

**Proof sketch.** The code stays a concatenation of complete instructions, by `Whole.attemptAll`.
The assembler appends whole instructions only, each by a disciplined change. -/
theorem defect?_of_disciplined :
    (∀ es : List Edit, (∀ e ∈ es, e.Disciplined) → (empty.attemptAll es).defect? = none) ∧
    ∀ (text : String) (c : Chunk), Assembly.assemble text = .ok c → c.defect? = none := by
  have hbuilt (es : List Edit) (hes : ∀ e ∈ es, e.Disciplined) :
      (empty.attemptAll es).defect? = none := (Whole.empty.attemptAll hes).defect?_eq_none
  refine ⟨hbuilt, fun text c h => ?_⟩
  rw [← eq_attemptAll_of_emitAll (Assembly.emitAll_of_assemble h)]
  apply hbuilt
  intro e he
  obtain ⟨s, -, rfl⟩ := List.mem_map.1 he
  exact s.2.disciplined_edit s.1

/-- A load that is refused, a clear, and a load whose operand is the byte of an opcode. None of them
makes a defect, as the theorem above says for all such changes. -/
theorem defect?_of_disciplined_refused_load :
    let fill : List Edit := List.replicate 256 (.pushConstant ⟨0⟩)
    let before := fill ++ [.pushLoad ⟨1⟩ 1, .pushOpcode .ret 2]
    let after : List Edit := [.clear, .pushConstant ⟨2⟩, .pushLoad ⟨3⟩ 3, .pushOpcode .negate 4]
    (∀ e ∈ before ++ after, e.Disciplined) ∧
      (empty.attemptAll before).code = #[6] ∧ (empty.attemptAll before).defect? = none ∧
      (empty.attemptAll (before ++ after)).code = #[0, 1, 5] ∧
      (empty.attemptAll (before ++ after)).defect? = none := by
  intro fill before after
  have hbefore : ∀ e ∈ before, e.Disciplined := by
    intro e he
    rcases List.mem_append.1 he with he | he
    · obtain rfl := List.eq_of_mem_replicate he
      trivial
    · simp only [List.mem_cons, List.not_mem_nil, or_false] at he
      rcases he with rfl | rfl
      · trivial
      · exact Opcode.noConfusion
  have hall : ∀ e ∈ before ++ after, e.Disciplined := by
    intro e he
    rcases List.mem_append.1 he with he | he
    · exact hbefore e he
    · simp only [after, List.mem_cons, List.not_mem_nil, or_false] at he
      rcases he with rfl | rfl | rfl | rfl
      · trivial
      · trivial
      · trivial
      · exact Opcode.noConfusion
  refine ⟨hall, by decide +kernel, defect?_of_disciplined.1 before hbefore, by decide +kernel, ?_⟩
  exact defect?_of_disciplined.1 (before ++ after) hall

end Chunk

end ChunkMachine
