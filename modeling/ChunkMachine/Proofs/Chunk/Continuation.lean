import ChunkMachine.Proofs.Chunk.Growth

set_option relaxedAutoImplicit false
set_option autoImplicit false

/-!
# Code behind code

A chunk can be continued in other ways than by loading a new constant with every load: a load may
index a constant that the pool already has. What it is continued with can still be told as a
routine, and continuations follow one another like the routines do.

## Main definitions

* `Chunk.Continues` — a chunk with the code of a routine behind another chunk.

## Main results

* `Chunk.Continues.trans` — a continuation of a continuation.
* `Chunk.continues_reload` — a load of a constant that the pool already has.
-/

namespace ChunkMachine.Chunk

/-- The chunk `d` begins with the chunk `c`, and behind that its code holds a routine. -/
structure Continues (c : Chunk) (p : Routine UInt32) (d : Chunk) : Prop where
  /-- What there was is kept. -/
  isPrefix : c.IsPrefix d
  /-- Code, lines and pool still fit together, so that more can be put behind it. -/
  wellFormed : d.WellFormed
  /-- Where the code of `c` ends the routine begins, and it ends with the code of `d`. -/
  spells : d.Spells c.code.size p

variable {c d e : Chunk} {p q : Routine UInt32} {line : UInt32}

/-- Routines that stand one behind the other are spelled as one. The first one is not disturbed by
what is behind it, as the chunk only grows. -/
theorem Spells.append {offset : Nat} (h : d.Spells offset p) (hde : d.IsPrefix e)
    (hq : e.Spells d.code.size q) : e.Spells offset (p ++ q) := by
  induction p generalizing offset with
  | nil =>
    have hend : offset = d.code.size := h
    rw [hend]
    exact hq
  | cons s rest ih =>
    obtain ⟨hi, hline, hrest⟩ := h
    exact ⟨hde.fetch_eq_ok hi, fun k hk => hde.lineAt?_eq_some (hline k hk), ih hrest⟩

namespace Continues

/-- Nothing is a continuation. A chunk is continued by it to itself. -/
theorem refl (h : c.WellFormed) : c.Continues [] c := ⟨.refl c, h, rfl⟩

/-- Continuations follow one another. With this a long program is put together from its parts. -/
theorem trans (h : c.Continues p d) (h' : d.Continues q e) : c.Continues (p ++ q) e :=
  ⟨h.isPrefix.trans h'.isPrefix, h'.wellFormed, h.spells.append h'.isPrefix h'.spells⟩

end Continues

/-- An instruction without a constant is a continuation by that instruction alone. -/
theorem continues_pushOpcode (h : c.WellFormed) {i : Instruction} (hi : i.constants = []) :
    c.Continues [(line, i)] (c.pushOpcode i.opcode line) := by
  have happ := appends_pushOpcode h line hi
  exact ⟨happ.isPrefix, h.push i.opcode.toByte line, happ.fetch_eq, happ.lineAt?_eq,
    happ.size_code.symm⟩

/-- **A load of a constant that the pool already has** is a continuation. The pool does not grow,
unlike with a load that brings its constant. -/
theorem continues_reload (h : c.WellFormed) {index : UInt8} {v : Value}
    (hv : c.constants[index.toNat]? = some v) :
    c.Continues [(line, .load v)] ((c.pushOpcode .constant line).push index line) := by
  obtain ⟨hbegins, hsize, hfetch, hline⟩ := load_of_getElem? h line hv
  exact ⟨hbegins, (h.push Opcode.constant.toByte line).push index line, hfetch, hline, hsize.symm⟩

end ChunkMachine.Chunk
