import ChunkMachine.Proofs.Chunk.Offsets
import ChunkMachine.Proofs.Machine.Assembled

set_option relaxedAutoImplicit false
set_option autoImplicit false

/-!
# What can be loaded

An image is loaded if it decodes and its chunk has no defect. Code that holds a routine has none:
the walk of the check passes from one instruction of the routine to the next. So whatever comes out
of the assembler can be loaded, as the chunk that it was.

## Main results

* `Image.load_eq_ok_iff` — which images are loaded.
* `Chunk.defect?_eq_none_of_spells` — a spelled routine has no defect.
* `Image.load_encode_of_assemble` — the image of an assembled chunk is loaded as that chunk.
-/

namespace ChunkMachine

/-- Images are loaded that are those of well-formed chunks without defects, whose code has a length
that fits into four bytes. Loading is decoding and then checking, and decoding is told by
`decode_eq_ok_iff`.

**Proof sketch.** What is decoded is loaded if the check finds no defect in it, and nothing else
is. -/
theorem Image.load_eq_ok_iff {image : List UInt8} {c : Chunk} :
    load image = .ok c ↔
      c.WellFormed ∧ c.code.size < 2 ^ 32 ∧ image = encode c ∧ c.defect? = none := by
  have hload : load image = .ok c ↔ decode image = .ok c ∧ c.defect? = none := by
    unfold load
    cases decode image with
    | error e => simp
    | ok d =>
      cases hd : d.defect? with
      | some defect =>
        have hne : ¬ (d = c ∧ c.defect? = none) := by
          rintro ⟨rfl, hnone⟩
          rw [hd] at hnone
          contradiction
        simpa [hd] using hne
      | none =>
        simp only [hd, Except.ok.injEq]
        constructor
        · rintro rfl
          exact ⟨rfl, hd⟩
        · exact And.left
  rw [hload, decode_eq_ok_iff, and_assoc, and_assoc]

namespace Chunk

variable {c : Chunk}

/-- In code that holds a routine there is a whole instruction at every offset.

**Proof sketch.** Induction on the routine. Behind its first instruction the walk goes on where the
others are spelled. -/
theorem Spells.exists_fetch_ok {start : Nat} {p : Routine UInt32} (h : c.Spells start p)
    {offset : Nat} (hoffset : offset ∈ c.offsetsFrom start) : ∃ i, c.fetch offset = .ok i := by
  induction p generalizing start with
  | nil =>
    have hend : start = c.code.size := h
    rw [offsetsFrom_of_size_le (Nat.le_of_eq hend.symm)] at hoffset
    contradiction
  | cons s rest ih =>
    obtain ⟨line, i⟩ := s
    obtain ⟨hi, -, hrest⟩ := h
    rw [offsetsFrom_of_fetch_ok hi, List.mem_cons] at hoffset
    rcases hoffset with rfl | hoffset
    · exact ⟨i, hi⟩
    · exact ih hrest hoffset

/-- **A spelled routine has no defect.** The walk over its code meets a whole instruction at every
offset, and where there is a whole instruction nothing is wrong. -/
theorem defect?_eq_none_of_spells (hc : c.WellFormed) {p : Routine UInt32} (h : c.Spells 0 p) :
    c.defect? = none := by
  rw [defect?, if_neg (not_not_intro hc.size_lines.symm), List.findSome?_eq_none_iff]
  intro offset hoffset
  obtain ⟨i, hi⟩ := h.exists_fetch_ok hoffset
  exact defectAt?_eq_none_of_fetch_ok hi

end Chunk

/-- **The image of an assembled chunk is loaded as that chunk**, if its code has a length that fits
into four bytes. So what was assembled once need not be assembled again.

**Proof sketch.** The chunk is well formed and holds a routine, so it has no defect, and
`Image.load_eq_ok_iff` applies. -/
theorem Image.load_encode_of_assemble {text : String} {c : Chunk}
    (h : Assembly.assemble text = .ok c) (hsize : c.code.size < 2 ^ 32) :
    load (encode c) = .ok c := by
  obtain ⟨-, hc, hspells⟩ := Chunk.spells_of_emitAll .empty (Assembly.emitAll_of_assemble h)
  exact load_eq_ok_iff.2 ⟨hc, hsize, rfl, Chunk.defect?_eq_none_of_spells hc hspells⟩

end ChunkMachine
