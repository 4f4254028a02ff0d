import ChunkMachine.Proofs.Chunk.Offsets
import ChunkMachine.Proofs.Listing.Rows
import ChunkMachine.Proofs.Machine.Assembled

set_option relaxedAutoImplicit false
set_option autoImplicit false

/-!
# Listings tell the code

The listing of a chunk, sound or not, tells its code byte by byte: where an instruction is shown is
known from the instructions before it, and no two instructions are shown alike. It tells a constant
as far as the text of a value does. Of the lines it shows those of the first bytes of instructions
only, and leaves out the ones that are the same as on the byte before; so it tells the line table of
chunks whose operands stand on the lines of their opcodes, as those of assembled chunks do.

## Main definitions

* `Chunk.OperandsInLine` — operands stand on the lines of their opcodes.

## Main results

* `Listing.toList_render` — a listing is its heading and the rows of its entries.
* `Listing.entries_of_rows` — the rows tell the entries, and where these are.
* `Listing.code_eq_flatMap` — the entries tell the code.
* `Chunk.OperandsInLine.of_assemble` — assembled chunks have operands on the lines of their opcodes.
* `Listing.render_faithful` — what two chunks with one listing have in common.
-/

namespace ChunkMachine

/-- Every byte of the code has a line, and the operand of a constant load has the line of its
opcode. A listing shows the line of an operand only if the next instruction is compared with it, so
without this the line of an operand could not be told. -/
structure Chunk.OperandsInLine (c : Chunk) : Prop where
  /-- There is a line for each byte. -/
  size_lines : c.lines.size = c.code.size
  /-- An operand does not change the line. -/
  operand_line : ∀ offset ∈ c.offsets, c.code[offset]? = some Opcode.constant.toByte →
    offset + 1 < c.code.size → c.lineAt? (offset + 1) = c.lineAt? offset

namespace Listing

variable {c d : Chunk}

/-! ## From the text to the entries -/

/-- The rows of the entries at some offsets, as one text. -/
def entryRows (c : Chunk) (offsets : List Nat) : List Char :=
  offsets.flatMap fun offset => (entryAt c offset).row offset

/-- **A listing is its heading and the rows of its entries**, character by character. What is proved
below is proved of the rows, as the heading depends on the name alone. -/
theorem toList_render (c : Chunk) (name : String) :
    (render c name).toList = ("== " ++ name ++ " ==\n").toList ++ entryRows c c.offsets := by
  have hheading : render c name = "== " ++ name ++ " ==\n" ++ unlines ((rows c).map Row.text) := rfl
  have hrows : entryRows c c.offsets =
      c.offsets.flatMap fun offset => (rowAt c offset).toList ++ ['\n'] := by
    simp only [entryRows, toList_rowAt]
  rw [hheading, rows_eq, hrows, String.toList_append, unlines, String.toList_join]
  simp only [List.map_map, List.flatMap_map, Function.comp_def, String.toList_append]
  rfl

/-- The first byte of a sight is the byte at its offset, so a sight tells how far the walk goes
on. -/
theorem head?_bytes_sightAt (c : Chunk) (offset : Nat) :
    (sightAt c offset).bytes.head? = c.code[offset]? := by
  unfold sightAt
  split
  · rename_i hcode
    rw [hcode]
    rfl
  · rename_i byte hcode
    rw [hcode]
    split
    · rfl
    · rename_i hop
      rw [Opcode.ofByte?_eq_some_iff.1 hop]
      split <;> rfl
    · rename_i op _ hop
      rw [Opcode.ofByte?_eq_some_iff.1 hop]
      rfl

/-- A row is never empty, so that a listing tells how many rows it has. -/
theorem Entry.row_ne_nil (offset : Nat) (e : Entry) : e.row offset ≠ [] := by
  simp [Entry.row]

/-- **Rows tell the entries, and where these are.**

**Proof sketch.** Induction on the walk over the code. The first rows are those of the same offset,
so the entries there are the same; these show the same byte, and so both walks go on at the same
offset. -/
theorem entries_of_rows {start : Nat}
    (h : entryRows c (c.offsetsFrom start) = entryRows d (d.offsetsFrom start)) :
    c.offsetsFrom start = d.offsetsFrom start ∧
      ∀ offset ∈ c.offsetsFrom start, entryAt c offset = entryAt d offset := by
  induction start using Chunk.offsetsFrom.induct c with
  | case1 start hc ih =>
    by_cases hd : start < d.code.size
    · rw [Chunk.offsetsFrom_of_lt hc, Chunk.offsetsFrom_of_lt hd, entryRows, entryRows,
        List.flatMap_cons, List.flatMap_cons] at h
      obtain ⟨hentry, hrest⟩ := Entry.row_append_inj (legible_sightAt c start)
        (legible_sightAt d start) h
      -- the widths of the two instructions are the same only because their bytes are
      have hbyte : c.code[start] = d.code[start] := by
        have hcode : c.code[start]? = d.code[start]? := by
          rw [← head?_bytes_sightAt, ← head?_bytes_sightAt]
          exact congrArg (fun e : Entry => e.sight.bytes.head?) hentry
        rwa [Array.getElem?_eq_getElem hc, Array.getElem?_eq_getElem hd, Option.some_inj] at hcode
      rw [← hbyte] at hrest
      obtain ⟨hoffsets, hentries⟩ := ih hrest
      rw [Chunk.offsetsFrom_of_lt hc, Chunk.offsetsFrom_of_lt hd, ← hbyte, ← hoffsets]
      exact ⟨rfl, List.forall_mem_cons.2 ⟨hentry, hentries⟩⟩
    · rw [Chunk.offsetsFrom_of_lt hc, Chunk.offsetsFrom_of_size_le (Nat.le_of_not_lt hd)] at h
      exact absurd (List.append_eq_nil_iff.1 h).1 (Entry.row_ne_nil start _)
  | case2 start hc =>
    rw [Chunk.offsetsFrom_of_size_le (Nat.le_of_not_lt hc)] at h ⊢
    by_cases hd : start < d.code.size
    · rw [Chunk.offsetsFrom_of_lt hd] at h
      exact absurd (List.append_eq_nil_iff.1 h.symm).1 (Entry.row_ne_nil start _)
    · rw [Chunk.offsetsFrom_of_size_le (Nat.le_of_not_lt hd)]
      exact ⟨rfl, List.forall_mem_nil _⟩

/-! ## From the entries to the code -/

/-- The code from an offset on is the byte there and the code behind it. -/
theorem drop_eq_cons {offset : Nat} {byte : UInt8} (h : c.code[offset]? = some byte) :
    c.code.toList.drop offset = byte :: c.code.toList.drop (offset + 1) := by
  obtain ⟨hlt, rfl⟩ := Array.getElem?_eq_some_iff.1 h
  rw [List.drop_eq_getElem_cons (by simpa using hlt), Array.getElem_toList]

/-- The code from an offset on is the bytes of the sight there and the code behind the instruction.
A load that is cut off stands for one byte only, and there is nothing behind it.

**Proof sketch.** By the byte at the offset. A sight has the bytes of its instruction, and the walk
passes as many. -/
theorem drop_eq_bytes_append {offset : Nat} {byte : UInt8} (h : c.code[offset]? = some byte) :
    c.code.toList.drop offset =
      (sightAt c offset).bytes ++ c.code.toList.drop (offset + Chunk.widthOf byte) := by
  rw [drop_eq_cons h]
  unfold sightAt
  simp only [h]
  cases hop : Opcode.ofByte? byte with
  | none =>
    have hwidth : Chunk.widthOf byte = 1 := by rw [Chunk.widthOf, hop]; rfl
    rw [hwidth]
    rfl
  | some op =>
    obtain rfl := Opcode.ofByte?_eq_some_iff.1 hop
    rw [Chunk.widthOf_toByte]
    cases op with
    | constant =>
      have hwidth : offset + Opcode.constant.width = offset + 1 + 1 := rfl
      rw [hwidth]
      cases hindex : c.code[offset + 1]? with
      | none =>
        -- behind an operand that is cut off there is no code, at whichever of the two offsets
        have hsize := Array.getElem?_eq_none_iff.1 hindex
        rw [List.drop_eq_nil_of_le (by simpa using hsize),
          List.drop_eq_nil_of_le (by simp; omega)]
        rfl
      | some index =>
        rw [drop_eq_cons hindex]
        rfl
    | binary op => rfl
    | negate => rfl
    | ret => rfl

/-- **The entries tell the code**: it is the bytes of all instructions, one after another, those of
unknown bytes and of cut off loads included. The proof goes by induction on the walk. -/
theorem code_eq_flatMap (c : Chunk) (start : Nat) :
    c.code.toList.drop start =
      (c.offsetsFrom start).flatMap fun offset => (sightAt c offset).bytes := by
  induction start using Chunk.offsetsFrom.induct c with
  | case1 start hlt ih =>
    rw [Chunk.offsetsFrom_of_lt hlt, List.flatMap_cons, ← ih]
    exact drop_eq_bytes_append (Array.getElem?_eq_getElem hlt)
  | case2 start hend =>
    have hle := Nat.le_of_not_lt hend
    rw [Chunk.offsetsFrom_of_size_le hle, List.drop_eq_nil_of_le (by simpa using hle)]
    rfl

/-- A constant load within the code is shown with its index and the text of its value. If there is
no value at the index, that is shown as well. -/
theorem sightAt_of_load {offset : Nat} {index : UInt8}
    (hbyte : c.code[offset]? = some Opcode.constant.toByte)
    (hindex : c.code[offset + 1]? = some index) :
    sightAt c offset = .load index (c.constants[index.toNat]?.map Value.text) := by
  simp [sightAt, hbyte, hindex]

/-! ## From the marks to the lines -/

/-- Only the constant load has more than one byte. All other bytes, be they opcodes or not, stand
alone. -/
theorem widthOf_cases (byte : UInt8) :
    Chunk.widthOf byte = 1 ∨ byte = Opcode.constant.toByte ∧ Chunk.widthOf byte = 2 := by
  unfold Chunk.widthOf
  cases hop : Opcode.ofByte? byte with
  | none => exact .inl rfl
  | some op =>
    cases op with
    | constant => exact .inr ⟨Opcode.ofByte?_eq_some_iff.1 hop, rfl⟩
    | binary op => exact .inl rfl
    | negate => exact .inl rfl
    | ret => exact .inl rfl

/-- Every byte of the code begins an instruction or is the operand of a constant load. So lines are
known everywhere if they are known where instructions begin. -/
theorem mem_offsetsFrom_or_operand {start k : Nat} (hle : start ≤ k) (hlt : k < c.code.size) :
    k ∈ c.offsetsFrom start ∨ ∃ offset ∈ c.offsetsFrom start, k = offset + 1 ∧
      c.code[offset]? = some Opcode.constant.toByte := by
  induction start using Chunk.offsetsFrom.induct c with
  | case1 start hstart ih =>
    rw [Chunk.offsetsFrom_of_lt hstart]
    by_cases hnext : start + Chunk.widthOf c.code[start] ≤ k
    · rcases ih hnext with hmem | ⟨offset, hmem, hoffset⟩
      · exact .inl (List.mem_cons_of_mem start hmem)
      · exact .inr ⟨offset, List.mem_cons_of_mem start hmem, hoffset⟩
    · rcases widthOf_cases c.code[start] with hwidth | ⟨hbyte, hwidth⟩
      · obtain rfl : start = k := by omega
        exact .inl List.mem_cons_self
      · by_cases hfirst : start = k
        · exact .inl (hfirst ▸ List.mem_cons_self)
        · refine .inr ⟨start, List.mem_cons_self, by omega, ?_⟩
          rw [Array.getElem?_eq_getElem hstart, hbyte]
  | case2 start hend => omega

/-- The same mark stands for the same line, if it does on the byte before. A bar stands for that
line, and a number for itself. -/
theorem lineAt?_eq_of_mark {k : Nat} (hmark : (entryAt c k).mark = (entryAt d k).mark)
    (hbefore : 0 < k → c.lineAt? (k - 1) = d.lineAt? (k - 1)) {line line' : UInt32}
    (hc : c.lineAt? k = some line) (hd : d.lineAt? k = some line') :
    c.lineAt? k = d.lineAt? k := by
  simp only [entryAt] at hmark
  split at hmark
  · rename_i hsame
    split at hmark
    · rename_i hsame'
      rw [hsame.2, hbefore hsame.1, ← hsame'.2]
    · contradiction
  · split at hmark
    · contradiction
    · rw [hc, hd] at hmark ⊢
      exact hmark

/-- **The marks tell the lines**, if operands stand on the lines of their opcodes.

**Proof sketch.** Induction on the bytes of the code. A byte that begins an instruction is marked
with its line, or with the line of the byte before; an operand has the line of the byte before, too.
-/
theorem lineAt?_eq_of_marks (hc : c.OperandsInLine) (hd : d.OperandsInLine)
    (hcode : c.code = d.code) (hoffsets : c.offsets = d.offsets)
    (hmarks : ∀ offset ∈ c.offsets, (entryAt c offset).mark = (entryAt d offset).mark) {k : Nat}
    (hk : k < c.code.size) : c.lineAt? k = d.lineAt? k := by
  induction k using Nat.strongRecOn with
  | ind k ih =>
    have hk' : k < d.code.size := hcode ▸ hk
    rcases mem_offsetsFrom_or_operand (Nat.zero_le k) hk with hmem | ⟨offset, hmem, rfl, hbyte⟩
    · have hbefore : 0 < k → c.lineAt? (k - 1) = d.lineAt? (k - 1) := fun _ =>
        ih (k - 1) (by omega) (by omega)
      exact lineAt?_eq_of_mark (hmarks k hmem) hbefore
        (Array.getElem?_eq_getElem (hc.size_lines ▸ hk))
        (Array.getElem?_eq_getElem (hd.size_lines ▸ hk'))
    · -- no row shows the line of an operand
      calc c.lineAt? (offset + 1)
        _ = c.lineAt? offset := hc.operand_line offset hmem hbyte hk
        _ = d.lineAt? offset := ih offset (by omega) (by omega)
        _ = d.lineAt? (offset + 1) :=
          (hd.operand_line offset (hoffsets ▸ hmem) (hcode ▸ hbyte) hk').symm

end Listing

/-! ## Assembled chunks -/

namespace Chunk

/-- In a routine every operand stands on the line of its opcode, as an instruction has one line. -/
theorem Spells.operand_line {c : Chunk} {start : Nat} {p : Routine UInt32} (h : c.Spells start p)
    {offset : Nat} (hmem : offset ∈ c.offsetsFrom start)
    (hbyte : c.code[offset]? = some Opcode.constant.toByte) :
    c.lineAt? (offset + 1) = c.lineAt? offset := by
  induction p generalizing start with
  | nil =>
    obtain rfl : start = c.code.size := h
    rw [offsetsFrom_of_size_le (Nat.le_refl _)] at hmem
    contradiction
  | cons s rest ih =>
    obtain ⟨line, i⟩ := s
    obtain ⟨hfetch, hlines, hrest⟩ := h
    rw [offsetsFrom_of_fetch_ok hfetch, List.mem_cons] at hmem
    rcases hmem with rfl | hmem
    · have hopcode : i.opcode = .constant :=
        Opcode.toByte_injective (Option.some.inj ((opcode_of_fetch_ok hfetch).1.symm.trans hbyte))
      have hwidth : i.width = 2 := by rw [Instruction.width, hopcode]; rfl
      exact (hlines 1 (by omega)).trans (hlines 0 (by omega)).symm
    · exact ih hrest hmem

/-- **Chunks that are built by appending whole instructions** have operands on the lines of their
opcodes. They hold the routine that was appended, and nothing else. -/
theorem OperandsInLine.of_emitAll {c : Chunk} {p : Routine UInt32} (h : empty.emitAll p = .ok c) :
    c.OperandsInLine := by
  obtain ⟨-, hformed, hspells⟩ := spells_of_emitAll .empty h
  exact ⟨hformed.size_lines, fun offset hmem hbyte _ => hspells.operand_line hmem hbyte⟩

/-- So have assembled chunks: the assembler appends the routine of its text. -/
theorem OperandsInLine.of_assemble {text : String} {c : Chunk}
    (h : Assembly.assemble text = .ok c) : c.OperandsInLine :=
  of_emitAll (Assembly.emitAll_of_assemble h)

end Chunk

/-! ## Chunks with one listing -/

namespace Listing

/-- **A listing tells the code.** Take two chunks, sound or not, with the same listing under some
name. Then

* they have the same code, byte by byte;
* each constant load has the same index in both, and the constants there have the same text, or
  there is none in either;
* if their operands stand on the lines of their opcodes, they have the same lines.

**Proof sketch.** Behind the heading the listings are the rows of entries, so by `entries_of_rows`
the same entries stand at the same offsets. These tell the code by `code_eq_flatMap`, the texts of
constants by `sightAt_of_load`, and the lines by `lineAt?_eq_of_marks`. -/
theorem render_faithful {c d : Chunk} {name : String} (h : render c name = render d name) :
    c.code = d.code ∧
    (∀ offset ∈ c.offsets, ∀ index, c.code[offset]? = some Opcode.constant.toByte →
      c.code[offset + 1]? = some index →
        offset ∈ d.offsets ∧ d.code[offset]? = some Opcode.constant.toByte ∧
        d.code[offset + 1]? = some index ∧
        c.constants[index.toNat]?.map Value.text = d.constants[index.toNat]?.map Value.text) ∧
    (c.OperandsInLine → d.OperandsInLine → c.lines = d.lines) := by
  have hrows := congrArg String.toList h
  rw [toList_render, toList_render] at hrows
  obtain ⟨hoffsets, hentries⟩ := entries_of_rows (List.append_cancel_left hrows)
  have hoffsets : c.offsets = d.offsets := hoffsets
  have hsights : ∀ offset ∈ c.offsets, sightAt c offset = sightAt d offset := fun offset hmem =>
    congrArg Entry.sight (hentries offset hmem)
  have hcode : c.code = d.code := by
    apply Array.toList_inj.1
    calc c.code.toList
      _ = c.offsets.flatMap fun offset => (sightAt c offset).bytes := code_eq_flatMap c 0
      _ = c.offsets.flatMap fun offset => (sightAt d offset).bytes := by
        rw [List.flatMap_def, List.flatMap_def,
          List.map_congr_left fun offset hmem => congrArg Sight.bytes (hsights offset hmem)]
      _ = d.code.toList := by rw [hoffsets]; exact (code_eq_flatMap d 0).symm
  refine ⟨hcode, fun offset hmem index hbyte hindex => ?_, fun hc hd => ?_⟩
  · have hbyte' : d.code[offset]? = some Opcode.constant.toByte := hcode ▸ hbyte
    have hindex' : d.code[offset + 1]? = some index := hcode ▸ hindex
    have hsight := hsights offset hmem
    rw [sightAt_of_load hbyte hindex, sightAt_of_load hbyte' hindex', Sight.load.injEq] at hsight
    exact ⟨hoffsets ▸ hmem, hbyte', hindex', hsight.2⟩
  · have hmarks : ∀ offset ∈ c.offsets, (entryAt c offset).mark = (entryAt d offset).mark :=
      fun offset hmem => congrArg Entry.mark (hentries offset hmem)
    have hsize : c.lines.size = d.lines.size := by rw [hc.size_lines, hd.size_lines, hcode]
    refine Array.ext_getElem? fun k => ?_
    by_cases hk : k < c.code.size
    · exact lineAt?_eq_of_marks hc hd hcode hoffsets hmarks hk
    · have hk : c.lines.size ≤ k := hc.size_lines ▸ Nat.le_of_not_lt hk
      rw [Array.getElem?_eq_none hk, Array.getElem?_eq_none (hsize ▸ hk)]

/-- Two texts that differ in the sign of a NaN, which is not shown: the chunks have different pools,
and all else in common. So the texts of constants are all that a listing can tell of them. -/
theorem render_faithful_nan_sign :
    let c : Chunk := ⟨#[0, 0, 0, 1, 1, 6], #[1, 1, 3, 3, 4, 5], #[⟨0x7ff8000000000000⟩, ⟨0⟩]⟩
    let d : Chunk := ⟨#[0, 0, 0, 1, 1, 6], #[1, 1, 3, 3, 4, 5], #[⟨0xfff8000000000000⟩, ⟨0⟩]⟩
    let text (sign : String) := "CONSTANT " ++ sign ++ "nan\n\nCONSTANT 0\nADD\nRETURN"
    (Assembly.assemble (text "") = .ok c ∧ Assembly.assemble (text "-") = .ok d ∧
      render c "nan" = render d "nan") ∧ c ≠ d ∧ c.code = d.code ∧ c.lines = d.lines := by
  intro c d text
  have hc : Assembly.assemble (text "") = .ok c := toOption_eq_some_iff.1 (by decide +kernel)
  have hd : Assembly.assemble (text "-") = .ok d := toOption_eq_some_iff.1 (by decide +kernel)
  have hrender : render c "nan" = render d "nan" := by decide +kernel
  obtain ⟨hcode, -, hlines⟩ := render_faithful hrender
  exact ⟨⟨hc, hd, hrender⟩, by decide, hcode, hlines (.of_assemble hc) (.of_assemble hd)⟩

/-- On operands of other lines than their opcodes a listing tells nothing. -/
example : render ⟨#[0, 0, 1], #[1, 2, 2], #[]⟩ "" = render ⟨#[0, 0, 1], #[1, 3, 3], #[]⟩ "" := by
  decide +kernel

end Listing

end ChunkMachine
