import ChunkMachine.Proofs.Assembly.Grammar
import ChunkMachine.Proofs.Chunk.Emission
import ChunkMachine.Proofs.Machine.Assembled

set_option relaxedAutoImplicit false
set_option autoImplicit false

/-!
# Texts that are assembled, and those that are not

A text is assembled exactly if each of its lines says something and if the constants that they load
fit into a pool. Its chunk is then told by what the lines say. A text that is not assembled has a
first line that is wrong, or that loads a constant too many, and the lines behind that one are never
looked at.

## Main definitions

* `Assembly.Program` — lines say a routine.
* `Assembly.Offends` — a line ends the assembly of a text with an error.
* `Assembly.StopsAt` — a line is the first one of a text to do so.

## Main results

* `Assembly.exists_program_iff` — lines say a routine exactly if each of them says something.
* `Assembly.assembleLines_of_program`, `Assembly.assembleLines_of_offends` — what comes of lines.
* `Assembly.assemble_decides` — the texts that are assembled, their chunks, and the errors of the
  other ones.
-/

namespace ChunkMachine.Assembly

/-- Lines say a routine, the first line having a number: those that are not blank say its
instructions, one after another. -/
inductive Program : Nat → List (List Char) → Routine Nat → Prop where
  /-- No lines say nothing. -/
  | nil (number : Nat) : Program number [] []
  /-- A line without words takes a number and says nothing. -/
  | blank {number : Nat} {line : List Char} {rest : List (List Char)} {p : Routine Nat}
      (hline : Reads line none) (hrest : Program (number + 1) rest p) :
      Program number (line :: rest) p
  /-- Any other line says one instruction, under its own number. -/
  | instruction {number : Nat} {line : List Char} {rest : List (List Char)} {p : Routine Nat}
      {i : Instruction} (hline : Reads line (some i)) (hrest : Program (number + 1) rest p) :
      Program number (line :: rest) ((number, i) :: p)

/-- A line ends the assembly of a text, so many constants having been loaded before it: it is wrong,
or it loads one constant more than a pool holds. -/
inductive Offends (loaded : Nat) (number : UInt32) (line : List Char) : Error → Prop where
  /-- A line that is wrong offends wherever it stands. -/
  | wrong {f : Fault} (hwrong : Wrong line f) : Offends loaded number line (.badLine number f)
  /-- A load offends if the pool is full, and the error does not name its line. -/
  | full {v : Value} (hload : Reads line (some (.load v))) (hfull : loaded = Chunk.maxConstants) :
      Offends loaded number line .tooManyConstants

/-- A line is the first one of a text to end its assembly: the lines before it say a routine whose
constants fit into a pool. The error names the number of the line. -/
def StopsAt (before : List (List Char)) (line : List Char) (e : Error) : Prop :=
  ∃ (p : Routine Nat) (number : UInt32), Program 1 before p ∧
    p.constants.length ≤ Chunk.maxConstants ∧ number.toNat = before.length + 1 ∧
    Offends p.constants.length number line e

/-! ## Lines that say a routine -/

/-- Lines say a routine exactly if each of them says something. What they say does not depend on
each other; only the constants have to share a pool.

**Proof sketch.** Induction on the lines. What the first line says comes in front of what the others
say. -/
theorem exists_program_iff {number : Nat} {lines : List (List Char)} :
    (∃ p, Program number lines p) ↔ ∀ line ∈ lines, ∃ i, Reads line i := by
  induction lines generalizing number with
  | nil => exact ⟨fun _ => nofun, fun _ => ⟨[], .nil number⟩⟩
  | cons line rest ih =>
    have hrest : (∃ p, Program (number + 1) rest p) ↔ ∀ line ∈ rest, ∃ i, Reads line i := ih
    rw [List.forall_mem_cons, ← hrest]
    constructor
    · rintro ⟨p, hp⟩
      cases hp with
      | blank hline hrest => exact ⟨⟨none, hline⟩, _, hrest⟩
      | instruction hline hrest => exact ⟨⟨_, hline⟩, _, hrest⟩
    · rintro ⟨⟨i, hline⟩, p, hrest⟩
      cases i with
      | none => exact ⟨p, .blank hline hrest⟩
      | some i => exact ⟨(number, i) :: p, .instruction hline hrest⟩

/-- The routine that the lines of a text say is its routine, so lines say one routine at most. -/
theorem Program.eq_routineFrom {number : Nat} {lines : List (List Char)} {p : Routine Nat}
    (h : Program number lines p) : p = routineFrom number lines := by
  induction h with
  | nil number => rfl
  | blank hline _ ih =>
    rw [routineFrom_cons, instruction?, hline.readLine_eq]
    exact ih
  | instruction hline _ ih =>
    rw [routineFrom_cons, instruction?, hline.readLine_eq]
    exact congrArg (_ :: ·) ih

/-! ## What comes of lines -/

/-- Lines are counted from one, while the lines of a list are counted from zero. -/
theorem lineNumber_eq (index : Nat) : lineNumber index = lineWord (index + 1) := rfl

/-- Every word is the number of a line. The greatest one is that of all lines from there on. -/
theorem lineWord_toNat (number : UInt32) : lineWord number.toNat = number := by
  have hlt := number.toNat_lt
  rw [lineWord, Nat.min_eq_left (by omega), UInt32.ofNat_toNat]

/-- Small numbers are kept by words. In a text that is not too long all lines have such numbers. -/
theorem toNat_lineWord {number : Nat} (h : number ≤ 2 ^ 32 - 1) :
    (lineWord number).toNat = number := by
  have hsize : UInt32.size = 2 ^ 32 := rfl
  rw [lineWord, Nat.min_eq_left h, UInt32.toNat_ofNat_of_lt' (by omega)]

/-- Lines are assembled one after another: those behind start with the chunk that those in front
have left, and with the number behind theirs.

**Proof sketch.** Induction on the lines in front. One that is refused refuses both sides, and one
that is read leaves the same chunk to both. -/
theorem assembleLines_append (before after : List (List Char)) (c : Chunk) (index : Nat) :
    assembleLines c index (before ++ after) =
      assembleLines c index before >>= fun d => assembleLines d (index + before.length) after := by
  induction before generalizing c index with
  | nil => rfl
  | cons line rest ih =>
    have hlength : index + (line :: rest).length = index + 1 + rest.length := by
      rw [List.length_cons]
      omega
    rw [List.cons_append, hlength, assembleLines, assembleLines]
    cases readLine line with
    | error f => rfl
    | ok i =>
      cases i with
      | none => exact ih c (index + 1)
      | some i =>
        dsimp only
        cases c.emit (lineNumber index) i with
        | error f => rfl
        | ok d => exact ih d (index + 1)

/-- **Lines that say a routine** append it, if its constants fit into the pool.

**Proof sketch.** Induction on the lines. A line that is not blank appends its instruction, and
leaves room for the constants behind it. -/
theorem assembleLines_of_program {index : Nat} {lines : List (List Char)} {p : Routine Nat}
    (h : Program (index + 1) lines p) (c : Chunk)
    (hfits : c.constants.size + p.constants.length ≤ Chunk.maxConstants) :
    assembleLines c index lines = .ok (c.extend (p.map (Prod.map lineWord id))) := by
  generalize hnumber : index + 1 = number at h
  induction h generalizing index c with
  | nil number => rw [List.map_nil, Chunk.extend_nil]; rfl
  | blank hline _ ih =>
    rw [assembleLines, hline.readLine_eq]
    exact ih c hfits (congrArg (· + 1) hnumber)
  | @instruction number line rest p i hline _ ih =>
    subst hnumber
    rw [Routine.constants_cons, List.length_append] at hfits
    have hroom : c.constants.size + i.constants.length ≤ Chunk.maxConstants := by omega
    have hsize : (c.extend [(lineWord (index + 1), i)]).constants.size =
        c.constants.size + i.constants.length := by
      rw [Chunk.size_constants_extend, Routine.constants_cons, List.length_append]
      rfl
    have hemit : c.emit (lineNumber index) i = .ok (c.extend [(lineWord (index + 1), i)]) := by
      rw [Chunk.emit_eq (by omega), if_pos hroom, lineNumber_eq]
    rw [assembleLines, hline.readLine_eq, List.map_cons, Prod.map, id, Chunk.extend_cons]
    simp only [hemit]
    exact ih _ (by omega) rfl

/-- **A line that offends** ends the assembly, whatever is behind it. The lines in front of it say a
routine, so that the assembly comes to it, and with as many constants as they load. -/
theorem assembleLines_of_offends {index : Nat} {before : List (List Char)} {line : List Char}
    {p : Routine Nat} {e : Error} (h : Program (index + 1) before p) (c : Chunk)
    (hfits : c.constants.size + p.constants.length ≤ Chunk.maxConstants)
    (hline : Offends (c.constants.size + p.constants.length) (lineWord (index + before.length + 1))
      line e) (after : List (List Char)) :
    assembleLines c index (before ++ line :: after) = .error e := by
  rw [assembleLines_append, assembleLines_of_program h c hfits]
  show assembleLines _ _ (line :: after) = _
  cases hline with
  | wrong hwrong => rw [assembleLines, hwrong.readLine_eq, lineNumber_eq]
  | @full v hload hfull =>
    have hsize : (c.extend (p.map (Prod.map lineWord id))).constants.size = Chunk.maxConstants := by
      rw [Chunk.size_constants_extend, Routine.constants_map, hfull]
    have hemit (number : UInt32) :
        (c.extend (p.map (Prod.map lineWord id))).emit number (.load v) = .error .full := by
      have hone : (Instruction.load v).constants.length = 1 := rfl
      rw [Chunk.emit_eq (by omega), if_neg (by omega)]
    rw [assembleLines, hload.readLine_eq]
    simp only [hemit]

/-- Lines say a routine whose constants fit into a pool, or one of them is the first to offend.

**Proof sketch.** Induction on the lines, the pool filling up from line to line. Only a load can
offend without being wrong, and only if the pool is full. -/
theorem program_or_offends {loaded : Nat} (h : loaded ≤ Chunk.maxConstants) (number : Nat)
    (lines : List (List Char)) :
    (∃ p, Program number lines p ∧ loaded + p.constants.length ≤ Chunk.maxConstants) ∨
      ∃ before line after p e, lines = before ++ line :: after ∧ Program number before p ∧
        loaded + p.constants.length ≤ Chunk.maxConstants ∧
        Offends (loaded + p.constants.length) (lineWord (number + before.length)) line e := by
  induction lines generalizing loaded number with
  | nil => exact .inl ⟨[], .nil number, h⟩
  | cons line rest ih =>
    rcases reads_or_wrong line with ⟨i, hline⟩ | ⟨f, hwrong⟩
    · cases i with
      | none =>
        rcases ih h (number + 1) with
          ⟨p, hp, hfits⟩ | ⟨before, bad, after, p, e, rfl, hp, hfits, hbad⟩
        · exact .inl ⟨p, .blank hline hp, hfits⟩
        · refine .inr ⟨line :: before, bad, after, p, e, rfl, .blank hline hp, hfits, ?_⟩
          rwa [List.length_cons, Nat.add_comm before.length, ← Nat.add_assoc]
      | some i =>
        by_cases hroom : loaded + i.constants.length ≤ Chunk.maxConstants
        · have hlength (p : Routine Nat) : loaded + (Routine.constants ((number, i) :: p)).length =
              loaded + i.constants.length + p.constants.length := by
            rw [Routine.constants_cons, List.length_append, Nat.add_assoc]
          rcases ih hroom (number + 1) with
            ⟨p, hp, hfits⟩ | ⟨before, bad, after, p, e, rfl, hp, hfits, hbad⟩
          · exact .inl ⟨_, .instruction hline hp, hlength p ▸ hfits⟩
          · refine .inr ⟨line :: before, bad, after, _, e, rfl, .instruction hline hp,
              hlength p ▸ hfits, ?_⟩
            rwa [hlength, List.length_cons, Nat.add_comm before.length, ← Nat.add_assoc]
        · obtain ⟨v, rfl⟩ : ∃ v, i = .load v := by
            cases i with
            | load v => exact ⟨v, rfl⟩
            | binary op => exact absurd h hroom
            | negate => exact absurd h hroom
            | ret => exact absurd h hroom
          have hfull : loaded = Chunk.maxConstants := by
            have hone : (Instruction.load v).constants.length = 1 := rfl
            omega
          exact .inr ⟨[], line, rest, [], _, rfl, .nil number, h, .full hline hfull⟩
    · exact .inr ⟨[], line, rest, [], _, rfl, .nil number, h, .wrong hwrong⟩

/-! ## Texts -/

/-- The empty line does not offend. So a line that offends is one of those that the text is said to
have, even if it stands at its end. -/
theorem Offends.ne_nil {loaded : Nat} {number : UInt32} {line : List Char} {e : Error}
    (h : Offends loaded number line e) : line ≠ [] := by
  rintro rfl
  have hblank : readLine [] = .ok none := rfl
  cases h with
  | wrong hwrong => exact nomatch hblank.symm.trans hwrong.readLine_eq
  | full hload _ => exact nomatch hblank.symm.trans hload.readLine_eq

/-- A line that is not empty is one of those that a text is said to have. An empty last line is not
counted, as it stands behind the last line feed. -/
theorem length_lt_lineCount {text : List Char} {before after : List (List Char)} {line : List Char}
    (h : Text.lines text = before ++ line :: after) (hne : line ≠ []) :
    before.length < Text.lineCount text := by
  unfold Text.lineCount
  rw [h, List.length_append, List.length_cons]
  split
  · rename_i hlast
    have hmore : after ≠ [] := by
      rintro rfl
      rw [List.getLast?_concat] at hlast
      exact hne (Option.some.inj hlast)
    have hpos := List.length_pos_iff.2 hmore
    omega
  · omega

/-- A line that is the first to offend ends the assembly of every text that has it there. What is
behind it in the text may be anything. -/
theorem StopsAt.assemble_eq {before : List (List Char)} {line : List Char} {e : Error}
    (h : StopsAt before line e) {text : String}
    (htext : before ++ [line] <+: Text.lines text.toList) : assemble text = .error e := by
  obtain ⟨p, number, hp, hfits, hnumber, hline⟩ := h
  obtain ⟨after, hlines⟩ := htext
  have hsize : Chunk.empty.constants.size + p.constants.length = p.constants.length :=
    Nat.zero_add _
  rw [assemble, ← hlines, List.append_assoc]
  refine assembleLines_of_offends (show Program (0 + 1) before p from hp) .empty ?_ ?_ after
  · rwa [hsize]
  · rwa [hsize, Nat.zero_add, ← hnumber, lineWord_toNat]

/-- The chunk that a routine appends to nothing, its lines being told as numbers. The three parts of
the chunk are told one by one, each as a list.

**Proof sketch.** A chunk is told by its three arrays, and an array by its list. Words that are made
of numbers give the numbers back. -/
theorem eq_extend_iff {p : Routine Nat}
    (hwords : (p.map (Prod.map lineWord id)).map (Prod.map UInt32.toNat id) = p) {c : Chunk} :
    c = Chunk.empty.extend (p.map (Prod.map lineWord id)) ↔
      c.code.toList = p.bytes 0 ∧ c.lines.toList.map UInt32.toNat = p.byteLines ∧
        c.constants.toList = p.constants := by
  constructor
  · rintro rfl
    refine ⟨?_, ?_, ?_⟩
    · simp [Chunk.extend, Chunk.empty, Routine.bytes_map]
    · simp only [Chunk.extend, Chunk.empty, List.append_toArray, List.nil_append,
        List.toList_toArray]
      rw [← Routine.byteLines_map, hwords]
    · simp [Chunk.extend, Chunk.empty, Routine.constants_map]
  · rintro ⟨hcode, hlines, hconstants⟩
    obtain ⟨code, lines, constants⟩ := c
    -- the lines are told as numbers, and only words give numbers that can be turned back
    have hlines' : lines.toList = p.byteLines.map lineWord := by
      rw [← hlines, List.map_map]
      refine (List.map_id _).symm.trans (List.map_congr_left fun n _ => ?_)
      exact (lineWord_toNat n).symm
    rw [Chunk.extend, Chunk.mk.injEq]
    refine ⟨?_, ?_, ?_⟩ <;> apply Array.toList_inj.1
    · simpa [Chunk.empty, Routine.bytes_map] using hcode
    · simpa [Chunk.empty, Routine.byteLines_map] using hlines'
    · simpa [Chunk.empty, Routine.constants_map] using hconstants

/-- A routine that the lines of a text say is appended to nothing, if its constants fit. The text
need not be short for that. -/
theorem Program.assemble_eq {text : String} {p : Routine Nat}
    (h : Program 1 (Text.lines text.toList) p) (hfits : p.constants.length ≤ Chunk.maxConstants) :
    assemble text = .ok (Chunk.empty.extend (p.map (Prod.map lineWord id))) :=
  assembleLines_of_program h .empty ((Nat.zero_add _).symm ▸ hfits)

/-- The lines of a text that is not too long say a routine that fits into a pool, or one of them is
the first to offend. This is what makes the acceptance of texts an equivalence. -/
theorem program_or_stopsAt {text : String} (h : Text.lineCount text.toList ≤ 2 ^ 32 - 1) :
    (∃ p, Program 1 (Text.lines text.toList) p ∧ p.constants.length ≤ Chunk.maxConstants) ∨
      ∃ before line after e, Text.lines text.toList = before ++ line :: after ∧
        StopsAt before line e := by
  rcases program_or_offends (Nat.zero_le Chunk.maxConstants) 1 (Text.lines text.toList) with
    ⟨p, hp, hfits⟩ | ⟨before, line, after, p, e, hlines, hp, hfits, hline⟩
  · exact .inl ⟨p, hp, by omega⟩
  · rw [Nat.zero_add] at hfits hline
    have hlt := length_lt_lineCount hlines hline.ne_nil
    have hnumber : (lineWord (1 + before.length)).toNat = 1 + before.length :=
      toNat_lineWord (by omega)
    exact .inr ⟨before, line, after, e, hlines, p, _, hp, hfits, by omega, hline⟩

/-- **The texts that are assembled**, if they are not too long, are those whose lines each say
something and load no more constants than a pool holds. The code of the chunk is the opcodes of the
instructions, each load followed by the number of loads before it; every byte has the number of its
line, counted from one; and the pool holds the numbers in order. A text that is not assembled is
refused for the first line that offends, and so is every text that has the same lines up to there.

**Proof sketch.** The lines of a text say a routine that fits into a pool, or one of them is the
first to offend, and in both cases it is known what comes of them. Each equivalence holds because
the two cases exclude each other. -/
theorem assemble_decides {text : String} (h : Text.lineCount text.toList ≤ 2 ^ 32 - 1) :
    let lines := Text.lines text.toList
    (∀ c, assemble text = .ok c ↔ ∃ p, Program 1 lines p ∧ p.constants.length ≤ 256 ∧
      c.code.toList = p.bytes 0 ∧ c.lines.toList.map UInt32.toNat = p.byteLines ∧
      c.constants.toList = p.constants) ∧
    ((∃ p, Program 1 lines p) ↔ ∀ line ∈ lines, ∃ i, Reads line i) ∧
    (∀ e, assemble text = .error e ↔
      ∃ before line after, lines = before ++ line :: after ∧ StopsAt before line e) ∧
    ∀ before line e (text' : String), StopsAt before line e →
      before ++ [line] <+: Text.lines text'.toList → assemble text' = .error e := by
  intro lines
  have hwords {p : Routine Nat} (hp : Program 1 lines p) :
      (p.map (Prod.map lineWord id)).map (Prod.map UInt32.toNat id) = p := by
    rw [hp.eq_routineFrom]
    exact map_toNat_lineWord h
  have hstop {before after : List (List Char)} {line : List Char} {e : Error}
      (hlines : lines = before ++ line :: after) (hline : StopsAt before line e) :
      assemble text = .error e :=
    hline.assemble_eq ⟨after, by rw [List.append_assoc, List.singleton_append, ← hlines]⟩
  refine ⟨fun c => ⟨fun hc => ?_, ?_⟩, exists_program_iff, fun e => ⟨fun he => ?_, ?_⟩,
    fun before line e text' hline htext => hline.assemble_eq htext⟩
  · rcases program_or_stopsAt h with ⟨p, hp, hfits⟩ | ⟨before, line, after, e, hlines, hline⟩
    · rw [hp.assemble_eq hfits] at hc
      exact ⟨p, hp, hfits, (eq_extend_iff (hwords hp)).1 (Except.ok.inj hc).symm⟩
    · rw [hstop hlines hline] at hc
      contradiction
  · rintro ⟨p, hp, hfits, hchunk⟩
    rw [hp.assemble_eq hfits, (eq_extend_iff (hwords hp)).2 hchunk]
  · rcases program_or_stopsAt h with ⟨p, hp, hfits⟩ | ⟨before, line, after, e', hlines, hline⟩
    · rw [hp.assemble_eq hfits] at he
      contradiction
    · rw [hstop hlines hline] at he
      cases he
      exact ⟨before, line, after, hlines, hline⟩
  · rintro ⟨before, line, after, hlines, hline⟩
    exact hstop hlines hline

/-- Of two texts that begin alike, with a comment, a no-break space and a carriage return, one is
assembled and the other one is refused for an operand on its fourth line. The texts are cut into
lines by computation, and the theorem above says the rest. -/
theorem assemble_decides_stray_operand :
    let start := "; one\nCONSTANT 1\n\u00a0Op_Negate\r\n"
    let good := start ++ "RETURN ; it\n"
    let bad := start ++ "RETURN 2\nADD ADD ADD\n"
    let c : Chunk := ⟨#[0, 0, 5, 6], #[2, 2, 3, 4], #[⟨0x3FF0000000000000⟩]⟩
    let e := Error.badLine 4 (.unexpectedOperand .ret ['2'])
    (Text.lineCount good.toList ≤ 2 ^ 32 - 1 ∧ Text.lineCount bad.toList ≤ 2 ^ 32 - 1) ∧
    (assemble good = .ok c ∧ ∃ p, Program 1 (Text.lines good.toList) p ∧
      p.constants.length ≤ 256 ∧ [0, 0, 5, 6] = p.bytes 0 ∧ [2, 2, 3, 4] = p.byteLines ∧
      c.constants.toList = p.constants) ∧
    assemble bad = .error e ∧ ∃ before line after,
      Text.lines bad.toList = before ++ line :: after ∧ StopsAt before line e := by
  intro start good bad c e
  have hgood : Text.lineCount good.toList ≤ 2 ^ 32 - 1 := by decide +kernel
  have hbad : Text.lineCount bad.toList ≤ 2 ^ 32 - 1 := by decide +kernel
  have hrefused {x : Except Error Chunk}
      (h : (match x with | .ok _ => false | .error f => decide (f = e)) = true) : x = .error e := by
    cases x with
    | ok d => contradiction
    | error f => exact congrArg Except.error (of_decide_eq_true h)
  have hc : assemble good = .ok c := toOption_eq_some_iff.1 (by decide +kernel)
  have he : assemble bad = .error e := hrefused (by decide +kernel)
  obtain ⟨hok, -, -, -⟩ := assemble_decides hgood
  obtain ⟨-, -, herror, -⟩ := assemble_decides hbad
  exact ⟨⟨hgood, hbad⟩, ⟨hc, (hok c).1 hc⟩, he, (herror e).1 he⟩

end ChunkMachine.Assembly
