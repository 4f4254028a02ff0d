import ChunkMachine.Chunk.LineRun
import Mathlib.Data.List.SplitBy

set_option relaxedAutoImplicit false
set_option autoImplicit false

/-!
# The run-length decomposition of a line table

The runs of a line table cut its offsets into ranges, one behind the other, so that every range has
one line and neighbouring ranges have different ones. There is only one way to do so, whether the
table is grouped as a whole or handed out run by run.

## Main definitions

* `LineRun.lines` — the lines that a run stands for.
* `LineRun.Decomposes` — the run-length decomposition of lines, said without computing it.

## Main results

* `LineRun.Decomposes.eq_place` — lines have one decomposition at most.
* `LineWalk.decomposes_runs` — what a walk hands out decomposes the lines ahead of it.
* `Chunk.lineRuns_iff` — the runs of a chunk are the decomposition of its line table.
-/

namespace ChunkMachine

namespace LineRun

/-- The lines that a run stands for: its own, as often as it has offsets. -/
def lines (r : LineRun) : List UInt32 := List.replicate (r.stop - r.start) r.line

/-- The runs `rs` are the run-length decomposition of lines of which the first one has the offset
`start`: none of them is empty, they follow one another from the first offset to the last one,
neighbours have different lines, and together they stand for all lines. -/
structure Decomposes (start : Nat) (lines : List UInt32) (rs : List LineRun) : Prop where
  /-- No run is empty. -/
  start_lt_stop : ∀ r ∈ rs, r.start < r.stop
  /-- The first one starts with the lines. -/
  head_start : ∀ r ∈ rs.head?, r.start = start
  /-- Each of the others starts where the one before stops. -/
  contiguous : rs.IsChain fun r s => s.start = r.stop
  /-- The last one stops behind the lines. -/
  last_stop : ∀ r ∈ rs.getLast?, r.stop = start + lines.length
  /-- Neighbours have different lines, so that no run could be longer. -/
  maximal : rs.IsChain fun r s => r.line ≠ s.line
  /-- The lines that they stand for are those that were decomposed. -/
  flatMap_lines : rs.flatMap LineRun.lines = lines

/-! ## Uniqueness -/

/-- A run that is not empty stands for lines, so it makes a group of its own. -/
theorem lines_ne_nil {r : LineRun} (h : r.start < r.stop) : r.lines ≠ [] := by
  rw [lines, Ne, List.replicate_eq_nil_iff]
  omega

/-- Runs that follow one another are laid down again from the lines that they stand for. So runs are
known from their groups and the offset of the first one. -/
theorem place_map_lines {start : Nat} {rs : List LineRun}
    (hpos : ∀ r ∈ rs, r.start < r.stop) (hhead : ∀ r ∈ rs.head?, r.start = start)
    (hchain : rs.IsChain fun r s => s.start = r.stop) : place start (rs.map lines) = rs := by
  induction rs generalizing start with
  | nil => rfl
  | cons r rs ih =>
    obtain ⟨hr, hrest⟩ := List.forall_mem_cons.1 hpos
    obtain ⟨hnext, hchain⟩ := List.isChain_cons.1 hchain
    have hstart : r.start = start := hhead r rfl
    obtain ⟨n, hn⟩ : ∃ n, r.stop - r.start = n + 1 := ⟨r.stop - r.start - 1, by omega⟩
    have hstop : start + n + 1 = r.stop := by omega
    rw [List.map_cons, lines, hn, List.replicate_succ, place, List.length_replicate, hstop,
      ih hrest hnext hchain, ← hstart]

/-- **Lines have one decomposition at most**: their groups of equal neighbours, laid one after
another.

**Proof sketch.** The lines that the runs stand for are these groups: none is empty, each repeats
one line, and the next one repeats another. -/
theorem Decomposes.eq_place {start : Nat} {ls : List UInt32} {rs : List LineRun}
    (h : Decomposes start ls rs) : rs = place start (ls.splitBy (· == ·)) := by
  have hgroups : ls.splitBy (· == ·) = rs.map lines := by
    refine List.splitBy_eq_iff.2 ⟨?_, ?_, ?_, ?_⟩
    · rw [← List.flatMap_def, h.flatMap_lines]
    · intro hnil
      obtain ⟨r, hr, hempty⟩ := List.mem_map.1 hnil
      exact lines_ne_nil (h.start_lt_stop r hr) hempty
    · intro group hgroup
      obtain ⟨r, -, rfl⟩ := List.mem_map.1 hgroup
      exact List.isChain_replicate_of_rel _ (by simp)
    · refine (List.isChain_map _).2 (h.maximal.imp_of_mem_imp fun r s hr hs hne => ?_)
      refine ⟨lines_ne_nil (h.start_lt_stop r hr), lines_ne_nil (h.start_lt_stop s hs), ?_⟩
      simpa [lines] using hne
  rw [hgroups, place_map_lines h.start_lt_stop h.head_start h.contiguous]

end LineRun

/-! ## Walks -/

namespace LineWalk

/-- A line in front of lines that repeat it is repeated once more. -/
theorem drop_of_getElem? {lines : Array UInt32} {line : UInt32} {i j : Nat} {rest : List UInt32}
    (hline : lines[i]? = some line) (hlt : i < j)
    (h : lines.toList.drop (i + 1) = List.replicate (j - (i + 1)) line ++ rest) :
    lines.toList.drop i = List.replicate (j - i) line ++ rest := by
  obtain ⟨hi, rfl⟩ := Array.getElem?_eq_some_iff.1 hline
  have hcount : j - i = j - (i + 1) + 1 := by omega
  rw [List.drop_eq_getElem_cons (by simpa using hi), h, hcount, List.replicate_succ]
  rfl

/-- What is skipped repeats the line, and the line ahead of it all, if there is one, is another.
This is all that later proofs need to know of skipping. -/
theorem skip_spec (w : LineWalk) (line : UInt32) :
    w.lines.toList.drop w.index =
        List.replicate ((w.skip line).index - w.index) line ++
          w.lines.toList.drop (w.skip line).index ∧
      w.lines[(w.skip line).index]? ≠ some line := by
  fun_induction skip w line with
  | case1 w h ih =>
    have hlt := index_le_skip { w with index := w.index + 1 } line
    exact ⟨drop_of_getElem? h hlt ih.1, ih.2⟩
  | case2 w h => simp [h]

/-- If nothing is handed out, there are no lines ahead: the walk does not stop early. -/
theorem drop_eq_nil_of_next? {w behind : LineWalk} (h : w.next? = (none, behind)) :
    w.lines.toList.drop w.index = [] := by
  unfold next? at h
  split at h
  · rename_i hnone
    rw [List.drop_eq_nil_iff, Array.length_toList]
    exact Array.getElem?_eq_none_iff.1 hnone
  · cases h

/-- A run that is handed out starts where the walk stood, with the line there, and it stops where
the walk is left, before another line. It stands for the lines in between. -/
theorem next?_eq_some {w behind : LineWalk} {r : LineRun} (h : w.next? = (some r, behind)) :
    r.start = w.index ∧ r.stop = behind.index ∧ r.start < r.stop ∧
      w.lines[w.index]? = some r.line ∧ behind.lines = w.lines ∧
      w.lines.toList.drop w.index = r.lines ++ w.lines.toList.drop behind.index ∧
      w.lines[behind.index]? ≠ some r.line := by
  unfold next? at h
  split at h
  · cases h
  · rename_i line hline
    cases h
    have hlt := index_le_skip { w with index := w.index + 1 } line
    obtain ⟨hdrop, hother⟩ := skip_spec { w with index := w.index + 1 } line
    exact ⟨rfl, rfl, hlt, hline, lines_skip _ line, drop_of_getElem? hline hlt hdrop, hother⟩

/-- The first run that a walk hands out has the line there. So it is not the run before it that goes
on. -/
theorem line_of_mem_head?_runs {w : LineWalk} {r : LineRun} (h : r ∈ w.runs.head?) :
    w.lines[w.index]? = some r.line := by
  rw [runs] at h
  split at h
  · cases h
  · rename_i hnext
    cases h
    exact (next?_eq_some hnext).2.2.2.1

/-- **What a walk hands out decomposes the lines ahead of it.**

**Proof sketch.** Induction along the walk. The next run starts where the one before it stops, and
there the line is another one. -/
theorem decomposes_runs (w : LineWalk) :
    LineRun.Decomposes w.index (w.lines.toList.drop w.index) w.runs := by
  fun_induction runs w with
  | case1 w behind h =>
    rw [drop_eq_nil_of_next? h]
    exact ⟨by simp, by simp, .nil, by simp, .nil, rfl⟩
  | case2 w r behind h ih =>
    obtain ⟨hstart, hstop, hlt, -, hlines, hdrop, hother⟩ := next?_eq_some h
    rw [hlines] at ih
    have hlength := congrArg List.length hdrop
    rw [List.length_append, LineRun.lines, List.length_replicate] at hlength
    refine ⟨?_, ?_, ?_, ?_, ?_, ?_⟩
    · exact List.forall_mem_cons.2 ⟨hlt, ih.start_lt_stop⟩
    · rintro _ ⟨⟩
      exact hstart
    · exact List.isChain_cons.2
        ⟨fun s hs => (ih.head_start s hs).trans hstop.symm, ih.contiguous⟩
    · intro s hs
      rw [List.getLast?_cons] at hs
      cases hlast : behind.runs.getLast? with
      | none =>
        -- this is the last run, and no lines are left behind it
        have hrest := ih.flatMap_lines
        rw [List.getLast?_eq_none_iff.1 hlast] at hrest
        rw [hlast] at hs
        cases hs
        rw [← hrest, List.flatMap_nil, List.length_nil] at hlength
        simp only [Option.getD_none]
        omega
      | some t =>
        have hstop := ih.last_stop t hlast
        rw [hlast] at hs
        cases hs
        simp only [Option.getD_some]
        omega
    · refine List.isChain_cons.2 ⟨fun s hs heq => hother ?_, ih.maximal⟩
      rw [heq, ← hlines]
      exact line_of_mem_head?_runs hs
    · rw [List.flatMap_cons, ih.flatMap_lines, hdrop]

end LineWalk

/-- **The runs of a chunk are the run-length decomposition of its line table**, the only one there
is. A walk hands them out one at a time, and there are none exactly if there are no lines.

**Proof sketch.** What the walk hands out decomposes the lines, and lines have one decomposition at
most, which is that of their groups of equal neighbours. -/
theorem Chunk.lineRuns_iff (c : Chunk) :
    (LineWalk.ofLines c.lines).runs = c.lineRuns ∧
      (∀ rs, rs = c.lineRuns ↔ LineRun.Decomposes 0 c.lines.toList rs) ∧
      (c.lineRuns = [] ↔ c.lines = #[]) := by
  have hwalk := (LineWalk.ofLines c.lines).decomposes_runs
  have hruns : (LineWalk.ofLines c.lines).runs = c.lineRuns := hwalk.eq_place
  have hdecomposes : LineRun.Decomposes 0 c.lines.toList c.lineRuns := hruns ▸ hwalk
  refine ⟨hruns, fun rs => ⟨fun h => h ▸ hdecomposes, fun h => h.eq_place⟩, fun h => ?_,
    fun h => ?_⟩
  · have hlines := hdecomposes.flatMap_lines
    rw [h] at hlines
    exact Array.toList_eq_nil_iff.1 hlines.symm
  · rw [lineRuns, h]
    rfl

/-- A line that comes back after another one gets a run of its own. -/
example : (Chunk.mk #[] #[123, 123, 124, 123] #[]).lineRuns =
    [⟨0, 2, 123⟩, ⟨2, 3, 124⟩, ⟨3, 4, 123⟩] := by decide

end ChunkMachine
