import ChunkMachine.Chunk.Basic

set_option relaxedAutoImplicit false
set_option autoImplicit false

/-!
# Runs of lines

Neighbouring code bytes mostly stem from one source line. The line table of a chunk is shown as its
maximal runs of equal lines. They can also be handed out one at a time, by a walk that looks ahead
as far as the line stays the same.

## Main definitions

* `LineRun` — a range of offsets that share a line.
* `LineRun.ofLines` — the maximal runs of a line table, in order.
* `LineWalk.next?` — the next run of a line table.
* `LineWalk.runs` — all runs that are left.
-/

namespace ChunkMachine

/-- The offsets from `start` up to, but without, `stop` stem from `line`. -/
structure LineRun where
  /-- The first offset of the run. -/
  start : Nat
  /-- The offset behind its last one. -/
  stop : Nat
  /-- The line that all of them stem from. -/
  line : UInt32
  deriving DecidableEq, Repr

namespace LineRun

/-- Lays groups of equal lines one after another, the first at offset `start`. A group without lines
takes no offsets and makes no run. -/
def place (start : Nat) : List (List UInt32) → List LineRun
  | [] => []
  | [] :: groups => place start groups
  | (line :: rest) :: groups =>
    let stop := start + rest.length + 1
    ⟨start, stop, line⟩ :: place stop groups

/-- The maximal runs of equal lines in a line table: neighbours of different lines are parted, and
each group is laid behind the one before. -/
def ofLines (lines : List UInt32) : List LineRun := place 0 (lines.splitBy (· == ·))

end LineRun

/-! ## One run at a time -/

/-- A walk along the runs of a line table: the table, and the offset at which the next run
starts. -/
structure LineWalk where
  /-- The line table that is walked along. -/
  lines : Array UInt32
  /-- The offset at which the next run starts. -/
  index : Nat

namespace LineWalk

/-- The walk from the start of a line table. -/
def ofLines (lines : Array UInt32) : LineWalk := ⟨lines, 0⟩

/-- Passes the entries ahead that are `line`. -/
def skip (w : LineWalk) (line : UInt32) : LineWalk :=
  if w.lines[w.index]? = some line then skip { w with index := w.index + 1 } line else w
termination_by w.lines.size - w.index
decreasing_by
  have := (Array.getElem?_eq_some_iff.1 ‹_›).1
  omega

/-- Passing entries does not change the table. -/
@[simp] theorem lines_skip (w : LineWalk) (line : UInt32) : (w.skip line).lines = w.lines := by
  fun_induction skip w line with
  | case1 w h ih => exact ih
  | case2 => rfl

/-- Passing entries never goes back. -/
theorem index_le_skip (w : LineWalk) (line : UInt32) : w.index ≤ (w.skip line).index := by
  fun_induction skip w line with
  | case1 w h ih => exact Nat.le_trans (Nat.le_succ _) ih
  | case2 => exact Nat.le_refl _

/-- The next run, as long as there are lines ahead, and the walk behind it. The run is as long as
the entries ahead are the same. -/
def next? (w : LineWalk) : Option LineRun × LineWalk :=
  match w.lines[w.index]? with
  | none => (none, w)
  | some line =>
    let behind := { w with index := w.index + 1 }.skip line
    (some ⟨w.index, behind.index, line⟩, behind)

/-- A run takes entries away from those ahead, so that a walk ends. -/
theorem size_sub_index_lt {w behind : LineWalk} {r : LineRun} (h : w.next? = (some r, behind)) :
    behind.lines.size - behind.index < w.lines.size - w.index := by
  unfold next? at h
  split at h
  · cases h
  · rename_i line hline
    cases h
    have hlt := (Array.getElem?_eq_some_iff.1 hline).1
    have hle := index_le_skip { w with index := w.index + 1 } line
    rw [lines_skip]
    simp only at hle ⊢
    omega

/-- All runs that are left, taken one after another. -/
def runs (w : LineWalk) : List LineRun :=
  match _h : w.next? with
  | (none, _) => []
  | (some r, behind) => r :: behind.runs
termination_by w.lines.size - w.index
decreasing_by exact size_sub_index_lt _h

end LineWalk

/-- The maximal runs of lines of a chunk. -/
def Chunk.lineRuns (c : Chunk) : List LineRun := LineRun.ofLines c.lines.toList

end ChunkMachine
