import ChunkMachine.Proofs.Chunk.Offsets
import ChunkMachine.Proofs.Machine.Steps

set_option relaxedAutoImplicit false
set_option autoImplicit false

/-!
# Machines and listings walk alike

A listing, the list of offsets and a machine each find out on their own where instructions start.
On every chunk they agree, on malformed ones too: only that a machine may stop early, and that it
may look for one more instruction behind the code.

## Main results

* `Machine.Run.starts_cases` — a run starts its steps at the offsets of the chunk, in order.
* `Machine.walks_agree` — the three walks over a chunk.
-/

namespace ChunkMachine.Machine

variable {W : Type} [Output W]

/-- **The steps of a run** start at the offsets of the chunk from the instruction pointer on, one
after another, until one of them ends the run. If none does, the machine faults behind the code.

**Proof sketch.** Induction on the run. A step that lets the run go on passes a whole instruction,
and so does the walk over the code. A step that ends it starts at the first offset of the walk that
is left, or behind the code, where nothing is left. -/
theorem Run.starts_cases {c : Chunk} {m : Machine W} {ss : List (StepResult × Machine W)}
    {out : Except Fault Value × Machine W} (h : Run c m ss out) (hip : m.ip ≤ c.code.size) :
    ss.map (fun s => s.2.current) <+: c.offsetsFrom m.ip ∨
      ss.map (fun s => s.2.current) = c.offsetsFrom m.ip ++ [c.code.size] ∧
        out.1 = .error .endOfCode := by
  induction h with
  | @last m m' r h =>
    simp only [List.map_cons, List.map_nil, current_of_step h]
    rcases Nat.lt_or_eq_of_le hip with hlt | hend
    · rw [Chunk.offsetsFrom_of_lt hlt]
      exact .inl ⟨_, rfl⟩
    · have hfetch := Chunk.fetch_of_size_le (Nat.le_of_eq hend.symm)
      rcases m.step_ends c with ⟨i, hi, -⟩ | ⟨f, hf, hends⟩
      · rw [hfetch] at hi
        contradiction
      · rw [hfetch] at hf
        cases hf
        rw [h] at hends
        refine .inr ⟨by rw [hend, Chunk.offsetsFrom_of_size_le (Nat.le_refl _)]; rfl, ?_⟩
        cases r with
        | ok v => contradiction
        | error f => cases hends; rfl
  | @next m m' ss out h hrest ih =>
    obtain ⟨i, hi, -, hip'⟩ := step_running h
    have hsize : m'.ip ≤ c.code.size := hip' ▸ (Chunk.opcode_of_fetch_ok hi).2
    simp only [List.map_cons, current_of_step h]
    rw [Chunk.offsetsFrom_of_fetch_ok hi, ← hip']
    rcases ih hsize with hprefix | ⟨hall, hend⟩
    · exact .inl (List.prefix_cons_inj _ |>.2 hprefix)
    · exact .inr ⟨by rw [hall]; rfl, hend⟩

/-- A call ends with the machine of its run. This and the next law turn a fact about calls into one
about runs. -/
theorem evaluate_snd (m : Machine W) (c : Chunk) : (m.evaluate c).2 = (m.reset.run c).2 := by
  unfold evaluate
  split <;> simp_all

/-- The error of a call is the fault of its run, with the line of the last step. -/
theorem evaluate_fst (m : Machine W) (c : Chunk) :
    (m.evaluate c).1 =
      (m.reset.run c).1.mapError fun f => ⟨f, lineOf c (m.reset.run c).2.current⟩ := by
  unfold evaluate
  split
  · rename_i heq
    rw [heq]
    rfl
  · rename_i heq
    rw [heq]
    rfl

/-- A call gives a value exactly if its run does. The line of the last step plays no part then. -/
theorem evaluate_fst_eq_ok_iff {m : Machine W} {c : Chunk} {v : Value} :
    (m.evaluate c).1 = .ok v ↔ (m.reset.run c).1 = .ok v := by
  unfold evaluate
  split
  · rename_i w m' h
    simp [h]
  · rename_i f m' h
    simp [h]

/-- A call gives an error exactly if its run faults, with the line of the last step. Both directions
are used: to find out how a call failed, and to show that it fails so. -/
theorem evaluate_fst_eq_error_iff {m : Machine W} {c : Chunk} {e : RuntimeError} :
    (m.evaluate c).1 = .error e ↔
      (m.reset.run c).1 = .error e.fault ∧ e.line = lineOf c (m.reset.run c).2.current := by
  unfold evaluate
  split
  · simp_all
  · rename_i f m' h
    obtain ⟨fault, line⟩ := e
    simp [h, eq_comm]

/-- The last step of a call starts where its machine is left. So the place where a call ended can be
read off the machine. -/
theorem getLast?_starts (m : Machine W) (c : Chunk) :
    (m.starts c).getLast? = some (m.run c).2.current := by
  rw [starts, List.getLast?_map, (m.run_steps c).getLast?]
  rfl

/-- **Three walks over a chunk**, of any shape. A listing shows the instructions at the offsets of
the chunk, which start with the code, increase and stay within it. A call starts its steps at these
offsets too, one after another and up to the last step it makes. Only behind all of them it may
start one more step at the end of the code, and then it ends for want of code.

**Proof sketch.** The rows of a listing are `Listing.rows_eq`. The steps of a call are those of a
run that starts at offset zero, so `Run.starts_cases` applies. -/
theorem walks_agree (c : Chunk) :
    ((Listing.rows c).map Listing.Row.offset = c.offsets ∧
      (∀ name, Listing.render c name =
        s!"== {name} ==\n" ++ Listing.unlines (c.offsets.map (Listing.rowAt c))) ∧
      c.offsets.head? = (if 0 < c.code.size then some 0 else none) ∧
      c.offsets.Pairwise (· < ·) ∧ ∀ offset ∈ c.offsets, offset < c.code.size) ∧
    ∀ {W : Type} [Output W] (m : Machine W),
      (m.reset.starts c).getLast? = some (m.evaluate c).2.current ∧
      (m.reset.starts c <+: c.offsets ∨
        m.reset.starts c = c.offsets ++ [c.code.size] ∧
          ∃ line, (m.evaluate c).1 = .error ⟨.endOfCode, line⟩) := by
  refine ⟨⟨?_, fun name => ?_, c.head?_offsets, c.pairwise_offsets,
    fun _ => Chunk.lt_size_of_mem_offsets⟩, fun m => ⟨?_, ?_⟩⟩
  · rw [Listing.rows_eq, List.map_map]
    exact List.map_id _
  · rw [Listing.render, Listing.rows_eq, List.map_map]
    rfl
  · rw [evaluate_snd, getLast?_starts]
  · rcases (m.reset.run_steps c).starts_cases (Nat.zero_le _) with hprefix | ⟨hall, hend⟩
    · exact .inl hprefix
    · exact .inr ⟨hall, _, evaluate_fst_eq_error_iff.2 ⟨hend, rfl⟩⟩

/-- A load whose operand is cut off, behind a load that is whole: both are listed, and a machine
with room for the first value starts both and stays within the code. It faults at the second one for
want of code, though it has not passed all of it. -/
theorem walks_agree_cut_load :
    let c : Chunk := ⟨#[0, 0, 0], #[1, 1, 2], #[⟨0⟩]⟩
    let m := new ⟨1, false, .ieee⟩ .unlimited
    (2 ∈ c.offsets ∧ 2 < c.code.size) ∧ (Listing.rows c).map Listing.Row.offset = [0, 2] ∧
      m.reset.starts c = [0, 2] ∧ (m.evaluate c).2.current = 2 := by
  intro c m
  have hoffsets : c.offsets = [0, 2] := by decide +kernel
  have hstarts : m.reset.starts c = [0, 2] := by decide +kernel
  have hmem : 2 ∈ c.offsets := by simp [hoffsets]
  obtain ⟨⟨hrows, -, -, -, hlt⟩, hcall⟩ := walks_agree c
  have hlast := (hcall m).1
  rw [hstarts] at hlast
  exact ⟨⟨hmem, hlt 2 hmem⟩, hrows.trans hoffsets, hstarts, (Option.some.inj hlast).symm⟩

end ChunkMachine.Machine
