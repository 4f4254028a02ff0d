import ChunkMachine.Image
import ChunkMachine.Proofs.Machine.Walk

set_option relaxedAutoImplicit false
set_option autoImplicit false

/-!
# The load gate

An image is run only if its chunk has no defect. The check reads the code once, before it runs; the
machine finds out where instructions start while it runs. Since both walk alike, the check is
enough: code that passed it never makes the machine fail for what is written in the code.

## Main definitions

* `Chunk.HoldsReturn` — a chunk with a return instruction.
* `Fault.Dynamic` — the faults that depend on what a program computes.

## Main results

* `Machine.evaluate_cases` — how a call of a chunk without defects ends.
* `Machine.evaluate_of_checked` — what it never ends with.
-/

namespace ChunkMachine

/-- Some instruction of a chunk is a return. An operand that happens to be the byte of a return does
not count. -/
def Chunk.HoldsReturn (c : Chunk) : Prop :=
  ∃ offset ∈ c.offsets, c.code[offset]? = some Opcode.ret.toByte

/-- A fault of the stack or of the sink: it depends on what a program computes, and not on how its
code is written. -/
inductive Fault.Dynamic : Fault → Prop where
  /-- An operand is missing on the stack. -/
  | underflow : Dynamic .stackUnderflow
  /-- There is no room on the stack. -/
  | overflow (capacity : Nat) : Dynamic (.stackOverflow capacity)
  /-- The result cannot be written. -/
  | output (cause : SinkFault) : Dynamic (.output cause)

/-- A chunk that was loaded has no defect, since loading has checked it. -/
theorem Image.defect?_eq_none_of_load {image : List UInt8} {c : Chunk} (h : load image = .ok c) :
    c.defect? = none := by
  unfold load at h
  split at h
  · contradiction
  · split at h
    · contradiction
    · cases h
      assumption

/-- The faults of instructions that were fetched are dynamic. All others are found in fetching. -/
theorem Instruction.Ends.dynamic {i : Instruction} {f : Fault} (h : i.Ends (.faulted f)) :
    f.Dynamic := by
  cases h with
  | underflow => exact .underflow
  | overflow v capacity => exact .overflow capacity
  | output cause => exact .output cause

namespace Machine

variable {W : Type} [Output W]

/-- If all offsets of a chunk without defects were passed, then none of them holds a return: a step
at a return ends the run there. -/
theorem not_holdsReturn_of_starts {m : Machine W} {c : Chunk}
    (hall : m.starts c = c.offsets ++ [c.code.size]) : ¬ c.HoldsReturn := by
  rintro ⟨offset, hoffset, hbyte⟩
  have hpassed : offset ∈ (m.starts c).dropLast := by rwa [hall, List.dropLast_concat]
  obtain ⟨i, hi, hret⟩ := (m.run_steps c).fetch_of_mem_dropLast hpassed
  rw [(Chunk.opcode_of_fetch_ok hi).1] at hbyte
  have hop : i.opcode = .ret := Opcode.toByte_injective (Option.some.inj hbyte)
  cases i <;> contradiction

/-- **A call of a chunk without defects** gives a value, or it fails on the stack or on the sink, or
it passes all instructions, none of them a return, and fails at the end of the code.

**Proof sketch.** The last step of the call starts at an offset of the chunk or at the end of the
code. At an offset there is a whole instruction, so the call ends in a way of that instruction. -/
theorem evaluate_cases {c : Chunk} (h : c.defect? = none) (m : Machine W) :
    (∃ v, (m.evaluate c).1 = .ok v) ∨
      ∃ e, (m.evaluate c).1 = .error e ∧
        (e.fault.Dynamic ∨
          e.fault = .endOfCode ∧ m.reset.starts c = c.offsets ++ [c.code.size] ∧
            ¬ c.HoldsReturn) := by
  cases hresult : (m.evaluate c).1 with
  | ok v => exact .inl ⟨v, rfl⟩
  | error e =>
    refine .inr ⟨e, rfl, ?_⟩
    obtain ⟨hfault, -⟩ := evaluate_fst_eq_error_iff.1 hresult
    have hrun := m.reset.run_steps c
    rcases hrun.starts_cases (Nat.zero_le _) with hprefix | ⟨hall, hend⟩
    · have hlast : (m.reset.run c).2.current ∈ c.offsets :=
        hprefix.subset (List.mem_of_getLast? (getLast?_starts _ c))
      obtain ⟨i, hi⟩ := Chunk.exists_fetch_ok_of_mem_offsets h hlast
      rcases hrun.fault_cases hfault with hfetch | ⟨i, -, hends⟩
      · rw [hi] at hfetch
        contradiction
      · exact .inl hends.dynamic
    · rw [hfault] at hend
      exact .inr ⟨Except.error.inj hend, hall, not_holdsReturn_of_starts hall⟩

/-- **The load gate is sound**: a chunk that was loaded, or that has no defect, never makes a call
fail with an unknown opcode or with a constant out of range. It fails at the end of the code only
after it has passed all of it, and only if there is no return; if there is one, the call gives a
value or fails on the stack or on the sink.

**Proof sketch.** Each part excludes some of the cases of `evaluate_cases`. -/
theorem evaluate_of_checked {c : Chunk}
    (h : (∃ image, Image.load image = .ok c) ∨ c.defect? = none) (m : Machine W) :
    (∀ e, (m.evaluate c).1 = .error e →
      (∀ byte, e.fault ≠ .unknownOpcode byte) ∧
      (∀ index poolSize, e.fault ≠ .constantOutOfRange index poolSize) ∧
      (e.fault = .endOfCode →
        ¬ c.HoldsReturn ∧ m.reset.starts c = c.offsets ++ [c.code.size])) ∧
    (c.HoldsReturn →
      (∃ v, (m.evaluate c).1 = .ok v) ∨
        ∃ e, (m.evaluate c).1 = .error e ∧ e.fault.Dynamic) := by
  have hnone : c.defect? = none := by
    rcases h with ⟨image, himage⟩ | h
    · exact Image.defect?_eq_none_of_load himage
    · exact h
  refine ⟨fun e he => ?_, fun hreturn => ?_⟩
  · rcases evaluate_cases hnone m with ⟨v, hv⟩ | ⟨e', he', hcases⟩
    · rw [he] at hv
      contradiction
    · rw [he] at he'
      cases he'
      obtain ⟨fault, line⟩ := e
      rcases hcases with hdynamic | ⟨rfl, hall, hno⟩
      · cases hdynamic <;> simp
      · exact ⟨by simp, by simp, fun _ => ⟨hno, hall⟩⟩
  · rcases evaluate_cases hnone m with hv | ⟨e, he, hdynamic | ⟨-, -, hno⟩⟩
    · exact .inl hv
    · exact .inr ⟨e, he, hdynamic⟩
    · exact absurd hreturn hno

/-- Without room on the stack a checked program still ends in one of the ways left to it. It has a
return, and fails on the stack before it comes there. -/
theorem evaluate_of_checked_without_room :
    let c : Chunk := ⟨#[0, 0, 6], #[1, 1, 2], #[⟨0⟩]⟩
    let m := new ⟨0, false, .ieee⟩ .unlimited
    c.defect? = none ∧ c.HoldsReturn ∧
      ((∃ v, (m.evaluate c).1 = .ok v) ∨
        ∃ e, (m.evaluate c).1 = .error e ∧ e.fault.Dynamic) := by
  intro c m
  have hnone : c.defect? = none := by decide +kernel
  have hoffset : 2 ∈ c.offsets := by decide +kernel
  have hreturn : c.HoldsReturn := ⟨2, hoffset, rfl⟩
  exact ⟨hnone, hreturn, (evaluate_of_checked (.inr hnone) m).2 hreturn⟩

end Machine

end ChunkMachine
