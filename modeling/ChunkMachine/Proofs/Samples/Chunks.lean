import ChunkMachine.Proofs.Chunk.Continuation
import ChunkMachine.Proofs.Chunk.Emission
import ChunkMachine.Proofs.Image.Loading
import ChunkMachine.Proofs.Machine.Trail
import ChunkMachine.Samples

set_option relaxedAutoImplicit false
set_option autoImplicit false

/-!
# Sample chunks of any size

Both families of sample chunks compute arithmetic expressions. A chain is the code of an expression
that is nested on the left, so it needs room for two values however long it is. A tower is nested on
the right and needs room for all of its values; it has one constant in its pool, which all of its
loads index.

## Main definitions

* `Samples.linked` — an expression with links behind it.
* `Samples.nested` — a sum of ones that is nested on the right.

## Main results

* `Samples.chain_eq_chunk` — a chain is the chunk of an expression.
* `Samples.exists_tower` — a tower spells the routine of an expression.
* `Machine.evaluate_samples` — what calls of chains and of towers do.
-/

namespace ChunkMachine

namespace Samples

/-! ## Chains -/

/-- An expression with links behind it, the first of them being number `i`. A link combines it with
a constant and negates the result. -/
def linked (e : Expression) (i : Nat) : Nat → Expression
  | 0 => e
  | n + 1 =>
    let line := UInt32.ofNat (i + 1)
    linked (.negate line (.binary line (linkOp i) e (.constant line (andHalf (i + 1))))) (i + 1) n

/-- The expression that a chain computes. A chain of no constants computes the same as one of a
single constant. -/
def chained (n : Nat) : Expression := linked (.constant 1 one) 1 (n - 1)

/-- Links are appended by appending the expression that has them behind it. What is appended first
is innermost in the expression. -/
theorem links_eq_emit (base : Chunk) (e : Expression) (i n : Nat) :
    (e.emit base >>= fun c => links c i n) = (linked e i n).emit base := by
  induction n generalizing e i with
  | zero => exact bind_pure _
  | succ n ih =>
    rw [linked, ← ih]
    simp only [Expression.emit, bind_assoc]
    refine bind_congr fun c => ?_
    rw [links, Chunk.emit]
    cases c.pushLoad (andHalf (i + 1)) (UInt32.ofNat (i + 1)) <;> rfl

/-- **A chain is the chunk of an expression**, so that what holds of all of these holds of
chains. -/
theorem chain_eq_chunk (n : Nat) :
    chain n = (chained n).chunk (UInt32.ofNat (max n 1 + 1)) := by
  rw [Expression.chunk, chained, ← links_eq_emit, chain, Expression.emit, Chunk.emit]
  cases Chunk.empty.pushLoad one 1 with
  | error e => rfl
  | ok p =>
    obtain ⟨index, c⟩ := p
    simp only [Except.map, bind, Except.bind]
    cases links c 1 (n - 1) <;> rfl

/-- A link adds one constant. The constants are counted as often as they are loaded. -/
theorem leaves_linked (e : Expression) (i n : Nat) : (linked e i n).leaves = e.leaves + n := by
  induction n generalizing e i with
  | zero => rfl
  | succ n ih =>
    rw [linked, ih, Expression.leaves, Expression.leaves, Expression.leaves]
    omega

/-- Links never need room for more than two values: what comes before is a single one when the
constant of a link is loaded. -/
theorem need_linked {e : Expression} (h : e.need ≤ 2) (i n : Nat) : (linked e i n).need ≤ 2 := by
  induction n generalizing e i with
  | zero => exact h
  | succ n ih =>
    refine ih ?_ (i + 1)
    simp only [Expression.need]
    omega

/-- A chain that is too long has more constants than a pool can hold, and there is no other reason
to refuse one. -/
theorem chain_eq (n : Nat) :
    chain n =
      if n ≤ Chunk.maxConstants then
        .ok (Chunk.empty.extend ((chained n).routine ++ [(UInt32.ofNat (max n 1 + 1), .ret)]))
      else .error .full := by
  have hleaves : (chained n).leaves = 1 + (n - 1) := leaves_linked _ _ _
  have hconstants : (Routine.constants
      ((chained n).routine ++ [(UInt32.ofNat (max n 1 + 1), .ret)])).length = 1 + (n - 1) := by
    rw [← hleaves, ← Expression.length_constants_routine]
    simp [Routine.constants, Instruction.constants]
  have hpool : Chunk.empty.constants.size = 0 := rfl
  have hmax : Chunk.maxConstants = 256 := rfl
  have hfits : 0 + (1 + (n - 1)) ≤ Chunk.maxConstants ↔ n ≤ Chunk.maxConstants := by omega
  rw [chain_eq_chunk, Expression.chunk_eq_emitAll,
    Chunk.emitAll_eq Chunk.WellFormed.empty.size_constants, hconstants, hpool]
  simp only [hfits]

/-! ## Towers -/

/-- A sum of ones, nested on the right. It is evaluated from the left, so that all ones are on the
stack before the first addition. -/
def nested : Nat → Expression
  | 0 => .constant 1 one
  | n + 1 => .binary 2 .add (.constant 1 one) (nested n)

/-- The routine of such a sum loads all ones and then adds them up. -/
theorem routine_nested (n : Nat) :
    (nested n).routine =
      List.replicate (n + 1) (1, .load one) ++ List.replicate n (2, .binary .add) := by
  induction n with
  | zero => rfl
  | succ n ih =>
    rw [nested, Expression.routine, Expression.routine, ih, List.append_assoc, List.append_assoc,
      ← List.replicate_succ', List.replicate_succ (n := n + 1)]
    rfl

/-- A sum needs room for all of its ones at once. -/
theorem need_nested (n : Nat) : (nested n).need = n + 1 := by
  induction n with
  | zero => rfl
  | succ n ih =>
    rw [nested, Expression.need, Expression.need, ih]
    omega

/-- Loads of one constant of the pool are loads of its value, however many there are. -/
theorem continues_loads {c : Chunk} (h : c.WellFormed) {index : UInt8} {v : Value}
    (hv : c.constants[index.toNat]? = some v) (n : Nat) :
    c.Continues (List.replicate n (1, .load v)) (loads c index n) := by
  induction n generalizing c with
  | zero => exact .refl h
  | succ n ih =>
    have hload : c.Continues [(1, .load v)] ((c.pushOpcode .constant 1).push index 1) :=
      Chunk.continues_reload h hv
    have hkept := Chunk.IsPrefix.getElem?_mono hload.isPrefix.constants hv
    exact hload.trans (ih hload.wellFormed hkept)

/-- Additions that are appended are additions, however many there are, and need no constants. -/
theorem continues_additions {c : Chunk} (h : c.WellFormed) (n : Nat) :
    c.Continues (List.replicate n (2, .binary .add)) (additions c n) := by
  induction n generalizing c with
  | zero => exact .refl h
  | succ n ih =>
    have hadd : c.Continues [(2, .binary .add)] (c.pushOpcode (.binary .add) 2) :=
      Chunk.continues_pushOpcode h rfl
    exact hadd.trans (ih hadd.wellFormed)

/-- The instructions of a tower: its loads, one addition less, and the return, on three lines. -/
def towerRoutine (n : Nat) : Routine UInt32 :=
  List.replicate n (1, .load one) ++ List.replicate (n - 1) (2, .binary .add) ++ [(3, .ret)]

/-- **A tower spells its routine.** It takes a single constant, so that a tower of any height can be
built. -/
theorem exists_tower (n : Nat) :
    ∃ c, tower n = .ok c ∧ c.WellFormed ∧ c.Spells 0 (towerRoutine n) := by
  let base : Chunk := ⟨#[], #[], #[one]⟩
  have hbase : base.WellFormed := ⟨rfl, by decide⟩
  have hloads : base.Continues (List.replicate n (1, .load one)) (loads base 0 n) :=
    continues_loads hbase rfl n
  let summed := additions (loads base 0 n) (n - 1)
  have hsums := hloads.trans (continues_additions hloads.wellFormed (n - 1))
  have hret : summed.Continues [(3, .ret)] (summed.pushOpcode .ret 3) :=
    Chunk.continues_pushOpcode hsums.wellFormed rfl
  have htower := hsums.trans hret
  exact ⟨_, rfl, htower.wellFormed, htower.spells⟩

/-- The routine of a tower is that of an expression, followed by the return. Without any load there
is only the return. -/
theorem towerRoutine_succ (n : Nat) :
    towerRoutine (n + 1) = (nested n).routine ++ [(3, .ret)] := by
  rw [routine_nested]
  rfl

/-- **A tower overflows at a load**, so its first line is blamed.

**Proof sketch.** The room that the expression needs is the number of its loads. A routine fails
with the fault of one of its instructions, and only loads overflow. -/
theorem interpret_towerRoutine_of_lt {a : Arithmetic} {capacity n : Nat} (h : capacity < n) :
    ((towerRoutine n).interpret a capacity 0 []).result =
      .error (.stackOverflow capacity, 1) := by
  obtain ⟨n, rfl⟩ : ∃ k, n = k + 1 := ⟨n - 1, by omega⟩
  obtain ⟨-, hover⟩ := (nested n).interpret_routine a capacity [(3, .ret)] 0 []
  obtain ⟨line, left, hout⟩ := hover (by rw [need_nested, List.length_nil]; omega)
  rw [← towerRoutine_succ] at hout
  have hfault : ((towerRoutine (n + 1)).interpret a capacity 0 []).result =
      .error (.stackOverflow capacity, line) := congrArg Routine.Outcome.result hout
  rcases Routine.interpret_error_cases hfault with
    ⟨hend, -⟩ | ⟨before, i, after, reached, hp, -, heffect⟩
  · contradiction
  · obtain ⟨v, rfl⟩ := Routine.load_of_effect_overflow heffect
    have hmem : (line, .load v) ∈ towerRoutine (n + 1) :=
      hp ▸ List.mem_append_right _ List.mem_cons_self
    simp only [towerRoutine, List.mem_append, List.mem_replicate, List.mem_singleton,
      Prod.mk.injEq] at hmem
    rcases hmem with (⟨-, rfl, -⟩ | ⟨-, -, hload⟩) | ⟨-, hload⟩
    · exact hfault
    · contradiction
    · contradiction

end Samples

namespace Machine

/-- **A call of a chain** that is not too long returns a value from a room of two, leaves nothing on
the stack, and never has more than two values there.

**Proof sketch.** A chain is the chunk of an expression that needs room for two values. It evaluates
to a value by `Expression.interpret_routine`, and the values along the way are those of its trail,
whose length is bounded by `Expression.length_of_mem_trail`. -/
theorem evaluate_chain {n : Nat} {c : Chunk} (h : Samples.chain n = .ok c) :
    c.defect? = none ∧ ∀ {W : Type} [Output W] (m : Machine W), 2 ≤ m.config.capacity →
      Output.Reliable m.sink → (∃ v, (m.evaluate c).1 = .ok v) ∧
        (m.evaluate c).2.stack.values = [] ∧
        ∀ m' ∈ m.reset :: (m.reset.steps c).map Prod.snd, m'.stack.values.length ≤ 2 := by
  rw [Samples.chain_eq_chunk, Expression.chunk_eq_emitAll] at h
  obtain ⟨-, hc, hspells⟩ := Chunk.spells_of_emitAll .empty h
  refine ⟨Chunk.defect?_eq_none_of_spells hc hspells, fun m hcapacity hsink => ?_⟩
  have hneed : (Samples.chained n).need ≤ 2 := Samples.need_linked (by decide) 1 (n - 1)
  have hroom : ([] : List Value).length + (Samples.chained n).need ≤ m.config.capacity := by
    rw [List.length_nil]
    omega
  obtain ⟨hresult, -, hvalues⟩ := evaluate_spelled hc hspells m hsink
  rw [((Samples.chained n).interpret_routine _ _ _ _ _).1 hroom] at hresult hvalues
  refine ⟨⟨_, hresult⟩, hvalues, List.forall_mem_cons.2 ⟨Nat.zero_le _, fun m' hm' => ?_⟩⟩
  -- the values of all machines on the way, and not only of the last one, are on the trail
  have htrail := map_values_steps (m := m.reset) hspells rfl hsink
  have hleft : m'.stack.values ∈ (m.reset.steps c).map fun s => s.2.stack.values := by
    obtain ⟨s, hs, rfl⟩ := List.mem_map.1 hm'
    exact List.mem_map.2 ⟨s, hs, rfl⟩
  rw [htrail] at hleft
  rcases Expression.length_of_mem_trail hroom hleft with hle | hlast
  · rw [List.length_nil] at hle
    omega
  · -- the return leaves nothing
    rw [List.mem_singleton.1 hlast]
    exact Nat.zero_le _

/-- **A call of a tower** returns a value and leaves nothing on the stack if there is room for all
loads. With less room it overflows on the first line, and without any loads it lacks a value for its
return on the third line, on every output. -/
theorem evaluate_tower (n : Nat) :
    ∃ c, Samples.tower n = .ok c ∧ c.defect? = none ∧
      ∀ {W : Type} [Output W] (m : Machine W),
        (1 ≤ n → n ≤ m.config.capacity → Output.Reliable m.sink →
          (∃ v, (m.evaluate c).1 = .ok v) ∧ (m.evaluate c).2.stack.values = []) ∧
        (m.config.capacity < n →
          (m.evaluate c).1 = .error ⟨.stackOverflow m.config.capacity, 1⟩) ∧
        (n = 0 → (m.evaluate c).1 = .error ⟨.stackUnderflow, 3⟩) := by
  obtain ⟨c, htower, hc, hspells⟩ := Samples.exists_tower n
  refine ⟨c, htower, Chunk.defect?_eq_none_of_spells hc hspells,
    fun m => ⟨fun hpos hroom hsink => ?_, fun hover => ?_, ?_⟩⟩
  · obtain ⟨n, rfl⟩ : ∃ k, n = k + 1 := ⟨n - 1, by omega⟩
    obtain ⟨hresult, -, hvalues⟩ := evaluate_spelled hc hspells m hsink
    have hneed : ([] : List Value).length + (Samples.nested n).need ≤ m.config.capacity := by
      rw [Samples.need_nested, List.length_nil]
      omega
    rw [Samples.towerRoutine_succ, ((Samples.nested n).interpret_routine _ _ _ _ _).1 hneed]
      at hresult hvalues
    exact ⟨⟨_, hresult⟩, hvalues⟩
  · exact evaluate_spelled_error hc hspells m (Samples.interpret_towerRoutine_of_lt hover)
  · rintro rfl
    exact evaluate_spelled_error hc hspells m rfl

/-- **Sample chunks are well formed, of every size.** A chain with more constants than a pool can
hold is refused. All other chains have no defect, and a call of one with room for two values and an
output that never fails returns a value, leaves nothing on the stack, and has at most two values
there at any time. Every tower is built and has no defect, and a call of it

* returns a value and leaves nothing on the stack, if the tower has a load and there is room for all
  of its loads;
* overflows on the first line with less room;
* lacks a value on the third line if the tower has no load. -/
theorem evaluate_samples :
    (∀ n, 256 < n → Samples.chain n = .error .full) ∧
    (∀ n ≤ 256, ∃ c, Samples.chain n = .ok c ∧ c.defect? = none ∧
      ∀ {W : Type} [Output W] (m : Machine W), 2 ≤ m.config.capacity → Output.Reliable m.sink →
        (∃ v, (m.evaluate c).1 = .ok v) ∧ (m.evaluate c).2.stack.values = [] ∧
          ∀ m' ∈ m.reset :: (m.reset.steps c).map Prod.snd, m'.stack.values.length ≤ 2) ∧
    ∀ n, ∃ c, Samples.tower n = .ok c ∧ c.defect? = none ∧
      ∀ {W : Type} [Output W] (m : Machine W),
        (1 ≤ n → n ≤ m.config.capacity → Output.Reliable m.sink →
          (∃ v, (m.evaluate c).1 = .ok v) ∧ (m.evaluate c).2.stack.values = []) ∧
        (m.config.capacity < n →
          (m.evaluate c).1 = .error ⟨.stackOverflow m.config.capacity, 1⟩) ∧
        (n = 0 → (m.evaluate c).1 = .error ⟨.stackUnderflow, 3⟩) := by
  refine ⟨fun n hlong => ?_, fun n hfits => ?_, evaluate_tower⟩
  · exact (Samples.chain_eq n).trans (if_neg (Nat.not_le_of_gt hlong))
  · have hchain := (Samples.chain_eq n).trans (if_pos hfits)
    exact ⟨_, hchain, evaluate_chain hchain⟩

/-- At the bounds: the longest chain runs in a room of two and the next one is refused, and a tower
of three runs in a room of three, but not in a room of two. -/
theorem evaluate_samples_bounds :
    let m (capacity : Nat) := new ⟨capacity, false, .ieee⟩ .unlimited
    (256 < 257 ∧ Samples.chain 257 = .error .full) ∧
    (∃ c, Samples.chain 256 = .ok c ∧ 2 ≤ (m 2).config.capacity ∧ Output.Reliable (m 2).sink ∧
      (∃ v, ((m 2).evaluate c).1 = .ok v) ∧ ((m 2).evaluate c).2.stack.values = []) ∧
    (∃ c, Samples.tower 3 = .ok c ∧ 3 ≤ (m 3).config.capacity ∧
      (∃ v, ((m 3).evaluate c).1 = .ok v) ∧ (m 2).config.capacity < 3 ∧
      ((m 2).evaluate c).1 = .error ⟨.stackOverflow 2, 1⟩) ∧
    ∃ c, Samples.tower 0 = .ok c ∧ ((m 0).evaluate c).1 = .error ⟨.stackUnderflow, 3⟩ := by
  intro m
  obtain ⟨hlong, hchains, htowers⟩ := evaluate_samples
  obtain ⟨c, hc, -, hcall⟩ := hchains 256 (Nat.le_refl _)
  obtain ⟨hvalue, hvalues, -⟩ := hcall (m 2) (Nat.le_refl _) Sink.reliable_unlimited
  obtain ⟨d, hd, -, htower⟩ := htowers 3
  obtain ⟨e, he, -, hempty⟩ := htowers 0
  exact ⟨⟨by decide, hlong 257 (by decide)⟩,
    ⟨c, hc, Nat.le_refl _, Sink.reliable_unlimited, hvalue, hvalues⟩,
    ⟨d, hd, Nat.le_refl _,
      ((htower (m 3)).1 (by decide) (Nat.le_refl _) Sink.reliable_unlimited).1,
      Nat.lt_succ_self _, (htower (m 2)).2.1 (Nat.lt_succ_self _)⟩,
    e, he, (hempty (m 0)).2.2 rfl⟩

end Machine

end ChunkMachine
