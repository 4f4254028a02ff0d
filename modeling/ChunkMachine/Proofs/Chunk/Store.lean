import ChunkMachine.Proofs.Chunk.Growth

set_option relaxedAutoImplicit false
set_option autoImplicit false

/-!
# Chunks as stores

A chunk that is changed in place answers each change. A constant is inserted first, and only then is
its index turned into a byte; if that failed, the constant would stay in the pool without an index.
It never fails: the pool is refused one constant earlier. So every constant that is taken keeps its
index until the chunk is cleared, and every refusal leaves the chunk as it was.

## Main definitions

* `Chunk.insertConstant`, `Chunk.insertLoad` — appending in place, one step after another.
* `Chunk.Answer`, `Chunk.attempt` — the answer to a change, and the chunk after it.
* `Chunk.attemptAll` — the chunk after many changes.

## Main results

* `Chunk.insertConstant_eq` — the index of a constant that was inserted is a byte.
* `Chunk.attempt_of_room`, `Chunk.attempt_of_full` — a constant is taken, or it is refused.
* `Chunk.isPrefix_attemptAll` — between clears a chunk only grows.
* `Chunk.store_laws` — the laws of the store along every history of changes.
-/

namespace ChunkMachine.Chunk

/-- An index as a byte, if it fits into one. For the indices of a pool within its limit it does. -/
def indexByte? (index : Nat) : Option UInt8 :=
  if index < UInt8.size then some (UInt8.ofNat index) else none

/-- Inserts a constant in place, unless the pool is full, and gives its index. Whether the index
fits into a byte is found out when the constant is already there. -/
def insertConstant (c : Chunk) (v : Value) : Except PoolFull UInt8 × Chunk :=
  if maxConstants ≤ c.constants.size then (.error .full, c)
  else
    let c := { c with constants := c.constants.push v }
    match indexByte? (c.constants.size - 1) with
    | some index => (.ok index, c)
    | none => (.error .full, c)

/-- Inserts a constant in place and then its load. If the constant is refused the code stays as it
is. -/
def insertLoad (c : Chunk) (v : Value) (line : UInt32) : Except PoolFull UInt8 × Chunk :=
  match c.insertConstant v with
  | (.ok index, c) => (.ok index, (c.pushOpcode .constant line).push index line)
  | (.error e, c) => (.error e, c)

/-- The answer to a change: the index of a constant, or nothing to tell, unless the pool is full.
Changes without a constant have nothing to tell. -/
abbrev Answer := Except PoolFull (Option UInt8)

/-- What a change answers, and the chunk after it. -/
def attempt (c : Chunk) : Edit → Answer × Chunk
  | .push byte line => (.ok none, c.push byte line)
  | .pushOpcode op line => (.ok none, c.pushOpcode op line)
  | .pushConstant v => ((c.insertConstant v).1.map some, (c.insertConstant v).2)
  | .pushLoad v line => ((c.insertLoad v line).1.map some, (c.insertLoad v line).2)
  | .clear => (.ok none, empty)

/-- The chunk after many changes, of which some may have been refused. -/
def attemptAll (c : Chunk) (es : List Edit) : Chunk := es.foldl (fun c e => (c.attempt e).2) c

/-- The constant that a change appends, if it appends one. Those are the changes that can be
refused. -/
def Edit.constant? : Edit → Option Value
  | pushConstant v => some v
  | pushLoad v _ => some v
  | _ => none

/-! ## One change -/

section Change

variable {c : Chunk}

/-- **The index of a constant that was inserted is a byte**, so that inserting in place does what
appending does. -/
theorem insertConstant_eq (c : Chunk) (v : Value) :
    c.insertConstant v = ((c.pushConstant v).map Prod.fst, c.settle (c.pushConstant v)) := by
  unfold insertConstant pushConstant
  by_cases hfull : maxConstants ≤ c.constants.size
  · rw [if_pos hfull, if_neg (Nat.not_lt.2 hfull)]
    rfl
  · have hlt : c.constants.size < UInt8.size := Nat.lt_of_not_le hfull
    have hindex : indexByte? ((c.constants.push v).size - 1) =
        some (UInt8.ofNat c.constants.size) := by
      rw [Array.size_push, Nat.add_sub_cancel, indexByte?, if_pos hlt]
    rw [if_neg hfull, if_pos (Nat.lt_of_not_le hfull)]
    simp only [hindex]
    rfl

/-- So does inserting a constant with its load: the two ways give the same index and the same
chunk. -/
theorem insertLoad_eq (c : Chunk) (v : Value) (line : UInt32) :
    c.insertLoad v line = ((c.pushLoad v line).map Prod.fst, c.settle (c.pushLoad v line)) := by
  unfold insertLoad pushLoad
  rw [insertConstant_eq]
  cases c.pushConstant v <;> rfl

/-- A change in place leaves the chunk that the change makes, so that what is known of chunks that
are built by values holds here. -/
theorem attempt_snd (c : Chunk) (e : Edit) : (c.attempt e).2 = c.apply e := by
  cases e with
  | push byte line => rfl
  | pushOpcode op line => rfl
  | pushConstant v => exact congrArg Prod.snd (c.insertConstant_eq v)
  | pushLoad v line => exact congrArg Prod.snd (c.insertLoad_eq v line)
  | clear => rfl

/-- Below the limit a constant is taken: it becomes the last one, its index is the size that the
pool had, and of the code and the lines nothing is lost.

**Proof sketch.** By the two changes that take a constant. The size of the pool fits into a byte, so
that the index is that size. -/
theorem attempt_of_room {e : Edit} {v : Value} (he : e.constant? = some v)
    (hroom : c.constants.size < maxConstants) :
    ∃ index : UInt8, (c.attempt e).1 = .ok (some index) ∧ index.toNat = c.constants.size ∧
      (c.attempt e).2.constants = c.constants.push v ∧ c.IsPrefix (c.attempt e).2 := by
  have hindex : (UInt8.ofNat c.constants.size).toNat = c.constants.size :=
    UInt8.toNat_ofNat_of_lt' hroom
  have hconstant : c.pushConstant v =
      .ok (UInt8.ofNat c.constants.size, { c with constants := c.constants.push v }) := if_pos hroom
  refine ⟨UInt8.ofNat c.constants.size, ?_, hindex, ?_⟩
  · cases e with
    | pushConstant w =>
      cases he
      rw [attempt, insertConstant_eq, hconstant]
      rfl
    | pushLoad w line =>
      cases he
      rw [attempt, insertLoad_eq, pushLoad, hconstant]
      rfl
    | _ => contradiction
  · rw [attempt_snd]
    cases e with
    | pushConstant w =>
      cases he
      rw [apply, hconstant]
      exact ⟨rfl, List.prefix_refl _, List.prefix_refl _, by simp [settle]⟩
    | pushLoad w line =>
      cases he
      rw [apply, pushLoad, hconstant]
      exact ⟨rfl, by simp [settle, pushOpcode, push], by simp [settle, pushOpcode, push],
        by simp [settle, pushOpcode, push]⟩
    | _ => contradiction

/-- At the limit a constant is refused, and nothing changes: neither the pool nor the code. -/
theorem attempt_of_full {e : Edit} {v : Value} (he : e.constant? = some v)
    (hfull : maxConstants ≤ c.constants.size) : c.attempt e = (.error .full, c) := by
  have hconstant : c.pushConstant v = .error .full := pushConstant_eq_error_iff.2 hfull
  cases e with
  | pushConstant w =>
    cases he
    rw [attempt, insertConstant_eq, hconstant]
    rfl
  | pushLoad w line =>
    cases he
    rw [attempt, insertLoad_eq, pushLoad, hconstant]
    rfl
  | _ => contradiction

/-- A change other than a clear keeps what there is, whether it succeeds or not. -/
theorem isPrefix_attempt {e : Edit} (he : e ≠ .clear) : c.IsPrefix (c.attempt e).2 := by
  cases hconstant : e.constant? with
  | some v =>
    rcases Nat.lt_or_ge c.constants.size maxConstants with hroom | hfull
    · obtain ⟨-, -, -, -, hprefix⟩ := attempt_of_room hconstant hroom
      exact hprefix
    · rw [attempt_of_full hconstant hfull]
      exact .refl c
  | none =>
    cases e with
    | push byte line => exact c.isPrefix_push byte line
    | pushOpcode op line => exact c.isPrefix_push op.toByte line
    | clear => exact absurd rfl he
    | _ => contradiction

end Change

/-! ## Histories -/

section Histories

variable {c : Chunk}

/-- Changes can be made in two lots. -/
theorem attemptAll_append (c : Chunk) (es fs : List Edit) :
    c.attemptAll (es ++ fs) = (c.attemptAll es).attemptAll fs :=
  List.foldl_append

/-- Changes lead from chunks that can come about to such chunks. -/
theorem Reachable.attemptAll (h : c.Reachable) (es : List Edit) : (c.attemptAll es).Reachable := by
  induction es generalizing c with
  | nil => exact h
  | cons e es ih =>
    have hnext : (c.attempt e).2.Reachable := by
      rw [attempt_snd]
      exact h.edited e
    exact ih hnext

/-- **Between clears a chunk only grows**: code, lines and pool keep what there is, and all that is
new comes behind it. The proof goes by induction on the changes. -/
theorem isPrefix_attemptAll {es : List Edit} (h : Edit.clear ∉ es) :
    c.IsPrefix (c.attemptAll es) := by
  induction es generalizing c with
  | nil => exact .refl c
  | cons e es ih =>
    rw [List.mem_cons, not_or] at h
    exact (isPrefix_attempt fun he => h.1 he.symm).trans (ih h.2)

/-- **The laws of the store.** Take a chunk that can come about and change it as often as you like.
At every point there is a line for every code byte, and the pool is within its limit. A further
constant, with its load or without, is taken if and only if the pool is below the limit; it is then
given the size of the pool as its index, and is found there until the next clear. It is refused if
and only if the pool is at the limit, and nothing changes. Until the next clear, code and lines only
grow at their ends.

**Proof sketch.** All chunks that can come about are well formed. A constant that is taken is the
last one of the pool, where it stays since further changes keep what there is. -/
theorem store_laws {start : Chunk} (h : start.Reachable) (before : List Edit) :
    let c := start.attemptAll before
    (c.lines.size = c.code.size ∧ c.constants.size ≤ 256) ∧
    (∀ (e : Edit) (v : Value), e.constant? = some v →
      ((∃ index, (c.attempt e).1 = .ok (some index)) ↔ c.constants.size < 256) ∧
      (∀ index, (c.attempt e).1 = .ok (some index) → index.toNat = c.constants.size ∧
        ∀ after, Edit.clear ∉ after →
          (c.attemptAll (e :: after)).constants[index.toNat]? = some v) ∧
      ((c.attempt e).1 = .error .full ↔ c.constants.size = 256) ∧
      ((c.attempt e).1 = .error .full → (c.attempt e).2 = c)) ∧
    ∀ after, Edit.clear ∉ after →
      c.code.toList <+: (c.attemptAll after).code.toList ∧
        c.lines.toList <+: (c.attemptAll after).lines.toList := by
  intro c
  obtain ⟨hlines, hpool⟩ := (h.attemptAll before).wellFormed
  refine ⟨⟨hlines, hpool⟩, fun e v he => ?_, fun after hafter => ?_⟩
  · rcases Nat.lt_or_ge c.constants.size maxConstants with hroom | hfull
    · obtain ⟨index, hanswer, hindex, hconstants, -⟩ := attempt_of_room he hroom
      refine ⟨⟨fun _ => hroom, fun _ => ⟨index, hanswer⟩⟩, fun index' hanswer' => ?_,
        ⟨fun hrefused => ?_, fun hsize => ?_⟩, fun hrefused => ?_⟩
      · cases hanswer.symm.trans hanswer'
        refine ⟨hindex, fun after hafter => ?_⟩
        have hkept : (c.attempt e).2.constants[index.toNat]? = some v := by
          rw [hconstants, hindex]
          exact Array.getElem?_push_size
        exact IsPrefix.getElem?_mono (isPrefix_attemptAll hafter).constants hkept
      · cases hanswer.symm.trans hrefused
      · exact absurd hroom (Nat.not_lt.2 (Nat.le_of_eq hsize.symm))
      · cases hanswer.symm.trans hrefused
    · have hrefused := attempt_of_full he hfull
      refine ⟨⟨fun ⟨index, hanswer⟩ => ?_, fun hroom => absurd hroom (Nat.not_lt.2 hfull)⟩,
        fun index hanswer => ?_, ⟨fun _ => Nat.le_antisymm hpool hfull, fun _ => ?_⟩, fun _ => ?_⟩
      · rw [hrefused] at hanswer
        cases hanswer
      · rw [hrefused] at hanswer
        cases hanswer
      · rw [hrefused]
      · rw [hrefused]
  · exact ⟨(isPrefix_attemptAll hafter).code, (isPrefix_attemptAll hafter).lines⟩

/-- The last constant that fits has the greatest byte as its index, and keeps it although the next
one is refused. -/
theorem store_laws_last_constant :
    let before := List.replicate 255 (Edit.pushConstant ⟨0⟩)
    let load : Edit := .pushLoad ⟨0xFFF8000000000001⟩ 7
    let after : List Edit := [.pushConstant ⟨1⟩, .pushOpcode .ret 8]
    let c := empty.attemptAll before
    empty.Reachable ∧ load.constant? = some ⟨0xFFF8000000000001⟩ ∧ Edit.clear ∉ after ∧
      (c.attempt load).1 = .ok (some 255) ∧
      (c.attemptAll (load :: after)).constants[255]? = some ⟨0xFFF8000000000001⟩ ∧
      ((c.attempt load).2.attempt (.pushConstant ⟨1⟩)).1 = .error .full := by
  intro before load after c
  have hload : load.constant? = some ⟨0xFFF8000000000001⟩ := rfl
  have hafter : Edit.clear ∉ after := by decide
  have hsize : c.constants.size = 255 := by decide +kernel
  obtain ⟨-, hconstants, -⟩ := store_laws .empty before
  obtain ⟨htaken, hkept, -, -⟩ := hconstants load _ hload
  obtain ⟨index, hanswer⟩ := htaken.2 (by rw [hsize]; decide)
  obtain ⟨hindex, hfound⟩ := hkept index hanswer
  have h255 : index = 255 := UInt8.toNat_inj.1 (hindex.trans hsize)
  subst h255
  -- after the load the pool is at the limit
  obtain ⟨-, hconstants', -⟩ := store_laws .empty (before ++ [load])
  have hnext : empty.attemptAll (before ++ [load]) = (c.attempt load).2 := attemptAll_append _ _ _
  have hfull : (c.attempt load).2.constants.size = 256 := by decide +kernel
  rw [hnext] at hconstants'
  have hrefused := (hconstants' (.pushConstant ⟨1⟩) _ rfl).2.2.1.2 hfull
  exact ⟨.empty, hload, hafter, hanswer, hfound after hafter, hrefused⟩

end Histories

end ChunkMachine.Chunk
