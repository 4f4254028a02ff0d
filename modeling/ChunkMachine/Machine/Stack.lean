import ChunkMachine.Machine.Fault
import ChunkMachine.Value

set_option relaxedAutoImplicit false
set_option autoImplicit false

/-!
# The operand stack

A stack of values that never holds more of them than its capacity. The topmost value comes first.

## Main definitions

* `Stack` — the values, within a capacity.
* `Stack.push`, `Stack.pop`, `Stack.peek`, `Stack.clear` — its operations.

## Main results

* `Stack.ext` — a stack is its capacity and its values.
* `Stack.push_eq_ok_iff` — a push succeeds exactly below the capacity, and adds its value.
* `Stack.pop_eq_ok_iff` — a pop succeeds exactly on a value, and takes it away.
-/

namespace ChunkMachine

/-- Values within a capacity, the topmost first. Their number is kept beside them, so that a push
need not count them. -/
structure Stack where
  /-- How many values there may be. -/
  capacity : Nat
  /-- The values, the topmost first. -/
  values : List Value
  /-- How many values there are. -/
  height : Nat
  /-- The height is the number of the values. -/
  height_eq : height = values.length
  /-- There are no more of them than there may be. -/
  height_le : height ≤ capacity
  deriving DecidableEq, Repr

namespace Stack

/-- The stack without values. Its capacity may be zero, and then nothing can be pushed. -/
def empty (capacity : Nat) : Stack := ⟨capacity, [], 0, rfl, Nat.zero_le _⟩

/-- The stack without its topmost value. A stack without values stays what it is. -/
def tail (s : Stack) : Stack where
  capacity := s.capacity
  values := s.values.tail
  height := s.height - 1
  height_eq := by simp [s.height_eq]
  height_le := Nat.le_trans (Nat.sub_le _ _) s.height_le

/-- Puts a value on top, unless the stack is full. -/
def push (s : Stack) (v : Value) : Except Fault Stack :=
  if h : s.height < s.capacity then
    .ok ⟨s.capacity, v :: s.values, s.height + 1, by simp [s.height_eq], h⟩
  else .error (.stackOverflow s.capacity)

/-- The topmost value, which stays where it is. -/
def peek (s : Stack) : Except Fault Value :=
  match s.values with
  | [] => .error .stackUnderflow
  | v :: _ => .ok v

/-- Takes the topmost value away, if there is one. -/
def pop (s : Stack) : Except Fault (Value × Stack) := s.peek.map fun v => (v, s.tail)

/-- The stack without values, with the same capacity. -/
def clear (s : Stack) : Stack := empty s.capacity

/-- The values from the bottom to the top, the order in which they were pushed and in which a trace
shows them. -/
def bottomUp (s : Stack) : List Value := s.values.reverse

/-! ## Small laws -/

/-- A stack is its capacity and its values. The height need not be compared, as it follows from the
values. -/
@[ext] theorem ext {s t : Stack} (hc : s.capacity = t.capacity) (hv : s.values = t.values) :
    s = t := by
  obtain ⟨_, _, _, hs, _⟩ := s
  obtain ⟨_, _, _, ht, _⟩ := t
  simp only at hc hv
  subst hc hv hs ht
  rfl

/-- A push succeeds exactly below the capacity, and adds its value on top. With the three laws
below, what stacks do is told by their values, and `Stack` need not be opened again. -/
theorem push_eq_ok_iff {s s' : Stack} {v : Value} :
    s.push v = .ok s' ↔
      s.values.length < s.capacity ∧ s'.capacity = s.capacity ∧ s'.values = v :: s.values := by
  unfold push
  rw [← s.height_eq]
  split
  · rename_i h
    constructor
    · rintro ⟨⟩
      exact ⟨h, rfl, rfl⟩
    · rintro ⟨-, hc, hv⟩
      exact congrArg Except.ok (Stack.ext hc.symm hv.symm)
  · exact ⟨fun h => (nomatch h), fun h => absurd h.1 ‹_›⟩

/-- A push fails exactly at the capacity, and the fault names it. -/
theorem push_eq_error_iff {s : Stack} {v : Value} {f : Fault} :
    s.push v = .error f ↔ s.values.length = s.capacity ∧ f = .stackOverflow s.capacity := by
  have := s.height_le
  unfold push
  rw [← s.height_eq]
  split
  · exact ⟨fun h => (nomatch h), fun h => by omega⟩
  · constructor
    · rintro ⟨⟩
      exact ⟨by omega, rfl⟩
    · rintro ⟨-, rfl⟩
      rfl

/-- A pop succeeds exactly on a value, and takes it away. -/
theorem pop_eq_ok_iff {s s' : Stack} {v : Value} :
    s.pop = .ok (v, s') ↔ s.values = v :: s'.values ∧ s'.capacity = s.capacity := by
  unfold pop peek
  cases h : s.values with
  | nil => simp [Except.map]
  | cons w ws =>
    simp only [Except.map, Except.ok.injEq, Prod.mk.injEq, List.cons.injEq]
    constructor
    · rintro ⟨rfl, rfl⟩
      exact ⟨⟨rfl, by simp [tail, h]⟩, rfl⟩
    · rintro ⟨⟨rfl, hv⟩, hc⟩
      exact ⟨rfl, Stack.ext hc.symm (by simp [tail, h, hv])⟩

/-- A pop fails exactly on the stack without values, and in one way only. -/
theorem pop_eq_error_iff {s : Stack} {f : Fault} :
    s.pop = .error f ↔ s.values = [] ∧ f = .stackUnderflow := by
  unfold pop peek
  cases h : s.values with
  | nil => simp [Except.map, eq_comm]
  | cons w ws => simp [Except.map]

end Stack

end ChunkMachine
