set_option relaxedAutoImplicit false
set_option autoImplicit false

/-!
# Runs at the front of a list

A reader that passes everything of one class splits a list into its longest run of that class and
what follows. The split is the only one whose second part does not go on with the class.

## Main results

* `Run.takeWhile_append_stop`, `Run.dropWhile_append_stop` — such a split is the one that is read.
* `Run.append_stop_inj` — two such splits of one list are the same.
* `Run.takeWhile_append_cons_stop`, `Run.dropWhile_append_cons_stop` — what comes behind the end of
  a run does not matter.
* `Run.of_mem_takeWhile`, `Run.not_of_head?_dropWhile` — what is read is such a split.
* `Run.length_le_of_append_eq` — no other run at the front is longer.
-/

namespace ChunkMachine.Run

variable {α : Type} {p : α → Bool} {xs ys : List α}

/-- A run that does not go on is the longest one: it ends with the list or before something else. -/
theorem takeWhile_append_stop (hxs : ∀ x ∈ xs, p x) (hys : ∀ y, ys.head? = some y → ¬ p y) :
    (xs ++ ys).takeWhile p = xs := by
  rw [List.takeWhile_append_of_pos hxs]
  cases ys with
  | nil => simp
  | cons y ys => simp [hys y rfl]

/-- What follows a run that does not go on is the rest, with nothing of the class left in front. -/
theorem dropWhile_append_stop (hxs : ∀ x ∈ xs, p x) (hys : ∀ y, ys.head? = some y → ¬ p y) :
    (xs ++ ys).dropWhile p = ys := by
  rw [List.dropWhile_append_of_pos hxs]
  cases ys with
  | nil => rfl
  | cons y ys => simp [hys y rfl]

/-- Two runs that do not go on, at the front of the same list, are the same. So a list is cut in one
way. -/
theorem append_stop_inj {xs' ys' : List α} (hxs : ∀ x ∈ xs, p x) (hxs' : ∀ x ∈ xs', p x)
    (hys : ∀ y, ys.head? = some y → ¬ p y) (hys' : ∀ y, ys'.head? = some y → ¬ p y)
    (h : xs ++ ys = xs' ++ ys') : xs = xs' ∧ ys = ys' := by
  have htake := congrArg (List.takeWhile p) h
  have hdrop := congrArg (List.dropWhile p) h
  rw [takeWhile_append_stop hxs hys, takeWhile_append_stop hxs' hys'] at htake
  rw [dropWhile_append_stop hxs hys, dropWhile_append_stop hxs' hys'] at hdrop
  exact ⟨htake, hdrop⟩

/-- A run ends at the latest where another class begins, whatever comes behind that. -/
theorem takeWhile_append_cons_stop {y : α} (hy : ¬ p y) (xs zs : List α) :
    (xs ++ y :: zs).takeWhile p = xs.takeWhile p := by
  induction xs with
  | nil => simp [hy]
  | cons x xs ih => by_cases hx : p x <;> simp [hx, ih]

/-- What follows a run goes on as far as the list does, even if the run has ended before. -/
theorem dropWhile_append_cons_stop {y : α} (hy : ¬ p y) (xs zs : List α) :
    (xs ++ y :: zs).dropWhile p = xs.dropWhile p ++ y :: zs := by
  induction xs with
  | nil => simp [hy]
  | cons x xs ih => by_cases hx : p x <;> simp [hx, ih]

/-- All of a run is of its class, as long as it is. -/
theorem of_mem_takeWhile {x : α} (h : x ∈ xs.takeWhile p) : p x :=
  List.all_eq_true.1 List.all_takeWhile x h

/-- The rest does not go on with the class, or the run would be longer. -/
theorem not_of_head?_dropWhile {y : α} (h : (xs.dropWhile p).head? = some y) : ¬ p y := by
  have hnot := List.head?_dropWhile_not p xs
  rw [h] at hnot
  simpa using hnot

/-- The rest is at most as long as the list, which is what recursion on it needs. -/
theorem length_dropWhile_le (p : α → Bool) (xs : List α) : (xs.dropWhile p).length ≤ xs.length :=
  (List.dropWhile_sublist p).length_le

/-- No run at the front is longer than the longest one, whether or not it goes on. -/
theorem length_le_of_append_eq {zs : List α} (hxs : ∀ x ∈ xs, p x) (h : xs ++ ys = zs) :
    xs.length ≤ (zs.takeWhile p).length := by
  rw [← h, List.takeWhile_append_of_pos hxs, List.length_append]
  omega

end ChunkMachine.Run
