import ChunkMachine.Proofs.Machine.Frame

set_option relaxedAutoImplicit false
set_option autoImplicit false

/-!
# Histories of calls

A machine is asked for one thing after another: to run a chunk for its value, to run a chunk and
remember how that went, to scan source text. Nothing of what it was asked before shows in the next
run but the records it made, and what it remembers is the error of the last request that it was to
remember.

## Main definitions

* `Machine.Request`, `Machine.serve`, `Machine.serveAll` — what a machine can be asked for, and the
  machine after one request and after many.
* `Machine.Report`, `Machine.reports` — how the requests that are remembered end.

## Main results

* `Machine.failure_serveAll` — what a machine remembers is the error of its last report.
* `Machine.evaluate_after_requests` — the run after any requests is that of a fresh machine.
-/

namespace ChunkMachine.Machine

variable {W : Type} [Output W]

/-- What a machine can be asked for. These are all ways to use a machine from outside, and they can
come in any order. -/
inductive Request where
  /-- To run a chunk for its value. -/
  | evaluate (c : Chunk)
  /-- To run a chunk and remember its error. -/
  | call (c : Chunk)
  /-- To scan source text and remember its errors. -/
  | scan (text : String)

/-- The machine after a request. What it was answered with is not kept here, but in the reports. -/
def serve (m : Machine W) : Request → Machine W
  | .evaluate c => (m.evaluate c).2
  | .call c => (m.call c).2
  | .scan text => (m.scanSource text).2

/-- The machine after requests, which it serves one after another. -/
def serveAll (m : Machine W) (rs : List Request) : Machine W := rs.foldl serve m

/-! ## Reports -/

/-- How a request ends that is remembered: the verdict it is answered with, and its error. The two
are not independent, as `verdict_report?` shows. -/
structure Report where
  /-- The answer, which only tells the kind of error. -/
  verdict : Verdict
  /-- The error that the machine remembers, or nothing after a request that has gone well. -/
  error : Option CallError

/-- The verdict on a request with an error or without one. It is what the program's exit status is
made of. -/
def verdictOn : Option CallError → Verdict
  | none => .ok
  | some (.compile _) => .compileError
  | some (.runtime _) => .runtimeError

/-- The report on a request. A chunk that is run for its value is not reported on, since its error
is handed to the caller and not remembered. -/
def report? (m : Machine W) : Request → Option Report
  | .evaluate _ => none
  | .call c =>
    some ⟨(m.call c).1,
      match (m.evaluate c).1 with
      | .ok _ => none
      | .error e => some (.runtime e)⟩
  | .scan text =>
    some ⟨(m.scanSource text).1,
      match checkTokens (tokenize text) with
      | .ok _ => none
      | .error errors => some (.compile errors)⟩

/-- The reports on requests, in their order. Each is made by the machine that the requests before
have left. -/
def reports (m : Machine W) : List Request → List Report
  | [] => []
  | r :: rs => (m.report? r).toList ++ (m.serve r).reports rs

/-- After a request a machine remembers the error of the report on it, and if there is none, what it
remembered before. A report without an error erases what was remembered. -/
theorem failure_serve (m : Machine W) (r : Request) :
    (m.serve r).failure = ((m.report? r).map Report.error).getD m.failure := by
  cases r with
  | evaluate c =>
    rw [serve, evaluate_eq_fresh]
    rfl
  | call c =>
    simp only [serve, report?, call]
    rcases m.evaluate c with ⟨e | v, after⟩ <;> rfl
  | scan text =>
    simp only [serve, report?, scanSource]
    cases checkTokens (tokenize text) <;> rfl

/-- The verdict of a report fits its error: each can be told from the other, but for what the error
says. -/
theorem verdict_report? (m : Machine W) (r : Request) :
    (m.report? r).map Report.verdict = (m.report? r).map fun report => verdictOn report.error := by
  cases r with
  | evaluate c => rfl
  | call c =>
    simp only [report?, call]
    rcases m.evaluate c with ⟨e | v, after⟩ <;> rfl
  | scan text =>
    simp only [report?, scanSource]
    cases checkTokens (tokenize text) <;> rfl

/-- The verdicts of all reports fit their errors, whatever the machine has gone through before. -/
theorem verdict_reports (m : Machine W) (rs : List Request) :
    (m.reports rs).map Report.verdict =
      (m.reports rs).map fun report => verdictOn report.error := by
  induction rs generalizing m with
  | nil => rfl
  | cons r rs ih =>
    have hr := verdict_report? m r
    rw [reports, List.map_append, List.map_append, ih]
    congr 1
    cases h : m.report? r with
    | none => rfl
    | some report => simpa [h] using hr

/-- **What a machine remembers is the error of its last report**, or what it remembered at first if
there is none.

**Proof sketch.** Induction on the requests. A report on the first one is the last only if the
others are not reported on, and then the machine still remembers its error behind them. -/
theorem failure_serveAll (m : Machine W) (rs : List Request) :
    (m.serveAll rs).failure = ((m.reports rs).getLast?.map Report.error).getD m.failure := by
  induction rs generalizing m with
  | nil => rfl
  | cons r rs ih =>
    have hserved : m.serveAll (r :: rs) = (m.serve r).serveAll rs := rfl
    rw [hserved, ih, failure_serve, reports, List.getLast?_append]
    cases (m.serve r |>.reports rs).getLast? with
    | some report => rfl
    | none => cases m.report? r <;> rfl

/-! ## The next run -/

/-- A request keeps the configuration, and so a machine cannot be asked to change it. -/
theorem config_serve (m : Machine W) (r : Request) : (m.serve r).config = m.config := by
  cases r with
  | evaluate c => exact config_evaluate m c
  | call c =>
    have hconfig := config_evaluate m c
    simp only [serve, call]
    generalize m.evaluate c = out at hconfig ⊢
    rcases out with ⟨e | v, after⟩ <;> exact hconfig
  | scan text =>
    simp only [serve, scanSource]
    cases checkTokens (tokenize text) <;> rfl

/-- Nor do requests one after another change the configuration. -/
theorem config_serveAll (m : Machine W) (rs : List Request) :
    (m.serveAll rs).config = m.config := by
  induction rs generalizing m with
  | nil => rfl
  | cons r rs ih => exact (ih (m.serve r)).trans (config_serve m r)

/-- **No request leaves a trace in the next run.** After any requests to a machine, a run gives the
same result as on a fresh machine with the same configuration and the same output, leaves the same
output and the same stack, and makes the same records behind those that there are. What the machine
remembers is the error of its last report, or nothing if there is none, and the run does not change
that; the verdict of every report says which kind of error it has, or that it has none.

**Proof sketch.** The configuration is that of the start by `config_serveAll`, and a machine is a
fresh one but for what it recorded and remembers by `evaluate_eq_fresh`. -/
theorem evaluate_after_requests (config : MachineConfig) (w : W) (rs : List Request) (c : Chunk) :
    let start := withOutput config w
    let m := start.serveAll rs
    let fresh := withOutput config m.sink
    (m.evaluate c).1 = (fresh.evaluate c).1 ∧
      (m.evaluate c).2.sink = (fresh.evaluate c).2.sink ∧
      (m.evaluate c).2.stack = (fresh.evaluate c).2.stack ∧
      (m.evaluate c).2.log = m.log ++ (fresh.evaluate c).2.log ∧
      (m.evaluate c).2.failure = m.failure ∧
      m.failure = (start.reports rs).getLast?.bind Report.error ∧
      (start.reports rs).map Report.verdict =
        (start.reports rs).map fun report => verdictOn report.error := by
  intro start m fresh
  have hconfig : m.config = config := config_serveAll start rs
  have hfresh : m.evaluate c = ((fresh.evaluate c).1, { (fresh.evaluate c).2 with
      log := m.log ++ (fresh.evaluate c).2.log, failure := m.failure }) := by
    rw [evaluate_eq_fresh, hconfig]
  have hfailure : m.failure = (start.reports rs).getLast?.bind Report.error := by
    rw [failure_serveAll]
    cases (start.reports rs).getLast? <;> rfl
  rw [hfresh]
  exact ⟨rfl, rfl, rfl, rfl, rfl, hfailure, verdict_reports start rs⟩

end ChunkMachine.Machine
