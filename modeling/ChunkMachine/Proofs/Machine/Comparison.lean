import ChunkMachine.Proofs.Machine.Frame

set_option relaxedAutoImplicit false
set_option autoImplicit false

/-!
# Comparing machines

Two machines on sinks that never fail are compared, where the second one has some bytes before what
the first one holds. Either both have the same settings, and then they go on to make the same
records; or the second one may be traced while the first one is not, and then they make the same
records but for those that are traces. One relation covers both, with the way of comparing as a
parameter, and two machines that are in it stay in it whatever they are asked to do.

That a call depends on neither the frame nor the output of its machine is known from
`Machine.evaluate_inFrame`. What is added here is what becomes of the sinks and of the records.

## Main definitions

* `Sink.holding` — the sink that never fails and holds some bytes.
* `Sink.Behind` — two such sinks, the second one with some bytes before what the first one holds.
* `LogRecord.isTrace` — whether a record is a trace.
* `Comparison` — how two machines are compared, and which of their records count.
* `Machine.Behind` — two machines, the second one with some bytes before what the first one holds.

## Main results

* `Machine.Behind.call` — chunks come to the same end on such machines, which stay so related.
* `Machine.Behind.scanSource` — so does source text.
-/

namespace ChunkMachine

/-! ## What was written before -/

/-- The sink that never fails and holds some bytes. A session that is started with an empty sink is
left with such a one. -/
def Sink.holding (bytes : List UInt8) : Sink := ⟨bytes.reverse, none, false⟩

namespace Sink

/-- The bytes are kept from the last one to the first, and shown in their order. -/
@[simp]
theorem content_holding (bytes : List UInt8) : (holding bytes).content = bytes :=
  List.reverse_reverse bytes

/-- Such a sink takes everything, and is again such a sink behind it. With this a sink of a session
never needs to be opened. -/
@[simp]
theorem write_holding (bytes more : List UInt8) :
    (holding bytes).write more = (.ok (), holding (bytes ++ more)) := by
  rw [write_unlimited rfl]
  simp [holding]

/-- Two sinks that never fail, the second one with some bytes before what the first one holds. What
is written to both keeps them so. -/
def Behind (earlier : List UInt8) (s s' : Sink) : Prop :=
  ∃ bytes, s = holding bytes ∧ s' = holding (earlier ++ bytes)

/-- Such sinks answer alike: both take what is written, and what was there before stays before
it. -/
theorem alike_behind (earlier : List UInt8) : Output.Alike (Behind earlier) where
  write := by
    rintro _ _ ⟨held, rfl, rfl⟩ bytes
    refine ⟨?_, held ++ bytes, ?_, ?_⟩
    · simp [Output.write]
    · simp [Output.write]
    · simp [Output.write]
  flush h := ⟨by obtain ⟨held, rfl, rfl⟩ := h; rfl, h⟩

end Sink

/-! ## Which records count -/

/-- Whether a record is a trace. Such records are made of every token that is scanned, and of every
step of a machine that is traced. -/
def LogRecord.isTrace (r : LogRecord) : Bool := r.level = .trace

/-- How two machines are compared. Two shells that work on the same text are compared in the first
way, and a shell that shows more with one that shows less in the second. -/
inductive Comparison where
  /-- They have the same settings, and all their records count. -/
  | same
  /-- Only the second one may be traced, and records that are traces do not count. -/
  | muted
  deriving DecidableEq, Repr

/-- Whether a record counts in a comparison. All other records than traces are for whoever uses the
program, and always count. -/
def Comparison.counts : Comparison → LogRecord → Bool
  | same, _ => true
  | muted, r => !r.isTrace

/-- Records that are all traces do not count if traces are set aside, so that any number of them may
be added on one side only. -/
theorem Comparison.filter_counts_muted {records : List LogRecord}
    (h : ∀ r ∈ records, r.isTrace = true) : records.filter muted.counts = [] := by
  rw [List.filter_eq_nil_iff]
  intro r hr
  simp [counts, h r hr]

namespace Machine

/-- The records of a machine that count in a comparison, in their order. Two machines with the same
ones may have recorded different things in between. -/
def counted (k : Comparison) (m : Machine) : List LogRecord := m.log.toList.filter k.counts

/-- Records that are added to a machine count as they would on their own. What was recorded before
is not looked at again. -/
theorem counted_of_log {k : Comparison} {m n : Machine} {records : Array LogRecord}
    (h : n.log = m.log ++ records) :
    n.counted k = m.counted k ++ records.toList.filter k.counts := by
  rw [counted, h, Array.toList_append, List.filter_append]
  rfl

/-- Every scanned token is recorded, behind what was recorded before and in the order of the
text. -/
theorem log_noteTokens (m : Machine) (tokens : List Token) :
    (m.noteTokens tokens).log = m.log ++ (tokens.map Token.record).toArray :=
  Array.ext' (by simp [noteTokens])

/-- The records of tokens are traces, which do not count if traces are set aside. -/
theorem counted_noteTokens_muted (m : Machine) (tokens : List Token) :
    (m.noteTokens tokens).counted .muted = m.counted .muted := by
  have htraces : ∀ r ∈ tokens.map Token.record, r.isTrace = true := by
    intro r hr
    obtain ⟨t, -, rfl⟩ := List.mem_map.1 hr
    rfl
  rw [counted_of_log (m.log_noteTokens tokens), Comparison.filter_counts_muted htraces,
    List.append_nil]

/-- The records of steps are traces, too, whatever the machines have on their stacks. -/
theorem filter_stepRecords_muted (trace : Bool) (c : Chunk) (ms : List Machine) :
    (stepRecords trace c ms).toList.filter Comparison.muted.counts = [] := by
  refine Comparison.filter_counts_muted fun r hr => ?_
  unfold stepRecords at hr
  split at hr
  · obtain ⟨before, -, rfl⟩ := List.mem_map.1 hr
    rfl
  · contradiction

/-! ## Two machines -/

/-- Two machines with the same configuration, but that they need not both be traced unless they are
compared as the same. Those of their records that count are the same, their sinks never fail, and
that of the second one has some bytes before what that of the first one holds.

The values on the stacks and the errors of the last calls are not compared, since no call looks at
what an earlier one has left. -/
structure Behind (k : Comparison) (earlier : List UInt8) (m m' : Machine) : Prop where
  /-- They have the same configuration, but for being traced. -/
  config_eq : m'.config = { m.config with trace := m'.config.trace }
  /-- If they are compared as the same, both are traced or none is. -/
  trace_eq : k = .same → m'.config.trace = m.config.trace
  /-- They have the same records that count. -/
  counted_eq : m'.counted k = m.counted k
  /-- What the second one has written begins with the earlier bytes, and goes on as for the first
  one. -/
  sink : Sink.Behind earlier m.sink m'.sink

namespace Behind

variable {k : Comparison} {earlier : List UInt8} {m m' : Machine} (h : Behind k earlier m m')
include h

/-- The same records are added on both sides, and count on both or on none. -/
theorem noteTokens (tokens : List Token) :
    Behind k earlier (m.noteTokens tokens) (m'.noteTokens tokens) := by
  refine ⟨h.config_eq, h.trace_eq, ?_, h.sink⟩
  rw [counted_of_log (m'.log_noteTokens tokens), counted_of_log (m.log_noteTokens tokens),
    h.counted_eq]

/-- The same holds for a single record of whatever level. -/
theorem note (level : LogLevel) (target message : String) :
    Behind k earlier (m.note level target message) (m'.note level target message) := by
  refine ⟨h.config_eq, h.trace_eq, ?_, h.sink⟩
  have hnoted (n : Machine) :
      (n.note level target message).log = n.log ++ #[⟨level, target, message⟩] := by
    simp [Machine.note]
  rw [counted_of_log (hnoted m'), counted_of_log (hnoted m), h.counted_eq]

/-- What is remembered of the last call has no part in the comparison, so that an error can be
remembered on both sides. -/
theorem remember (failure : Option CallError) :
    Behind k earlier { m with failure } { m' with failure } :=
  ⟨h.config_eq, h.trace_eq, h.counted_eq, h.sink⟩

/-- Neither have the values that a call has left: machines may be compared behind calls that have
left different ones. -/
theorem reset : Behind k earlier m.reset m'.reset :=
  ⟨h.config_eq, h.trace_eq, h.counted_eq, h.sink⟩

/-- **A run ends in the same way** on both machines, and writes the same.

**Proof sketch.** A run sees neither the frame nor the output of its machine, so that the second
machine does what the first one does, and adds the records of the same steps if it is traced. If the
two are compared as the same, both are traced or none is. Otherwise the records are traces. -/
theorem evaluate (c : Chunk) :
    (m'.evaluate c).1 = (m.evaluate c).1 ∧
      Behind k earlier (m.evaluate c).2 (m'.evaluate c).2 := by
  obtain ⟨w', hsink, hout⟩ := evaluate_inFrame (Sink.alike_behind earlier) m m' h.config_eq h.sink c
  have hconfig := config_evaluate m c
  have hlog : (m.evaluate c).2.log = m.log ++ stepRecords m.config.trace c (m.reset.befores c) :=
    congrArg Frame.log (frame_evaluate m c)
  rw [hout]
  refine ⟨rfl, rfl, fun hk => ?_, ?_, hsink⟩
  · rw [hconfig]
    exact h.trace_eq hk
  · rw [counted_of_log hlog, counted_of_log (m := m')
      (n := (m.evaluate c).2.inFrame (m'.frame.add _) w') rfl, h.counted_eq]
    cases k with
    | same => rw [h.trace_eq rfl]
    | muted => rw [filter_stepRecords_muted, filter_stepRecords_muted]

/-- **A chunk comes to the same end on both machines**: the call gives the same verdict, is
remembered with the same error, and writes behind what was written before. -/
theorem call (c : Chunk) :
    (m'.call c).1 = (m.call c).1 ∧ (m'.call c).2.failure = (m.call c).2.failure ∧
      Behind k earlier (m.call c).2 (m'.call c).2 := by
  obtain ⟨hresult, hafter⟩ := h.evaluate c
  unfold Machine.call
  generalize m.evaluate c = out at hresult hafter ⊢
  generalize m'.evaluate c = out' at hresult hafter ⊢
  obtain ⟨result, after⟩ := out
  obtain ⟨result', after'⟩ := out'
  obtain rfl : result' = result := hresult
  cases result' with
  | ok v => exact ⟨rfl, rfl, hafter.remember none⟩
  | error e => exact ⟨rfl, rfl, (hafter.note .debug _ _).remember (some (.runtime e))⟩

/-- Source text is scanned in the same way by both machines, and writes nothing. The verdict and the
errors that are remembered depend on the text alone. -/
theorem scanSource (text : String) :
    (m'.scanSource text).1 = (m.scanSource text).1 ∧
      (m'.scanSource text).2.failure = (m.scanSource text).2.failure ∧
      Behind k earlier (m.scanSource text).2 (m'.scanSource text).2 := by
  have hnoted := h.reset.noteTokens (tokenize text)
  simp only [Machine.scanSource]
  cases checkTokens (tokenize text) with
  | ok tokens => exact ⟨rfl, rfl, (hnoted.note .debug _ _).remember none⟩
  | error errors => exact ⟨rfl, rfl, hnoted.remember (some (.compile errors))⟩

end Behind

end Machine

end ChunkMachine
