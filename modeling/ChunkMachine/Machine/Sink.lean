set_option relaxedAutoImplicit false
set_option autoImplicit false

/-!
# Sinks

A machine writes into anything that takes bytes and can be flushed. A sink is what it writes into
unless something else is chosen. A sink may have room for a number of bytes only: it then takes of a
write what still fits, and fails if that is not everything. A sink may also fail to flush, which
loses nothing that was written.

## Main definitions

* `Output` — what can be written into.
* `Sink` — what was written, and how the sink fails.
* `Sink.content` — what was written, in order.
* `Sink.write`, `Sink.flush`, `Sink.emptied` — the operations of a sink.

## Main results

* `Sink.content_write` — a write adds the part that fits.
* `Sink.write_unlimited` — a sink with room for everything takes everything.
-/

namespace ChunkMachine

/-- How a sink fails. -/
inductive SinkFault where
  /-- Nothing more fits. -/
  | full
  /-- What was written could not be flushed. -/
  | flushFailed
  /-- Something else went wrong, told in its own words. -/
  | other (text : String)
  deriving DecidableEq, Repr

/-- The text of a sink's failure. It stands behind a heading in the text of the fault. -/
def SinkFault.message : SinkFault → String
  | full => "sink full"
  | flushFailed => "flush failed"
  | other text => text

/-- What can be written into and flushed. Both may fail, and both may change it. -/
class Output (W : Type) where
  /-- Writes bytes. How much was written of them if that fails is up to the output. -/
  write : W → List UInt8 → Except SinkFault Unit × W
  /-- Hands on what was written. -/
  flush : W → Except SinkFault Unit × W

/-- The bytes written so far, the last one first, how many more there may be, and whether flushing
fails. -/
structure Sink where
  /-- The bytes written so far, the last one first, so that a write need not go through them. -/
  reversed : List UInt8
  /-- How many more bytes fit, unless there is no limit. -/
  room : Option Nat
  /-- Whether flushing fails. -/
  flushFails : Bool
  deriving DecidableEq, Repr

namespace Sink

/-- The empty sink that never fails: it has room for everything, and flushing goes well. -/
def unlimited : Sink := ⟨[], none, false⟩

/-- The bytes written so far, in the order in which they were written. -/
def content (s : Sink) : List UInt8 := s.reversed.reverse

/-- The front of some bytes that still fits into a sink. Without a limit that is all of them. -/
def fitting (s : Sink) (bytes : List UInt8) : List UInt8 :=
  match s.room with
  | none => bytes
  | some room => bytes.take room

/-- Writes bytes as far as they fit, and fails if some do not. -/
def write (s : Sink) (bytes : List UInt8) : Except SinkFault Unit × Sink :=
  let taken := s.fitting bytes
  (if taken.length = bytes.length then .ok () else .error .full,
    { s with reversed := taken.reverse ++ s.reversed, room := s.room.map (· - taken.length) })

/-- Flushes a sink. Whether that fails is part of the sink, and does not depend on what was
written. -/
def flush (s : Sink) : Except SinkFault Unit := if s.flushFails then .error .flushFailed else .ok ()

/-- A sink is something to be written into. Flushing tells whether it went well and leaves the sink
as it is. -/
instance : Output Sink where
  write := write
  flush s := (s.flush, s)

/-- The sink after its content was taken out. That makes no new room. -/
def emptied (s : Sink) : Sink := { s with reversed := [] }

/-- The bytes of a text, as its characters are encoded. -/
def textBytes (text : String) : List UInt8 := text.toUTF8.toList

/-- A write adds the part that fits, also if it fails because some does not. -/
theorem content_write (s : Sink) (bytes : List UInt8) :
    (s.write bytes).2.content = s.content ++ s.fitting bytes := by
  simp [write, content]

/-- A sink with room for everything takes everything, and its room is not used up. -/
theorem write_unlimited {s : Sink} (h : s.room = none) (bytes : List UInt8) :
    s.write bytes = (.ok (), { s with reversed := bytes.reverse ++ s.reversed }) := by
  simp [write, fitting, h]

end Sink

end ChunkMachine
