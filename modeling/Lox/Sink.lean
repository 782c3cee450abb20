/-! # The output

Output goes to a sink that may take a limited number of bytes only. What fits of a text is kept, also
when the rest of it does not fit and the write fails. -/

namespace Lox

/-- What can go wrong with the output. -/
inductive SinkFault where
  | full
  | flushFailed
deriving DecidableEq, Repr

def SinkFault.message : SinkFault → String
  | full => "sink full"
  | flushFailed => "flush failed"

structure Sink where
  written : ByteArray
  /-- How many bytes it still takes; nothing when there is no limit. -/
  room : Option Nat
  flushFails : Bool
  /-- How often a flush was tried. -/
  flushes : Nat

namespace Sink

/-- A fresh sink. -/
def new (limit : Option Nat) (flushFails : Bool) : Sink := ⟨.empty, limit, flushFails, 0⟩

/-- A fresh sink that never fails. -/
def unlimited : Sink := new none false

/-- Writes a text, or as much of it as fits. -/
def write (s : Sink) (text : String) : Sink × Option SinkFault :=
  let bytes := text.toUTF8
  match s.room with
  | none => ({ s with written := s.written ++ bytes }, none)
  | some room =>
    if bytes.size ≤ room then
      ({ s with written := s.written ++ bytes, room := some (room - bytes.size) }, none)
    else ({ s with written := s.written ++ bytes.extract 0 room, room := some 0 }, some .full)

def flush (s : Sink) : Sink × Option SinkFault :=
  ({ s with flushes := s.flushes + 1 }, if s.flushFails then some .flushFailed else none)

end Sink
end Lox
