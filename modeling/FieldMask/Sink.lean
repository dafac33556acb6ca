import FieldMask.Text.Utf8

/-!
# Sinks

A sink takes bytes until its room is used up, and fails when it is offered more.  It keeps the bytes that
still fitted.
-/

namespace FieldMask

structure Sink where
  /-- The bytes taken so far. -/
  taken : Array UInt8
  /-- How many more bytes there is room for; without a bound if not given. -/
  room : Option Nat
  /-- What the sink says when it fails. -/
  complaint : String
  deriving DecidableEq, Inhabited

namespace Sink

def unlimited : Sink :=
  ⟨#[], none, ""⟩

def limited (room : Nat) (complaint : String) : Sink :=
  ⟨#[], some room, complaint⟩

def write (sink : Sink) (bytes : List UInt8) : Except String Unit × Sink :=
  match sink.room with
  | none => (.ok (), { sink with taken := sink.taken ++ bytes })
  | some room =>
    let after : Sink :=
      { sink with taken := sink.taken ++ bytes.take room, room := some (room - bytes.length) }
    (if bytes.length ≤ room then .ok () else .error sink.complaint, after)

/-- Offers pieces of text one after the other, until the sink fails. -/
def writeAll (sink : Sink) : List String → Except String Unit × Sink
  | [] => (.ok (), sink)
  | piece :: pieces =>
    match sink.write (Text.Utf8.encode piece.toList) with
    | (.ok (), sink) => sink.writeAll pieces
    | (.error complaint, sink) => (.error complaint, sink)

end Sink

end FieldMask
