import LineSearch.Text.Utf8

namespace LineSearch

inductive Fault
  | brokenPipe
  | other
  deriving DecidableEq

def Fault.message : Fault → String
  | brokenPipe => "broken pipe"
  | other => "other error"

structure Writer where
  written : Array UInt8
  /-- The number of bytes that it still takes, if there is a limit. -/
  room : Option Nat
  fault : Fault
  deriving DecidableEq

namespace Writer

def unlimited : Writer := ⟨#[], none, .other⟩

def write (w : Writer) (chunk : Text.Bytes) : Except Fault Unit × Writer :=
  match w.room with
  | none => (.ok (), { w with written := w.written ++ chunk })
  | some room =>
    (if chunk.length ≤ room then .ok () else .error w.fault,
      { w with written := w.written ++ chunk.take room, room := some (room - chunk.length) })

/-- Writes chunks one after the other, up to the first that does not fit. -/
def writeEach (w : Writer) : List Text.Bytes → Except Fault Unit × Writer
  | [] => (.ok (), w)
  | chunk :: rest =>
    match w.write chunk with
    | (.ok _, w) => w.writeEach rest
    | failed => failed

end Writer

end LineSearch
