import LineSearch.Pattern
import LineSearch.Search.Writer
import LineSearch.Text.Lines
import LineSearch.Text.Style

namespace LineSearch

structure SearchOptions where
  lineNumber : Bool
  count : Bool
  withFilename : Bool
  isColored : Bool
  deriving DecidableEq

namespace SearchOptions

def separator (o : SearchOptions) : String := Text.Style.cyan.paint o.isColored ":"

def nameFields (o : SearchOptions) (name : String) : List String :=
  if o.withFilename then [Text.Style.magenta.paint o.isColored name, o.separator] else []

def numberFields (o : SearchOptions) (number : Nat) : List String :=
  if o.lineNumber then [Text.Style.green.paint o.isColored (toString number), o.separator] else []

def matchFields (o : SearchOptions) (name : String) (m : MatchingLine) : List String :=
  o.nameFields name ++ o.numberFields m.number ++ [m.line, "\n"]

def countFields (o : SearchOptions) (name : String) (count : Nat) : List String :=
  o.nameFields name ++ [toString count, "\n"]

end SearchOptions

structure Progress where
  writer : Writer
  found : Nat
  deriving DecidableEq

namespace Progress

/-- Prints fields one after the other. The output may give out between two of them. -/
def print (s : Progress) (fields : List String) : Except Fault Unit × Progress :=
  let (result, writer) := s.writer.writeEach (fields.map Text.encode)
  (result, { s with writer })

end Progress

namespace Pattern

/-- Searches numbered lines, and stops where the output fails. A line is counted before it is
printed, so the count includes the one at which that happens. -/
def searchLines (p : Pattern) (o : SearchOptions) (name : String) :
    List (String × Nat) → Progress → Except Fault Unit × Progress
  | [], s => (.ok (), s)
  | (line, number) :: rest, s =>
    if p.occursIn line then
      let counted := { s with found := s.found + 1 }
      if o.count then p.searchLines o name rest counted
      else
        match counted.print (o.matchFields name ⟨number, line⟩) with
        | (.ok _, printed) => p.searchLines o name rest printed
        | failed => failed
    else p.searchLines o name rest s

def numberedLines (input : Text.Bytes) : List (String × Nat) :=
  ((Text.byteLines input).map Text.decode).zipIdx 1

def searchInput (p : Pattern) (o : SearchOptions) (name : String) (input : Text.Bytes)
    (s : Progress) : Except Fault Unit × Progress :=
  match p.searchLines o name (numberedLines input) s with
  | (.ok _, searched) =>
    if o.count then searched.print (o.countFields name searched.found) else (.ok (), searched)
  | failed => failed

/-- A search that counts in a word of 64 bits breaks down where a line more is found than can be
counted. As the count never falls, it tells at the end whether that has happened. -/
def searchInput? (p : Pattern) (o : SearchOptions) (name : String) (input : Text.Bytes)
    (s : Progress) : Option (Except Fault Unit × Progress) :=
  let answer := p.searchInput o name input s
  if answer.2.found < UInt64.size then some answer else none

end Pattern

end LineSearch
