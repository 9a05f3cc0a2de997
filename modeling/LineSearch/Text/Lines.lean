import LineSearch.Text.Utf8

namespace LineSearch.Text

def lineFeed : UInt8 := 0x0a

def carriageReturn : UInt8 := 0x0d

def extendFirst {α : Type} (a : α) : List (List α) → List (List α)
  | [] => [[a]]
  | piece :: pieces => (a :: piece) :: pieces

def bytePieces (bytes : Bytes) : List Bytes :=
  bytes.foldr (fun b pieces ↦ if b = lineFeed then [] :: pieces else extendFirst b pieces) []

def dropFinalReturn (line : Bytes) : Bytes :=
  if line.getLast? = some carriageReturn then line.dropLast else line

/-- The lines of a byte input. A carriage return at the end of a line goes, also where no line feed
follows. -/
def byteLines (bytes : Bytes) : List Bytes :=
  (bytePieces bytes).map dropFinalReturn

def terminatedPieces (text : List Char) : List (List Char) :=
  text.foldr (fun c pieces ↦ if c = '\n' then [c] :: pieces else extendFirst c pieces) []

/-- Removes a line feed at the end, and a carriage return directly before it. -/
def dropTerminator (piece : List Char) : List Char :=
  if piece.getLast? = some '\n' then
    let line := piece.dropLast
    if line.getLast? = some '\r' then line.dropLast else line
  else piece

/-- The lines of a text. A carriage return goes only directly before a line feed. -/
def lines (text : String) : List String :=
  (terminatedPieces text.toList).map (fun piece ↦ String.ofList (dropTerminator piece))

end LineSearch.Text
