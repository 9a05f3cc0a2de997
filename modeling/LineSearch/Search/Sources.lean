import LineSearch.Search.Files
import LineSearch.Search.Input

namespace LineSearch

inductive Notice
  | searchingStandardInput
  | searching (path : String)
  | found (path : String) (count : Nat)
  | outputClosed
  | inputFailed (path : String) (message : String)
  | outputFailed (message : String)
  deriving DecidableEq

/-- Where inputs come from. Standard input can be read once. -/
structure Inputs where
  standardInput : Text.Bytes
  read : String → Except FileError Text.Bytes

structure SourcesSearch where
  inputs : Inputs
  writer : Writer
  isMatched : Bool
  isFailed : Bool
  notices : Array Notice

namespace SourcesSearch

def start (inputs : Inputs) (writer : Writer) : SourcesSearch := ⟨inputs, writer, false, false, #[]⟩

def tell (s : SourcesSearch) (n : Notice) : SourcesSearch := { s with notices := s.notices.push n }

def takeInput (s : SourcesSearch) (path : String) : Except FileError Text.Bytes × SourcesSearch :=
  if Path.isStandardInput path then
    (.ok s.inputs.standardInput,
      { s.tell .searchingStandardInput with inputs := { s.inputs with standardInput := [] } })
  else (s.inputs.read path, s.tell (.searching path))

def displayName (path : String) : String :=
  if Path.isStandardInput path then "(standard input)" else path

/-- Searches one input. The first part of the answer says whether to go on. -/
def searchOne (p : Pattern) (o : SearchOptions) (path : String) (s : SourcesSearch) :
    Bool × SourcesSearch :=
  match s.takeInput path with
  | (.error e, s) =>
    (true, { (s.tell (.found path 0)).tell (.inputFailed path e.message) with isFailed := true })
  | (.ok content, s) =>
    let (result, progress) := p.searchInput o (displayName path) content ⟨s.writer, 0⟩
    let s := { s.tell (.found path progress.found) with
      writer := progress.writer, isMatched := s.isMatched || 0 < progress.found }
    match result with
    | .ok _ => (true, s)
    | .error .brokenPipe => (false, s.tell .outputClosed)
    | .error f => (true, { s.tell (.inputFailed path f.message) with isFailed := true })

/-- Searches inputs in turn, past those that fail. The end is not reached only where the reader of
the output has gone away. -/
def searchEach (p : Pattern) (o : SearchOptions) :
    List String → SourcesSearch → Bool × SourcesSearch
  | [], s => (true, s)
  | path :: rest, s =>
    match searchOne p o path s with
    | (true, s) => searchEach p o rest s
    | (false, s) => (false, s)

def flush (fault : Option Fault) (s : SourcesSearch) : SourcesSearch :=
  match fault with
  | some .other => { s.tell (.outputFailed Fault.other.message) with isFailed := true }
  | _ => s

/-- The exit status: two after a failure, else zero if a line matched and one if none did. -/
def exitCode (s : SourcesSearch) : Nat :=
  if s.isFailed then 2 else if s.isMatched then 0 else 1

/-- Searches all inputs, and flushes the output unless its reader has gone away. -/
def searchAll (p : Pattern) (o : SearchOptions) (paths : List String) (flushFault : Option Fault)
    (s : SourcesSearch) : SourcesSearch :=
  match searchEach p o paths s with
  | (true, s) => s.flush flushFault
  | (false, s) => s

end SourcesSearch

end LineSearch
