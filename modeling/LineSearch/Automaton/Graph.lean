import Std.Data.ExtTreeMap
import LineSearch.Automaton.Basic

namespace LineSearch

structure Edge where
  source : Nat
  destination : Nat
  symbols : List Char
  hasEpsilon : Bool
  deriving DecidableEq

structure Graph where
  start : Nat
  finals : List Nat
  edges : List Edge
  deriving DecidableEq

namespace Graph

def join (source destination : Nat) (label : Label) (edges : List Edge) : List Edge :=
  let (edge, rest) : Edge × List Edge :=
    match edges with
    | e :: rest =>
      if e.source = source ∧ e.destination = destination then (e, rest)
      else (⟨source, destination, [], false⟩, edges)
    | [] => (⟨source, destination, [], false⟩, [])
  match label with
  | .epsilon => { edge with hasEpsilon := true } :: rest
  | .symbol c => { edge with symbols := c :: edge.symbols } :: rest

end Graph

namespace Automaton

def ranks (a : Automaton) : Std.ExtTreeMap State Nat :=
  .ofList a.states.toList.zipIdx

/-- The edges come by source and destination, and the symbols of each by code point. -/
def graph (a : Automaton) : Graph :=
  let ranks := a.ranks
  let rank (q : State) : Nat := ranks.getD q 0
  { start := rank a.start
    finals := a.finals.toList.map rank
    edges := a.transitions.toList.foldr
      (fun t ↦ Graph.join (rank t.source) (rank t.destination) t.label) [] }

end Automaton

/-- What surrounds one state, whatever the states are called. Symbols are repeated as often as a
transition bears them. -/
structure Surroundings where
  isStart : Bool
  isFinal : Bool
  symbolsOut : List Char
  epsilonsOut : Nat
  symbolsIn : List Char
  epsilonsIn : Nat
  deriving DecidableEq

namespace Surroundings

def compare (s t : Surroundings) : Ordering :=
  (Ord.compare s.isStart t.isStart).then <|
  (Ord.compare s.isFinal t.isFinal).then <|
  (List.compareLex Ord.compare s.symbolsOut t.symbolsOut).then <|
  (Ord.compare s.epsilonsOut t.epsilonsOut).then <|
  (List.compareLex Ord.compare s.symbolsIn t.symbolsIn).then <|
  Ord.compare s.epsilonsIn t.epsilonsIn

end Surroundings

def symbolsOf (ts : List Transition) : List Char :=
  (ts.filterMap (fun t ↦
    match t.label with
    | .symbol c => some c
    | .epsilon => none)).mergeSort (· ≤ ·)

namespace Automaton

def surroundings (a : Automaton) (q : State) : Surroundings :=
  let out := a.transitions.toList.filter (·.source = q)
  let into := a.transitions.toList.filter (·.destination = q)
  { isStart := q = a.start
    isFinal := q ∈ a.finals
    symbolsOut := symbolsOf out
    epsilonsOut := out.countP Transition.isEpsilon
    symbolsIn := symbolsOf into
    epsilonsIn := into.countP Transition.isEpsilon }

def profile (a : Automaton) : List Surroundings :=
  (a.states.toList.map a.surroundings).mergeSort (fun s t ↦ (s.compare t).isLE)

end Automaton

end LineSearch
