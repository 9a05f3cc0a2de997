import LineSearch.Automaton.Duplicate
import LineSearch.Automaton.Simulation
import LineSearch.Compile
import LineSearch.Syntax.Parser
import LineSearch.Syntax.Printer

namespace LineSearch

inductive PatternError
  | syntactic (e : SyntaxError)
  | automaton (e : AutomatonError)
  deriving DecidableEq

def PatternError.message : PatternError → String
  | syntactic e => e.message
  | automaton e => e.message

/-- The automaton of the tree is kept for matching a whole text, and the transition table of a
second one for finding the pattern anywhere in a line. -/
structure Pattern where
  source : String
  tree : Tree
  bare : Automaton
  search : TransitionTable
  searchSize : Size

structure MatchingLine where
  number : Nat
  line : String
  deriving DecidableEq

namespace Pattern

/-- The pattern of a tree. The search automaton is made from a copy, as both are kept. -/
def ofTree (t : Tree) : Build Pattern := do
  let bare ← t.compile
  let copy ← bare.duplicate
  let search ← copy.somewhere
  Build.note (.readyToSearch search.size)
  pure ⟨t.text, t, bare, .ofAutomaton search, search.size⟩

def make (t : Tree) : Except AutomatonError (Pattern × List Event) :=
  (ofTree t .empty).map (fun (p, w) ↦ (p, w.events.toList))

def ofString (source : String) : Except PatternError (Pattern × List Event) :=
  match Tree.parse source with
  | .error e => .error (.syntactic e)
  | .ok t =>
    match make t with
    | .error e => .error (.automaton e)
    | .ok (p, events) => .ok ({ p with source }, events)

def occursIn (p : Pattern) (line : String) : Bool := p.search.accepts line.toList

def describes (p : Pattern) (text : String) : Bool := p.bare.accepts text.toList

def matchingLines (p : Pattern) (lines : List String) : List MatchingLine :=
  (lines.zipIdx 1).filterMap (fun (line, number) ↦
    if p.occursIn line then some ⟨number, line⟩ else none)

end Pattern

end LineSearch
