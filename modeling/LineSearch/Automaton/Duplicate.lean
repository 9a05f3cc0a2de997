import Std.Data.ExtTreeMap
import LineSearch.Automaton.Workshop

namespace LineSearch

abbrev Renaming := Std.ExtTreeMap State State

namespace Renaming

def fresh : List State → Build Renaming
  | [] => pure ∅
  | q :: rest => do
    let name ← Build.fresh
    let later ← fresh rest
    pure (later.insert q name)

def transition (names : Renaming) (t : Transition) : Except AutomatonError Transition :=
  match names[t.source]?, names[t.destination]? with
  | some source, some destination => .ok ⟨t.label, source, destination⟩
  | _, _ => .error (.strayTransition t)

def automaton (names : Renaming) (a : Automaton) : Except AutomatonError Automaton := do
  let start ← names[a.start]?.elim (.error (.strayStart a.start)) .ok
  let finals ← a.finals.toList.mapM (fun q ↦ names[q]?.elim (.error (.strayFinal q)) .ok)
  let transitions ← a.transitions.toList.mapM names.transition
  pure ⟨.ofList names.values, start, .ofList finals, .ofList transitions⟩

end Renaming

namespace Automaton

def duplicateAlong (listing : List State) (a : Automaton) : Build Automaton := do
  let names ← Renaming.fresh listing
  names.automaton a

/-- A copy that accepts the same texts and shares no state with any automaton there is. -/
def duplicate (a : Automaton) : Build Automaton := a.duplicateAlong a.states.toList

end Automaton

end LineSearch
