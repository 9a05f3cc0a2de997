import LineSearch.Alphabet
import LineSearch.Automaton.Elimination

namespace LineSearch.Automaton

/-- Reads `c`; the empty sign reads nothing. -/
def literal (c : Char) : Build Automaton := do
  let start ← Build.fresh
  if c = Alphabet.emptySign then
    validated ⟨{start}, start, {start}, ∅⟩
  else
    let accept ← Build.fresh
    validated ⟨{start, accept}, start, {accept}, {.symbol c start accept}⟩

def anySymbol : Build Automaton := do
  let start ← Build.fresh
  let accept ← Build.fresh
  validated ⟨{start, accept}, start, {accept},
    .ofList (Alphabet.symbols.map (fun c ↦ Transition.symbol c start accept))⟩

def nothing : Build Automaton := do
  let start ← Build.fresh
  validated ⟨{start}, start, ∅, ∅⟩

/-- An operator joins its operands by a few empty moves, from a new start where it needs one, and
folds the moves away at once. -/
def union (a b : Automaton) : Build Automaton := do
  let head ← Build.fresh
  let merged ← validated
    ⟨(a.states ∪ b.states).insert head, head, a.finals ∪ b.finals, a.transitions ∪ b.transitions⟩
  merged.eliminate [.epsilon head a.start, .epsilon head b.start]

def concat (a b : Automaton) : Build Automaton := do
  let merged ← validated
    ⟨a.states ∪ b.states, a.start, b.finals, a.transitions ∪ b.transitions⟩
  merged.eliminate (a.finals.toList.map (fun q ↦ .epsilon q b.start))

def star (a : Automaton) : Build Automaton := do
  let head ← Build.fresh
  let merged ← validated
    ⟨a.states.insert head, head, a.finals.insert head, a.transitions⟩
  merged.eliminate
    (.epsilon head a.start :: a.finals.toList.map (fun q ↦ .epsilon q a.start))

/-- Accepts a text of the operand with any supported symbols before and after it. -/
def somewhere (a : Automaton) : Build Automaton := do
  let before ← star (← anySymbol)
  let opened ← concat before a
  let after ← star (← anySymbol)
  concat opened after

end LineSearch.Automaton
