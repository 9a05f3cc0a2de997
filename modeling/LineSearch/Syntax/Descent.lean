import LineSearch.Syntax.Parser

namespace LineSearch

/-- A procedure of the descent. It changes the parser, also if it fails, and gives nothing if it is
cut off. -/
abbrev Descent := ExceptT SyntaxError (StateT Parser Option)

namespace Descent

def run {α : Type} (x : Descent α) (p : Parser) : Option (Except SyntaxError α × Parser) :=
  StateT.run (ExceptT.run x) p

def cutOff : Descent Tree := fun _ ↦ none

def current : Descent Token := return (← get).current

def advance : Descent Unit := fun p ↦
  match p.lexer.next with
  | (.ok token, lexer) => some (.ok (), { p with lexer, current := token })
  | (.error e, lexer) => some (.error e, { p with lexer })

def misfit {α : Type} (expected : Expected) : Descent α := do
  match ← current with
  | .endOfPattern => throw .unexpectedEnd
  | found => throw (.unexpectedToken expected found)

def expectRightParen : Descent Unit := do
  if (← current) = .rightParen then advance else misfit .rightParen

def startsAtom : Token → Bool
  | .literal _ | .leftParen => true
  | .rightParen | .bar | .star | .endOfPattern => false

mutual

/-- As in each procedure, the number bounds how deep calls may nest. -/
def union : Nat → Descent Tree
  | 0 => cutOff
  | n + 1 => do unionLoop n (.alternative (← concat n))

def unionLoop : Nat → Tree → Descent Tree
  | 0, _ => cutOff
  | n + 1, before => do
    if (← current) = .bar then
      advance
      unionLoop n (.union before (← concat n))
    else return before

def concat : Nat → Descent Tree
  | 0 => cutOff
  | n + 1 => do concatLoop n (.factor (← star n))

def concatLoop : Nat → Tree → Descent Tree
  | 0, _ => cutOff
  | n + 1, before => do
    if startsAtom (← current) then concatLoop n (.concat before (← star n)) else return before

def star : Nat → Descent Tree
  | 0 => cutOff
  | n + 1 => do starLoop n (.unstarred (← atom n))

def starLoop : Nat → Tree → Descent Tree
  | 0, _ => cutOff
  | n + 1, before => do
    if (← current) = .star then
      advance
      starLoop n (.star before)
    else return before

def atom : Nat → Descent Tree
  | 0 => cutOff
  | n + 1 => do
    match ← current with
    | .literal c =>
      advance
      return .terminal c
    | .leftParen =>
      if (← get).depth = maxNesting then throw (.nestingTooDeep maxNesting)
      advance
      modify fun p ↦ { p with depth := p.depth + 1 }
      let inner ← union n
      modify fun p ↦ { p with depth := p.depth - 1 }
      expectRightParen
      return .paren inner
    | .rightParen | .bar | .star | .endOfPattern => misfit .atom

end

def parse (n : Nat) : Descent Tree := do
  if (← current) = .endOfPattern then throw .emptyPattern
  let t ← union n
  if (← current) ≠ .endOfPattern then throw (.unexpectedToken .endOfPattern (← current))
  return t

end Descent

end LineSearch
