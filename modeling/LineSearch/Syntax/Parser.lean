import LineSearch.Syntax.Lexer
import LineSearch.Syntax.Tree

namespace LineSearch

def maxNesting : Nat := 256

/-- A union with a hole for the next atom: the alternatives before it, and the factors before it
in its own alternative. -/
structure Hole where
  alternatives : Option Tree
  factors : Option Tree
  deriving DecidableEq

namespace Hole

def empty : Hole := ⟨none, none⟩

def concatWith (h : Hole) (factor : Tree) : Tree :=
  match h.factors with
  | none => .factor factor
  | some before => .concat before factor

def unionWith (h : Hole) (factor : Tree) : Tree :=
  match h.alternatives with
  | none => .alternative (h.concatWith factor)
  | some before => .union before (h.concatWith factor)

end Hole

/-- A union being read. `enclosing` holds the hole that each open parenthesis stands in, the
innermost first; `factor` is the last factor, to which a star may still come, or nothing while an
atom has to follow. Calls that failed left `base` parentheses open. -/
structure Reading where
  base : Nat
  enclosing : List Hole
  hole : Hole
  factor : Option Tree
  deriving DecidableEq

namespace Reading

def start (base : Nat) : Reading := ⟨base, [], .empty, none⟩

def depth (r : Reading) : Nat := r.base + r.enclosing.length

def nextHole (r : Reading) : Hole :=
  match r.factor with
  | none => r.hole
  | some factor => { r.hole with factors := some (r.hole.concatWith factor) }

def feed (r : Reading) (token : Token) : Except SyntaxError Reading :=
  match token, r.factor with
  | .literal c, _ => .ok { r with hole := r.nextHole, factor := some (.unstarred (.terminal c)) }
  | .leftParen, _ =>
    if r.depth = maxNesting then .error (.nestingTooDeep maxNesting)
    else .ok { r with enclosing := r.nextHole :: r.enclosing, hole := .empty, factor := none }
  | .star, some factor => .ok { r with factor := some (.star factor) }
  | .bar, some factor =>
    .ok { r with hole := ⟨some (r.hole.unionWith factor), none⟩, factor := none }
  | .rightParen, some factor =>
    match r.enclosing with
    | [] => .error (.unexpectedToken .endOfPattern token)
    | outer :: enclosing =>
      .ok { r with
            enclosing, hole := outer,
            factor := some (.unstarred (.paren (r.hole.unionWith factor))) }
  | .star, none | .bar, none | .rightParen, none => .error (.unexpectedToken .atom token)
  | .endOfPattern, _ => .error .unexpectedEnd

/-- Takes the end of the pattern, and tells at which depth that was found right or wrong. A missing
right parenthesis is only missed once its group is left. -/
def finish (r : Reading) : Except SyntaxError Tree × Nat :=
  match r.factor, r.enclosing with
  | none, _ => (.error .unexpectedEnd, r.depth)
  | some _, _ :: _ => (.error .unexpectedEnd, r.depth - 1)
  | some factor, [] => (.ok (r.hole.unionWith factor), r.depth)

end Reading

/-- The token that the parser holds has been read by the lexer already. What a call has read, and
how deep in parentheses it was, stays with the parser. -/
structure Parser where
  lexer : Lexer
  current : Token
  depth : Nat
  deriving DecidableEq

namespace Parser

def run (r : Reading) (token : Token) (position : Nat) :
    List Char → Except SyntaxError Tree × Parser
  | [] =>
    match r.feed token with
    | .error e => (.error e, ⟨⟨[], position⟩, token, r.depth⟩)
    | .ok fed => (fed.finish.1, ⟨⟨[], position⟩, .endOfPattern, fed.finish.2⟩)
  | c :: rest =>
    match r.feed token with
    | .error e => (.error e, ⟨⟨c :: rest, position⟩, token, r.depth⟩)
    | .ok fed =>
      match Token.ofChar? c with
      | some next => run fed next (position + 1) rest
      | none =>
        (.error (.unsupportedChar position c),
          ⟨⟨rest, position + 1⟩, token, min r.depth fed.depth⟩)

/-- One call. It fails on the token it stopped at, and every call after it starts there. -/
def parse (p : Parser) : Except SyntaxError Tree × Parser :=
  if p.current = .endOfPattern then (.error .emptyPattern, p)
  else run (.start p.depth) p.current p.lexer.position p.lexer.rest

def ofString (pattern : String) : Except SyntaxError Parser :=
  match (Lexer.ofString pattern).next with
  | (.ok token, lexer) => .ok ⟨lexer, token, 0⟩
  | (.error e, _) => .error e

def calls : Nat → Parser → List (Except SyntaxError Tree × Parser)
  | 0, _ => []
  | n + 1, p => let r := p.parse; r :: calls n r.2

end Parser

def Tree.parse (pattern : String) : Except SyntaxError Tree :=
  match Parser.ofString pattern with
  | .ok p => p.parse.1
  | .error e => .error e

end LineSearch
