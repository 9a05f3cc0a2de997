import LineSearch.Syntax.Token

namespace LineSearch

inductive Expected
  | atom
  | rightParen
  | endOfPattern
  deriving DecidableEq

def Expected.text : Expected → String
  | atom => "literal or `(`"
  | rightParen => "`)`"
  | endOfPattern => "EOF"

inductive SyntaxError
  /-- Positions count characters from zero. -/
  | unsupportedChar (position : Nat) (c : Char)
  | unexpectedToken (expected : Expected) (found : Token)
  | unexpectedEnd
  | emptyPattern
  | nestingTooDeep (limit : Nat)
  deriving DecidableEq

def SyntaxError.message : SyntaxError → String
  | unsupportedChar position c =>
    s!"lexer error at position {position}: unsupported character {Text.quoted c}"
  | unexpectedToken expected found =>
    s!"parse error: expected {expected.text}, found {found.text}"
  | unexpectedEnd => "parse error: unexpected end of input"
  | emptyPattern => "parse error: empty pattern"
  | nestingTooDeep limit => s!"parse error: parentheses nested more than {limit} deep"

end LineSearch
