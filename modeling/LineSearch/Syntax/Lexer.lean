import LineSearch.Syntax.Error

namespace LineSearch

structure Lexer where
  rest : List Char
  position : Nat
  deriving DecidableEq

namespace Lexer

def ofString (pattern : String) : Lexer := ⟨pattern.toList, 0⟩

def isAtEnd (l : Lexer) : Bool := l.rest.isEmpty

/-- An unsupported character is an error, and also read: the next token is the one after it. -/
def next (l : Lexer) : Except SyntaxError Token × Lexer :=
  match l.rest with
  | [] => (.ok .endOfPattern, l)
  | c :: rest =>
    let after : Lexer := ⟨rest, l.position + 1⟩
    match Token.ofChar? c with
    | some token => (.ok token, after)
    | none => (.error (.unsupportedChar l.position c), after)

def tokens (position : Nat) : List Char → Except SyntaxError (List Token)
  | [] => .ok [.endOfPattern]
  | c :: rest =>
    match Token.ofChar? c with
    | some token => (tokens (position + 1) rest).map (token :: ·)
    | none => .error (.unsupportedChar position c)

def tokenize (l : Lexer) : Except SyntaxError (List Token) := tokens l.position l.rest

def readings : Nat → Lexer → List (Except SyntaxError Token × Lexer)
  | 0, _ => []
  | n + 1, l => let r := l.next; r :: readings n r.2

end Lexer

end LineSearch
