import LineSearch.Alphabet
import LineSearch.Text.Quoted

namespace LineSearch

inductive Token
  | leftParen
  | rightParen
  | bar
  | star
  | literal (c : Char)
  | endOfPattern
  deriving DecidableEq

namespace Token

def ofChar? (c : Char) : Option Token :=
  if c = '(' then some leftParen
  else if c = ')' then some rightParen
  else if c = '|' then some bar
  else if c = '*' then some star
  else if Alphabet.isSupported c then some (literal c)
  else none

def text : Token → String
  | leftParen => "`(`"
  | rightParen => "`)`"
  | bar => "`|`"
  | star => "`*`"
  | literal c => "literal " ++ Text.quoted c
  | endOfPattern => "EOF"

end Token

end LineSearch
