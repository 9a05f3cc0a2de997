import LineSearch.Text.Invisible

namespace LineSearch.Text

def shortEscape? : Char → Option Char
  | '\x00' => some '0'
  | '\t' => some 't'
  | '\n' => some 'n'
  | '\r' => some 'r'
  | '\'' => some '\''
  | '\\' => some '\\'
  | _ => none

def hexadecimal (n : Nat) : List Char :=
  Nat.toDigits 16 n

def escaped (c : Char) : List Char :=
  match shortEscape? c with
  | some e => ['\\', e]
  | none =>
    if isInvisible c then ['\\', 'u', '\x7b'] ++ hexadecimal c.toNat ++ ['\x7d'] else [c]

def quoted (c : Char) : String :=
  String.ofList ('\'' :: escaped c ++ ['\''])

end LineSearch.Text
