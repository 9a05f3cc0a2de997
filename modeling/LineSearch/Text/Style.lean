namespace LineSearch.Text

inductive Style
  | bold
  | boldRed
  | green
  | magenta
  | cyan
  deriving DecidableEq

namespace Style

def opening : Style → String
  | bold => "\x1b[1m"
  | boldRed => "\x1b[1;31m"
  | green => "\x1b[32m"
  | magenta => "\x1b[35m"
  | cyan => "\x1b[36m"

def reset : String := "\x1b[0m"

def resumed (opening : List Char) : List Char → List Char
  | '\x1b' :: '[' :: '0' :: 'm' :: rest => reset.toList ++ opening ++ resumed opening rest
  | c :: rest => c :: resumed opening rest
  | [] => []

/-- The text in the style, or as it is where no colours are wanted. A reset code inside the text
would end the style early, so the style is taken up again after it. -/
def paint (s : Style) (isColored : Bool) (text : String) : String :=
  if isColored then
    s.opening ++ String.ofList (resumed s.opening.toList text.toList) ++ reset
  else text

end Style

end LineSearch.Text
