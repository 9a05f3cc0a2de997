namespace LineSearch

inductive ColorChoice
  | auto
  | always
  | never
  deriving DecidableEq

namespace ColorChoice

def name : ColorChoice → String
  | auto => "auto"
  | always => "always"
  | never => "never"

def all : List ColorChoice := [auto, always, never]

def ofString? (s : String) : Option ColorChoice := all.find? (fun c ↦ c.name = s)

theorem ofString?_name (c : ColorChoice) : ofString? c.name = some c := by
  cases c <;> decide

end ColorChoice

namespace CommandLine

inductive Switch
  | lineNumber
  | count
  | color
  | debug
  | verbose
  | help
  | version
  deriving DecidableEq

namespace Switch

def all : List Switch := [lineNumber, count, color, debug, verbose, help, version]

def name : Switch → String
  | lineNumber => "line-number"
  | count => "count"
  | color => "color"
  | debug => "debug"
  | verbose => "verbose"
  | help => "help"
  | version => "version"

def ofLong? (name : String) : Option Switch := all.find? (fun s ↦ s.name = name)

theorem ofLong?_name (s : Switch) : ofLong? s.name = some s := by
  cases s <;> decide

def ofShort? : Char → Option Switch
  | 'n' => some lineNumber
  | 'c' => some count
  | 'v' => some verbose
  | 'h' => some help
  | 'V' => some version
  | _ => none

end Switch

inductive Parameter
  | pattern
  | files
  | switch (s : Switch)
  deriving DecidableEq

namespace Parameter

/-- Values stand in angle brackets, or in square ones if they may be left out, and dots follow what
may be repeated. -/
def label : Parameter → String
  | pattern => "<PATTERN>"
  | files => "[FILES]..."
  | switch .color => "--color <COLOR>"
  | switch .verbose => "--verbose..."
  | switch s => "--" ++ s.name

def choices : Parameter → List String
  | switch .color => ColorChoice.all.map ColorChoice.name
  | _ => []

def isSwitch : Parameter → Bool
  | switch _ => true
  | _ => false

end Parameter

end CommandLine

end LineSearch
