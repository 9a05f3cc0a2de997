import LineSearch.CommandLine.Arguments
import LineSearch.Search.Sources

namespace LineSearch.CommandLine

structure Outcome where
  code : Nat
  output : Text.Bytes
  errors : String

def version : String := "nfagrep 0.1.0\n"

def help : String :=
  "nfagrep - print lines containing a match for a pattern\n\n" ++ usage [] ++ "\n" ++
  "Arguments:\n" ++
  "  <PATTERN>   The pattern: literals, `|`, `*`, parentheses, and `-` for the empty string\n" ++
  "  [FILES]...  Files to search; none or `-` reads standard input\n\n" ++
  "Options:\n" ++
  "  -n, --line-number    Prefix each matching line with its line number\n" ++
  "  -c, --count          Print only the number of matching lines\n" ++
  "      --color <COLOR>  When to color the output [default: auto] " ++
  "[possible values: auto, always, never]\n" ++
  "      --debug          Print the parse tree and automaton sizes to stderr\n" ++
  "  -v, --verbose...     Increase log verbosity (repeatable)\n" ++
  "  -h, --help           Print help\n" ++
  "  -V, --version        Print version\n"

def answerUsage : UsageError → Outcome
  | .helpRequested => ⟨0, Text.encode help, ""⟩
  | .versionRequested => ⟨0, Text.encode version, ""⟩
  | e => ⟨2, [], e.message⟩

def errorTag (isColored : Bool) : String := Text.Style.boldRed.paint isColored "Error:"

def hanging (text : String) : String :=
  String.ofList (text.toList.flatMap (fun c ↦ if c = '\n' then "\n    ".toList else [c]))

/-- The level stands in a field of five. What a terminal would obey is left out. -/
def logLine (r : Record) : String :=
  let padding := String.ofList (List.replicate (5 - r.level.name.length) ' ')
  Text.withoutControlSequences
    ("[" ++ r.level.name ++ padding ++ " " ++ r.target ++ "] " ++ hanging r.text ++ "\n")

def loggedLine (verbosity : Nat) (r : Record) : String :=
  if r.level.detail ≤ verbosity then logLine r else ""

def noteLine (verbosity : Nat) (level : Level) (text : String) : String :=
  loggedLine verbosity ⟨level, "nfagrep", text⟩

def noticeLine (verbosity : Nat) (isColored : Bool) : Notice → String
  | .searchingStandardInput => noteLine verbosity .debug "searching standard input"
  | .searching path => noteLine verbosity .debug ("searching " ++ path)
  | .found path count =>
    noteLine verbosity .info (path ++ ": " ++ toString count ++ " matching line(s)")
  | .outputClosed => noteLine verbosity .debug "output closed, stopping"
  | .inputFailed path message => errorTag isColored ++ " " ++ path ++ ": " ++ message ++ "\n"
  | .outputFailed message => errorTag isColored ++ " " ++ message ++ "\n"

def sizeLine (name : String) (s : Size) : String :=
  s!"  {name} {s.states} states, {s.transitions} transitions, {s.finals} finals\n"

def report (isColored : Bool) (p : Pattern) : String :=
  Text.Style.bold.paint isColored "Pattern:" ++ "\n  " ++
    Text.Style.cyan.paint isColored p.source ++ "\n" ++
  Text.Style.bold.paint isColored "Parse tree:" ++ "\n" ++
    String.join ((Text.lines p.tree.outline).map (fun l ↦ "  " ++ l ++ "\n")) ++
  Text.Style.bold.paint isColored "Automaton:" ++ "\n" ++
    sizeLine "pattern:" p.bare.size ++ sizeLine "search: " p.searchSize

def search (a : Arguments) (isTerminal : Bool) (inputs : Inputs) : Outcome :=
  let isColored := match a.color with
    | .always => true
    | .never => false
    | .auto => isTerminal
  match Pattern.ofString a.pattern with
  | .error e => ⟨2, [], errorTag isColored ++ " " ++ e.message ++ "\n"⟩
  | .ok (p, events) =>
    let options : SearchOptions := ⟨a.lineNumber, a.count, 1 < a.paths.length, isColored⟩
    let s := (SourcesSearch.start inputs .unlimited).searchAll p options a.paths none
    { code := s.exitCode
      output := s.writer.written.toList
      errors :=
        String.join (events.map (fun e ↦ loggedLine a.verbosity e.record)) ++
        (if a.debug then report isColored p else "") ++
        String.join (s.notices.toList.map (noticeLine a.verbosity isColored)) }

def run (arguments : List String) (isTerminal : Bool) (inputs : Inputs) : Outcome :=
  match Arguments.parse arguments with
  | .error e => answerUsage e
  | .ok a => search a isTerminal inputs

end LineSearch.CommandLine
