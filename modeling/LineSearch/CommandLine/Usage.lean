import LineSearch.CommandLine.Parameter
import LineSearch.Text.ControlSequences
import LineSearch.Text.Similarity

namespace LineSearch

open CommandLine

/-- Why there are no arguments to act on. Help and version are asked for, the others are faults.
Some faults tell which parameters had been given by then, in the order of their coming. -/
inductive UsageError
  | unknownLetter (letter : Char)
  | unknownName (name : String) (given : List Parameter)
  /-- A value that the parameter does not take, or an empty one where there has to be a value. -/
  | invalidValue (parameter : Parameter) (value : String)
  | tooManyValues (s : Switch) (value : String) (given : List Parameter)
  | argumentConflict (s : Switch)
  | missingPattern (given : List Parameter)
  | helpRequested
  | versionRequested
  deriving DecidableEq

namespace CommandLine

/-- How the program is called if the parameters are given. Where none is, all switches are summed
up. -/
def usage (given : List Parameter) : String :=
  let switches :=
    if given.isEmpty then ["[OPTIONS]"]
    else (given.filter Parameter.isSwitch).eraseDups.map Parameter.label
  let files := if .files ∈ given then "<FILES>..." else Parameter.files.label
  "Usage: nfagrep " ++ " ".intercalate (switches ++ [Parameter.pattern.label, files]) ++ "\n"

def quoted (s : String) : String := "'" ++ Text.withoutControlSequences s ++ "'"

def tip (s : String) : String := "\n  tip: " ++ s ++ "\n"

def valueTip (argument : String) : String :=
  tip ("to pass " ++ quoted argument ++ " as a value, use " ++ quoted ("-- " ++ argument))

end CommandLine

namespace UsageError

def similarSwitch? (name : String) : Option Switch :=
  (Text.mostSimilar? name (Switch.all.map Switch.name)).bind Switch.ofLong?

def fault : UsageError → String
  | unknownLetter letter =>
    "unexpected argument " ++ quoted ("-" ++ String.singleton letter) ++ " found\n"
  | unknownName name _ => "unexpected argument " ++ quoted ("--" ++ name) ++ " found\n"
  | invalidValue p value =>
    (if value.isEmpty then "a value is required for '" ++ p.label ++ "' but none was supplied\n"
      else "invalid value " ++ quoted value ++ " for '" ++ p.label ++ "'\n") ++
    if p.choices.isEmpty then ""
    else "  [possible values: " ++ ", ".intercalate p.choices ++ "]\n"
  | tooManyValues s value _ =>
    "unexpected value " ++ quoted value ++ " for '" ++ (Parameter.switch s).label ++
      "' found; no more were expected\n"
  | argumentConflict s =>
    "the argument '" ++ (Parameter.switch s).label ++ "' cannot be used multiple times\n"
  | missingPattern _ =>
    "the following required arguments were not provided:\n  " ++ Parameter.pattern.label ++ "\n"
  | helpRequested | versionRequested => ""

def proposal : UsageError → String
  | unknownLetter letter => valueTip ("-" ++ String.singleton letter)
  | unknownName name _ =>
    match similarSwitch? name with
    | some s => tip ("a similar argument exists: '--" ++ s.name ++ "'")
    | none => valueTip ("--" ++ name)
  | invalidValue p value =>
    (Text.mostSimilar? value p.choices).elim "" (fun choice ↦
      tip ("a similar value exists: '" ++ choice ++ "'"))
  | _ => ""

/-- A call that keeps what was given. None is shown for a value that is not in order. -/
def properUsage : UsageError → String
  | unknownLetter _ | argumentConflict _ => "\n" ++ usage []
  | unknownName name given => "\n" ++ usage (given ++ ((similarSwitch? name).map .switch).toList)
  | tooManyValues s _ given => "\n" ++ usage (given ++ [.switch s])
  | missingPattern given => "\n" ++ usage (given ++ [.pattern])
  | invalidValue .. | helpRequested | versionRequested => ""

def message (e : UsageError) : String :=
  "error: " ++ e.fault ++ e.proposal ++ e.properUsage ++
    "\nFor more information, try '--help'.\n"

end UsageError

end LineSearch
