import LineSearch.CommandLine.Usage

namespace LineSearch

structure Arguments where
  pattern : String
  files : List String
  lineNumber : Bool
  count : Bool
  color : ColorChoice
  debug : Bool
  verbosity : Nat
  deriving DecidableEq

def Arguments.paths (a : Arguments) : List String := if a.files.isEmpty then ["-"] else a.files

namespace CommandLine

/-- Values gathered and not yet taken over. They are taken over when something else follows, so a
fault in them shows only then. -/
inductive Gathered
  | nothing
  | pattern (value : String)
  | files (values : List String)
  | color (value : Option String)
  deriving DecidableEq

structure Reading where
  pattern : Option String
  files : List String
  lineNumber : Bool
  count : Bool
  color : Option ColorChoice
  debug : Bool
  verbosity : Nat
  gathered : Gathered
  /-- No switches any more, after `--`. -/
  onlyValues : Bool
  given : List Parameter
  deriving DecidableEq

def maxVerbosity : Nat := 255

namespace Reading

def start : Reading := ⟨none, [], false, false, none, false, 0, .nothing, false, []⟩

def givenWith (r : Reading) (p : Parameter) : List Parameter :=
  if p ∈ r.given then r.given else r.given ++ [p]

/-- The given parameters once what was gathered is taken over. Values count even if they are not in
order, but a second color makes the first one void. -/
def givenSettled (r : Reading) : List Parameter :=
  match r.gathered with
  | .nothing | .color none => r.given
  | .pattern _ => r.givenWith .pattern
  | .files _ => r.givenWith .files
  | .color (some _) =>
    if r.color.isSome then r.given.erase (.switch .color)
    else r.givenWith (.switch .color)

def takeColor (r : Reading) (value : String) : Except UsageError Reading :=
  if r.color.isSome then .error (.argumentConflict .color)
  else
    match ColorChoice.ofString? value with
    | some choice => .ok { r with color := some choice, given := r.givenWith (.switch .color) }
    | none => .error (.invalidValue (.switch .color) value)

def settle (r : Reading) : Except UsageError Reading :=
  let settled := { r with gathered := .nothing, given := r.givenSettled }
  match r.gathered with
  | .nothing => .ok r
  | .pattern value => .ok { settled with pattern := some value }
  | .files values =>
    if values.contains "" then .error (.invalidValue .files "")
    else .ok { settled with files := r.files ++ values }
  | .color none => .error (.invalidValue (.switch .color) "")
  | .color (some value) => settled.takeColor value

/-- Acts on a switch, or on the one for colors before its value. -/
def switch (r : Reading) (s : Switch) : Except UsageError Reading := do
  let r ← r.settle
  match s with
  | .lineNumber =>
    if r.lineNumber then throw (.argumentConflict s)
    pure { r with lineNumber := true, given := r.givenWith (.switch s) }
  | .count =>
    if r.count then throw (.argumentConflict s)
    pure { r with count := true, given := r.givenWith (.switch s) }
  | .color => pure { r with gathered := .color none }
  | .debug =>
    if r.debug then throw (.argumentConflict s)
    pure { r with debug := true, given := r.givenWith (.switch s) }
  | .verbose =>
    pure { r with
      verbosity := min (r.verbosity + 1) maxVerbosity
      given := r.given.erase (.switch s) ++ [.switch s] }
  | .help => throw .helpRequested
  | .version => throw .versionRequested

def long (r : Reading) (name : List Char) : Except UsageError Reading :=
  let value := (name.dropWhile (· ≠ '=')).tail?.map String.ofList
  let name := String.ofList (name.takeWhile (· ≠ '='))
  match Switch.ofLong? name, value with
  | none, _ => .error (.unknownName name r.givenSettled)
  | some s, none => r.switch s
  | some .color, some value => do (← r.settle).takeColor value
  | some s, some value => .error (.tooManyValues s value r.given)

def short (r : Reading) : List Char → Except UsageError Reading
  | [] => .ok r
  | c :: rest =>
    match Switch.ofShort? c with
    | none => .error (.unknownLetter c)
    | some s => do (← r.switch s).short rest

def value (r : Reading) (argument : String) : Except UsageError Reading :=
  match r.gathered with
  | .files values => .ok { r with gathered := .files (values ++ [argument]) }
  | _ => do
    let r ← r.settle
    if r.pattern.isNone then pure { r with gathered := .pattern argument }
    else pure { r with gathered := .files [argument] }

def argument (r : Reading) (argument : String) : Except UsageError Reading :=
  if r.onlyValues then r.value argument
  else
    match argument.toList, r.gathered with
    | ['-', '-'], _ => .ok { r with onlyValues := true }
    | '-' :: '-' :: name, _ => r.long name
    | '-' :: c :: rest, _ => r.short (c :: rest)
    | _, .color none => .ok { r with gathered := .color (some argument) }
    | _, _ => r.value argument

def finish (r : Reading) : Except UsageError Arguments := do
  let r ← r.settle
  match r.pattern with
  | none => throw (.missingPattern r.given)
  | some pattern =>
    pure ⟨pattern, r.files, r.lineNumber, r.count, r.color.getD .auto, r.debug, r.verbosity⟩

end Reading

end CommandLine

def Arguments.parse (arguments : List String) : Except UsageError Arguments := do
  (← arguments.foldlM CommandLine.Reading.argument .start).finish

end LineSearch
