import LineSearch.Automaton.Duplicate
import LineSearch.Automaton.Simulation
import LineSearch.Compile

namespace LineSearch

/-- An automaton in a register. `isCopied` says that a duplicate is among those it was made from, so
that the order of its states tells nothing. -/
structure Entry where
  automaton : Automaton
  isCopied : Bool

/-- A step that uses an automaton up takes it out of its register before anything else can fail, so
that no automaton is used twice. A step that fails puts nothing into a register. -/
structure Session where
  workshop : Workshop
  named : Array State
  registers : List (String × Entry)

namespace Session

def empty : Session := ⟨.empty, #[], []⟩

/-- A transition between states that the session has named, by the numbers of the names. -/
structure Link where
  label : Label
  source : Nat
  destination : Nat

inductive Step
  | name (count : Nat)
  | render (links : List Link)
  | assemble (target : String) (states : List Nat) (start : Nat) (finals : List Nat)
      (links : List Link)
  | literal (target : String) (c : Char)
  | anySymbol (target : String)
  | compile (target : String) (t : Tree)
  | union (target a b : String)
  | concat (target a b : String)
  | star (target a : String)
  | somewhere (target a : String)
  | eliminate (target a : String) (seeds : List Link)
  | duplicate (target a : String)
  /-- Makes a second automaton of the very same states and transitions. -/
  | alias (target a : String)
  /-- Takes an automaton apart and assembles it again, with no finals or with another start. -/
  | rebuild (target a : String) (keepFinals : Bool) (start : Option Nat)
  | accepts (a : String) (texts : List String)
  | inspect (a : String)

inductive StepError
  | emptyRegister (register : String)
  | unnamedState
  /-- An automaton error, in which the states bear the numbers of their names. Where `isSole` is
  false the parts have more than one fault of its kind. -/
  | rejected (e : AutomatonError) (isSole : Bool)

inductive Outcome
  | named (count : Nat)
  | rendered (transitions : List (String × Bool))
  | made (e : Entry)
  | copied (e : Entry) (isDisjoint : Bool)
  | verdicts (answers : List (Bool × Bool))
  | inspected (e : Entry)

/-- An action that may fail, but not undo what it has done. -/
abbrev Act := ExceptT StepError (StateM Session)

def nameOf (s : Session) (q : State) : State :=
  ⟨(s.named.finIdxOf? q).elim 0 Fin.val⟩

def renameTransition (s : Session) (t : Transition) : Transition :=
  ⟨t.label, nameOf s t.source, nameOf s t.destination⟩

def renameError (s : Session) : AutomatonError → AutomatonError
  | .strayStart q => .strayStart (nameOf s q)
  | .strayFinal q => .strayFinal (nameOf s q)
  | .strayTransition t => .strayTransition (renameTransition s t)
  | .nonEmptySeed t => .nonEmptySeed (renameTransition s t)

def reject {α : Type} (e : AutomatonError) (isSole : Bool) : Act α := do
  throw (.rejected (renameError (← get) e) isSole)

/-- The states of a workshop are spent only if the making succeeds. -/
def build {α : Type} (b : Build α) : Act α := do
  match b (← get).workshop with
  | .ok (made, workshop) =>
    modify (fun s ↦ { s with workshop })
    pure made
  | .error e => reject e true

def state (name : Nat) : Act State := do
  match (← get).named[name]? with
  | some q => pure q
  | none => throw .unnamedState

def transition (l : Link) : Act Transition := do
  pure ⟨l.label, ← state l.source, ← state l.destination⟩

def look (register : String) : Act Entry := do
  match (← get).registers.lookup register with
  | some e => pure e
  | none => throw (.emptyRegister register)

def take (register : String) : Act Entry := do
  let e ← look register
  modify (fun s ↦ { s with registers := s.registers.filter (·.1 ≠ register) })
  pure e

def put (register : String) (e : Entry) : Act Unit :=
  modify (fun s ↦ { s with registers := (register, e) :: s.registers.filter (·.1 ≠ register) })

def keep (register : String) (automaton : Automaton) (isCopied : Bool) : Act Outcome := do
  put register ⟨automaton, isCopied⟩
  pure (.made ⟨automaton, isCopied⟩)

def validate (a : Automaton) : Act Automaton :=
  match a.validated with
  | .ok a => pure a
  | .error e =>
    reject e (match e with
      | .strayFinal _ => a.strayFinals.length = 1
      | .strayTransition _ => a.strayTransitions.length = 1
      | _ => true)

def perform : Step → Act Outcome
  | .name count => do
    let states ← build ((List.replicate count ()).mapM (fun _ ↦ Build.fresh))
    modify (fun s ↦ { s with named := s.named ++ states })
    pure (.named (← get).named.size)
  | .render links => do
    let transitions ← links.mapM transition
    let s ← get
    pure (.rendered (transitions.map (fun t ↦ ((renameTransition s t).text, t.isEpsilon))))
  | .assemble target states start finals links => do
    let states ← states.mapM state
    let start ← state start
    let finals ← finals.mapM state
    let transitions ← links.mapM transition
    let a ← validate ⟨.ofList states, start, .ofList finals, .ofList transitions⟩
    keep target a false
  | .literal target c => do keep target (← build (Automaton.literal c)) false
  | .anySymbol target => do keep target (← build Automaton.anySymbol) false
  | .compile target t => do keep target (← build t.compile) false
  | .union target a b => do
    let a ← take a
    let b ← take b
    keep target (← build (a.automaton.union b.automaton)) (a.isCopied || b.isCopied)
  | .concat target a b => do
    let a ← take a
    let b ← take b
    keep target (← build (a.automaton.concat b.automaton)) (a.isCopied || b.isCopied)
  | .star target a => do
    let a ← take a
    keep target (← build a.automaton.star) a.isCopied
  | .somewhere target a => do
    let a ← take a
    keep target (← build a.automaton.somewhere) a.isCopied
  | .eliminate target a seeds => do
    let seeds ← seeds.mapM transition
    let a ← take a
    keep target (← build (a.automaton.eliminate seeds)) a.isCopied
  | .duplicate target a => do
    let a ← look a
    let copy ← build a.automaton.duplicate
    put target ⟨copy, true⟩
    pure (.copied ⟨copy, true⟩ (!copy.states.toList.any (· ∈ a.automaton.states)))
  | .alias target a => do
    let a ← look a
    keep target a.automaton a.isCopied
  | .rebuild target a keepFinals start => do
    let a ← take a
    let start ← start.elim (pure a.automaton.start) state
    let finals := if keepFinals then a.automaton.finals else ∅
    keep target (← validate { a.automaton with start, finals }) a.isCopied
  | .accepts a texts => do
    let a ← look a
    pure (.verdicts (a.automaton.verdicts texts))
  | .inspect a => do
    let a ← look a
    pure (.inspected a)

end Session

end LineSearch
