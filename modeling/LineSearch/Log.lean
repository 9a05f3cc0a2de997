import LineSearch.Automaton.Basic

namespace LineSearch

inductive Level
  | info
  | debug
  | trace
  deriving DecidableEq

namespace Level

def name : Level → String
  | info => "INFO"
  | debug => "DEBUG"
  | trace => "TRACE"

def detail : Level → Nat
  | info => 1
  | debug => 2
  | trace => 3

end Level

structure Record where
  level : Level
  target : String
  text : String
  deriving DecidableEq

inductive Event
  | closed (seeds edges passes : Nat)
  | compiled (nodes : Nat) (size : Size)
  | readyToSearch (size : Size)
  deriving DecidableEq

def Event.record : Event → Record
  | closed seeds edges passes =>
    ⟨.trace, "nfagrep_core::epsilon",
      s!"epsilon closure: {seeds} seed edge(s) -> {edges} edge(s) in {passes} pass(es)"⟩
  | compiled nodes size =>
    ⟨.debug, "nfagrep_core::compiler",
      s!"compiled {nodes} node(s) into {size.states} state(s), " ++
        s!"{size.transitions} transition(s), {size.finals} final(s)"⟩
  | readyToSearch size =>
    ⟨.debug, "nfagrep_core::engine",
      s!"search automaton: {size.states} state(s), {size.transitions} transition(s)"⟩

end LineSearch
