import LineSearch.Automaton.Basic
import LineSearch.Index

namespace LineSearch

/-- Runs from `active`, where `step` gives the states after a symbol and `read` symbols were read
before. The verdict comes with the number of symbols read until it was known. -/
def simulateCounting (step : States → Char → States) (finals : States) :
    Nat → States → List Char → Bool × Nat
  | read, active, [] => (active.toList.any (· ∈ finals), read)
  | read, active, c :: rest =>
    let next := step active c
    if next.isEmpty then (false, read + 1) else simulateCounting step finals (read + 1) next rest

def simulate (step : States → Char → States) (finals active : States) (text : List Char) : Bool :=
  (simulateCounting step finals 0 active text).1

namespace Automaton

/-- The states after a symbol. Empty transitions are never followed. -/
def step (a : Automaton) (active : States) (c : Char) : States :=
  .ofList ((a.transitions.toList.filter
    (fun t ↦ t.label = .symbol c ∧ t.source ∈ active)).map Transition.destination)

theorem mem_step {a : Automaton} {active : States} {c : Char} {q : State} :
    q ∈ a.step active c ↔ ∃ p ∈ active, Transition.symbol c p q ∈ a.transitions := by
  simp only [step, Std.ExtTreeSet.mem_ofList, List.contains_iff_mem, List.mem_map, List.mem_filter,
    Std.ExtTreeSet.mem_toList, decide_eq_true_eq]
  constructor
  · rintro ⟨⟨_, p, _⟩, ⟨ht, rfl, hp⟩, rfl⟩
    exact ⟨p, hp, ht⟩
  · rintro ⟨p, hp, ht⟩
    exact ⟨_, ⟨ht, rfl, hp⟩, rfl⟩

def accepts (a : Automaton) (text : List Char) : Bool :=
  simulate a.step a.finals {a.start} text

end Automaton

structure TransitionTable where
  start : State
  finals : States
  leaving : Index State Transition

namespace TransitionTable

def ofAutomaton (a : Automaton) : TransitionTable :=
  ⟨a.start, a.finals,
    .ofList Transition.source (a.transitions.toList.filter (fun t ↦ !t.isEpsilon))⟩

def step (table : TransitionTable) (active : States) (c : Char) : States :=
  .ofList (active.toList.flatMap (fun q ↦
    ((table.leaving.find q).filter (·.label = .symbol c)).map Transition.destination))

def accepts (table : TransitionTable) (text : List Char) : Bool :=
  simulate table.step table.finals {table.start} text

theorem mem_step_ofAutomaton {a : Automaton} {active : States} {c : Char} {q : State} :
    q ∈ (ofAutomaton a).step active c ↔ ∃ p ∈ active, Transition.symbol c p q ∈ a.transitions := by
  simp only [step, ofAutomaton, Std.ExtTreeSet.mem_ofList, List.contains_iff_mem, List.mem_flatMap,
    List.mem_map, List.mem_filter, Index.mem_find_ofList, Std.ExtTreeSet.mem_toList,
    decide_eq_true_eq]
  constructor
  · rintro ⟨p, hp, ⟨_, _, _⟩, ⟨⟨⟨ht, _⟩, rfl⟩, rfl⟩, rfl⟩
    exact ⟨_, hp, ht⟩
  · rintro ⟨p, hp, ht⟩
    exact ⟨p, hp, _, ⟨⟨⟨ht, rfl⟩, rfl⟩, rfl⟩, rfl⟩

theorem step_ofAutomaton (a : Automaton) : (ofAutomaton a).step = a.step := by
  funext active c
  exact Std.ExtTreeSet.ext_mem (fun q ↦ mem_step_ofAutomaton.trans Automaton.mem_step.symm)

theorem accepts_ofAutomaton (a : Automaton) : (ofAutomaton a).accepts = a.accepts := by
  funext text
  rw [accepts, Automaton.accepts, step_ofAutomaton]
  rfl

end TransitionTable

def Automaton.verdicts (a : Automaton) (texts : List String) : List (Bool × Bool) :=
  let table := TransitionTable.ofAutomaton a
  texts.map (fun t ↦ (a.accepts t.toList, table.accepts t.toList))

end LineSearch
