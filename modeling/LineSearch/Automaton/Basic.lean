import Std.Data.ExtTreeSet
import LineSearch.Text.Quoted

namespace LineSearch

/-- States carry nothing but their number, and are numbered in the order of their making. -/
structure State where
  number : Nat
  deriving DecidableEq

namespace State

instance : Ord State := ⟨compareOn State.number⟩

instance : Std.TransOrd State := inferInstanceAs (Std.TransCmp (compareOn State.number))

instance : Std.LawfulEqOrd State where
  eq_of_compare {p q} h := by
    cases p; cases q
    exact congrArg mk (Nat.compare_eq_eq.mp h)

def text (q : State) : String := s!"q{q.number}"

end State

inductive Label
  | epsilon
  | symbol (c : Char)
  deriving DecidableEq

namespace Label

def key : Label → Nat
  | epsilon => 0
  | symbol c => c.toNat + 1

theorem key_injective {a b : Label} (h : a.key = b.key) : a = b := by
  cases a <;> cases b <;> simp_all [key, ← Char.toNat_inj]

def text : Label → String
  | epsilon => "ε"
  | symbol c => Text.quoted c

end Label

structure Transition where
  label : Label
  source : State
  destination : State
  deriving DecidableEq

namespace Transition

instance : Ord Transition :=
  ⟨compareLex (compareOn source)
    (compareLex (compareOn destination) (compareOn (Label.key ∘ label)))⟩

instance : Std.TransOrd Transition :=
  inferInstanceAs (Std.TransCmp (compareLex (compareOn source)
    (compareLex (compareOn destination) (compareOn (Label.key ∘ label)))))

instance : Std.LawfulEqOrd Transition where
  eq_of_compare {s t} h := by
    cases s; cases t
    obtain ⟨hs, h⟩ := compareLex_eq_eq.mp h
    obtain ⟨hd, hl⟩ := compareLex_eq_eq.mp h
    simp only [mk.injEq]
    exact ⟨Label.key_injective (Nat.compare_eq_eq.mp hl), Std.LawfulEqOrd.eq_of_compare hs,
      Std.LawfulEqOrd.eq_of_compare hd⟩

def symbol (c : Char) (source destination : State) : Transition := ⟨.symbol c, source, destination⟩

def epsilon (source destination : State) : Transition := ⟨.epsilon, source, destination⟩

def isEpsilon (t : Transition) : Bool := t.label == .epsilon

def text (t : Transition) : String :=
  s!"{t.source.text} -{t.label.text}-> {t.destination.text}"

end Transition

abbrev States := Std.ExtTreeSet State

abbrev Transitions := Std.ExtTreeSet Transition

structure Automaton where
  states : States
  start : State
  finals : States
  transitions : Transitions
  deriving DecidableEq

/-- What can be wrong with the parts of an automaton: a part is stray if it mentions a state that is
none of the automaton's. Of a transition that is to be folded away it can also be wrong that it
reads a symbol. -/
inductive AutomatonError
  | strayStart (q : State)
  | strayFinal (q : State)
  | strayTransition (t : Transition)
  | nonEmptySeed (t : Transition)
  deriving DecidableEq

def AutomatonError.message : AutomatonError → String
  | strayStart q =>
    s!"automaton error: start state {q.text} is not one of the automaton's states"
  | strayFinal q =>
    s!"automaton error: final state {q.text} is not one of the automaton's states"
  | strayTransition t =>
    s!"automaton error: transition {t.text} uses a state outside the automaton"
  | nonEmptySeed t => s!"automaton error: seed transition {t.text} is not an epsilon transition"

namespace Automaton

theorem eq_of_mem_iff {a b : Automaton} (hstates : ∀ q, q ∈ a.states ↔ q ∈ b.states)
    (hstart : a.start = b.start) (hfinals : ∀ q, q ∈ a.finals ↔ q ∈ b.finals)
    (htransitions : ∀ t, t ∈ a.transitions ↔ t ∈ b.transitions) : a = b := by
  cases a
  cases b
  simp only [mk.injEq]
  exact ⟨Std.ExtTreeSet.ext_mem hstates, hstart, Std.ExtTreeSet.ext_mem hfinals,
    Std.ExtTreeSet.ext_mem htransitions⟩

abbrev Joins (a : Automaton) (t : Transition) : Prop :=
  t.source ∈ a.states ∧ t.destination ∈ a.states

structure WellFormed (a : Automaton) : Prop where
  start_mem : a.start ∈ a.states
  mem_of_final : ∀ q ∈ a.finals, q ∈ a.states
  joins : ∀ t ∈ a.transitions, a.Joins t

def strayFinals (a : Automaton) : List State := a.finals.toList.filter (· ∉ a.states)

def strayTransitions (a : Automaton) : List Transition :=
  a.transitions.toList.filter (fun t ↦ ¬a.Joins t)

/-- The automaton itself, if every state it mentions is one of its own. The start is looked at
first, then the finals, then the transitions. -/
def validated (a : Automaton) : Except AutomatonError Automaton :=
  if a.start ∉ a.states then .error (.strayStart a.start)
  else
    match a.strayFinals, a.strayTransitions with
    | q :: _, _ => .error (.strayFinal q)
    | [], t :: _ => .error (.strayTransition t)
    | [], [] => .ok a

theorem strayFinals_eq_nil_iff {a : Automaton} :
    a.strayFinals = [] ↔ ∀ q ∈ a.finals, q ∈ a.states := by
  simp [strayFinals, List.filter_eq_nil_iff]

theorem strayTransitions_eq_nil_iff {a : Automaton} :
    a.strayTransitions = [] ↔ ∀ t ∈ a.transitions, a.Joins t := by
  simp [strayTransitions, List.filter_eq_nil_iff]

theorem validated_of_wellFormed {a : Automaton} (h : a.WellFormed) : a.validated = .ok a := by
  rw [validated, if_neg (not_not_intro h.start_mem), strayFinals_eq_nil_iff.mpr h.mem_of_final,
    strayTransitions_eq_nil_iff.mpr h.joins]

theorem wellFormed_of_validated {a b : Automaton} (h : a.validated = .ok b) :
    a.WellFormed ∧ b = a := by
  unfold validated at h
  split at h
  · simp at h
  · next hstart =>
    split at h
    · simp at h
    · simp at h
    · next hfinals hjoins =>
      exact ⟨⟨Decidable.not_not.mp hstart, strayFinals_eq_nil_iff.mp hfinals,
        strayTransitions_eq_nil_iff.mp hjoins⟩, (Except.ok.inj h).symm⟩

theorem validated_eq_ok_iff {a b : Automaton} : a.validated = .ok b ↔ a.WellFormed ∧ b = a := by
  refine ⟨wellFormed_of_validated, ?_⟩
  rintro ⟨h, rfl⟩
  exact validated_of_wellFormed h

def isEpsilonFree (a : Automaton) : Bool := !a.transitions.toList.any Transition.isEpsilon

end Automaton

structure Size where
  states : Nat
  transitions : Nat
  finals : Nat
  deriving DecidableEq

def Automaton.size (a : Automaton) : Size := ⟨a.states.size, a.transitions.size, a.finals.size⟩

end LineSearch
