import LineSearch.Automaton.Closure
import LineSearch.Automaton.Workshop

namespace LineSearch.Automaton

/-- The moves of a list of seeds. Each has to be an empty transition between states of the
automaton, and the first one that is not is reported. -/
def seedHops (a : Automaton) : List Transition → Except AutomatonError Hops
  | [] => .ok ∅
  | t :: rest =>
    if !t.isEpsilon then .error (.nonEmptySeed t)
    else if ¬a.Joins t then .error (.strayTransition t)
    else (a.seedHops rest).map (·.insert ⟨t.source, t.destination⟩)

def promoted (a : Automaton) (hops : Hops) : List State :=
  (hops.toList.filter (·.destination ∈ a.finals)).map Hop.source

def bypasses (a : Automaton) (hops : Hops) : List Transition :=
  let leaving := Index.ofList Transition.source a.transitions.toList
  hops.toList.flatMap (fun h ↦
    (leaving.find h.destination).map (fun t ↦ { t with source := h.source }))

/-- A state from which a hop leads to another one becomes final with it and gets a copy of each
transition that leaves it. -/
def folded (a : Automaton) (hops : Hops) : Automaton :=
  { a with
    finals := a.finals.insertMany (a.promoted hops)
    transitions := a.transitions.insertMany (a.bypasses hops) }

theorem mem_finals_folded {a : Automaton} {hops : Hops} {p : State} :
    p ∈ (a.folded hops).finals ↔ p ∈ a.finals ∨ ∃ q ∈ a.finals, ⟨p, q⟩ ∈ hops := by
  simp only [folded, promoted, Std.ExtTreeSet.mem_insertMany_list, List.contains_iff_mem,
    List.mem_map, List.mem_filter, Std.ExtTreeSet.mem_toList, decide_eq_true_eq]
  constructor
  · rintro (h | ⟨⟨_, q⟩, ⟨hh, hq⟩, rfl⟩)
    · exact Or.inl h
    · exact Or.inr ⟨q, hq, hh⟩
  · rintro (h | ⟨q, hq, hh⟩)
    · exact Or.inl h
    · exact Or.inr ⟨_, ⟨hh, hq⟩, rfl⟩

theorem mem_transitions_folded {a : Automaton} {hops : Hops} {t : Transition} :
    t ∈ (a.folded hops).transitions ↔
      t ∈ a.transitions ∨ ∃ q, ⟨t.source, q⟩ ∈ hops ∧ { t with source := q } ∈ a.transitions := by
  simp only [folded, bypasses, Std.ExtTreeSet.mem_insertMany_list, List.contains_iff_mem,
    List.mem_flatMap, List.mem_map, Index.mem_find_ofList, Std.ExtTreeSet.mem_toList]
  constructor
  · rintro (h | ⟨⟨_, q⟩, hh, u, ⟨hu, rfl⟩, rfl⟩)
    · exact Or.inl h
    · exact Or.inr ⟨_, hh, hu⟩
  · rintro (h | ⟨q, hh, ht⟩)
    · exact Or.inl h
    · exact Or.inr ⟨_, hh, _, ⟨ht, rfl⟩, rfl⟩

def eliminate (a : Automaton) (seeds : List Transition) : Build Automaton := do
  let hops ← a.seedHops seeds
  let (closure, passes) := hops.close 0
  Build.note (.closed hops.size closure.size passes)
  (a.folded closure).validated

end LineSearch.Automaton
