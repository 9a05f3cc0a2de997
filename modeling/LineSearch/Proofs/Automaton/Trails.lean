import LineSearch.Proofs.Automaton.Elimination

namespace LineSearch.Automaton

inductive Trail (ts : Transitions) : State → List Transition → State → Prop
  | nil (p : State) : Trail ts p [] p
  | cons {t : Transition} {q : State} {trail : List Transition} :
      t ∈ ts → Trail ts t.destination trail q → Trail ts t.source (t :: trail) q

section Trails

variable {ts : Transitions} {p q : State} {text : List Char} {trail : List Transition}

theorem Path.exists_trail (h : Path ts p text q) :
    ∃ trail, Trail ts p trail q ∧ trail.map Transition.label = text.map Label.symbol := by
  induction h with
  | nil p => exact ⟨[], .nil p, rfl⟩
  | cons hc _ ih =>
    obtain ⟨trail, htrail, hlabels⟩ := ih
    refine ⟨_ :: trail, .cons hc htrail, ?_⟩
    rw [List.map_cons, hlabels]
    rfl

theorem Trail.path (h : Trail ts p trail q)
    (hlabels : trail.map Transition.label = text.map Label.symbol) : Path ts p text q := by
  induction h generalizing text with
  | nil p =>
    obtain rfl := List.map_eq_nil_iff.mp hlabels.symm
    exact .nil p
  | @cons t q trail ht _ ih =>
    obtain ⟨c, rest, rfl, hc, hrest⟩ := List.map_eq_cons_iff.mp hlabels.symm
    obtain ⟨label, p, r⟩ := t
    obtain rfl : .symbol c = label := hc
    exact .cons ht (ih hrest.symm)

theorem path_iff_exists_trail :
    Path ts p text q ↔
      ∃ trail, Trail ts p trail q ∧ trail.map Transition.label = text.map Label.symbol := by
  constructor
  · exact Path.exists_trail
  · intro h
    obtain ⟨trail, htrail, hlabels⟩ := h
    exact htrail.path hlabels

end Trails

section Epsilons

variable {a : Automaton} {t : Transition} {p q : State} {text : List Char}

def withoutEpsilons (a : Automaton) : Automaton :=
  { a with transitions := a.transitions.filter (fun t ↦ !t.isEpsilon) }

theorem mem_transitions_withoutEpsilons :
    t ∈ a.withoutEpsilons.transitions ↔ t ∈ a.transitions ∧ t.label ≠ .epsilon := by
  simp [withoutEpsilons, Std.ExtTreeSet.mem_filter, Std.ExtTreeSet.get_eq, Transition.isEpsilon]

theorem isEpsilonFree_withoutEpsilons : a.withoutEpsilons.isEpsilonFree = true := by
  rw [isEpsilonFree_iff]
  intro t ht
  exact (mem_transitions_withoutEpsilons.mp ht).2

theorem path_withoutEpsilons_iff :
    Path a.withoutEpsilons.transitions p text q ↔ Path a.transitions p text q := by
  constructor
  · intro h
    exact h.mono (fun t ht ↦ (mem_transitions_withoutEpsilons.mp ht).1)
  · intro h
    induction h with
    | nil p => exact .nil p
    | cons hc _ ih =>
      refine .cons (mem_transitions_withoutEpsilons.mpr ⟨hc, ?_⟩) ih
      simp [Transition.symbol]

theorem accepts_withoutEpsilons : a.withoutEpsilons.accepts = a.accepts := by
  apply accepts_eq_of_language_eq
  ext text
  simp only [language, mem_languageFrom, path_withoutEpsilons_iff]
  rfl

end Epsilons

/-- The simulation over the transition table answers as the one over all transitions does, and both
answer yes where a trail from the start to a final state spells the text. Leaving out the empty
transitions changes neither answer. -/
theorem accepts_iff_exists_trail (a : Automaton) (text : List Char) :
    (TransitionTable.ofAutomaton a).accepts text = a.accepts text ∧
    (a.accepts text = true ↔ ∃ q ∈ a.finals, ∃ trail, Trail a.transitions a.start trail q ∧
      trail.map Transition.label = text.map Label.symbol) ∧
    a.withoutEpsilons.isEpsilonFree = true ∧
    a.withoutEpsilons.accepts text = a.accepts text ∧
    (TransitionTable.ofAutomaton a.withoutEpsilons).accepts text =
      (TransitionTable.ofAutomaton a).accepts text := by
  have htable (b : Automaton) : (TransitionTable.ofAutomaton b).accepts text = b.accepts text :=
    congrFun (TransitionTable.accepts_ofAutomaton b) text
  refine ⟨htable a, ?_, isEpsilonFree_withoutEpsilons, congrFun accepts_withoutEpsilons text, ?_⟩
  · rw [← mem_language_iff_accepts, language, mem_languageFrom]
    simp only [path_iff_exists_trail]
  · rw [htable, htable, accepts_withoutEpsilons]

end LineSearch.Automaton
