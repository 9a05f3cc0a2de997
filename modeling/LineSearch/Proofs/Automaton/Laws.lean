import LineSearch.Proofs.Automaton.Languages

namespace LineSearch.Automaton

open scoped Computability

/-- The start is entered again, and an empty transition leads from it to a state that nothing else
leads to. -/
def reentered : Automaton :=
  ⟨{⟨0⟩, ⟨1⟩, ⟨2⟩}, ⟨0⟩, {⟨1⟩},
    {.symbol 'a' ⟨0⟩ ⟨1⟩, .symbol 'b' ⟨1⟩ ⟨0⟩, .epsilon ⟨0⟩ ⟨2⟩, .symbol 'c' ⟨2⟩ ⟨1⟩}⟩

theorem validated_reentered : reentered.validated = .ok reentered := by decide

theorem made_reentered : ∀ q ∈ reentered.states, q.number < 5 := by
  simp [reentered, or_imp, forall_and]

def alternating : Automaton :=
  ⟨{⟨3⟩, ⟨4⟩}, ⟨3⟩, {⟨3⟩}, {.symbol 'a' ⟨3⟩ ⟨4⟩, .symbol 'b' ⟨4⟩ ⟨3⟩}⟩

theorem validated_alternating : alternating.validated = .ok alternating := by decide

theorem made_alternating : ∀ q ∈ alternating.states, q.number < 5 := by
  simp [alternating, or_imp, forall_and]

theorem apart_reentered_alternating : Apart reentered alternating := by
  simp [Apart, reentered, alternating, or_imp, forall_and]

section Elimination

variable {a : Automaton} {seeds : List Transition} {p q : State}

theorem leads_moves_iff_mem (h : ∀ t ∈ seeds, t.isEpsilon = true) :
    (moves seeds).Leads p q ↔ .epsilon p q ∈ seeds := by
  rw [leads_moves]
  constructor
  · intro hleads
    obtain ⟨⟨label, _, _⟩, ht, rfl, rfl⟩ := hleads
    have hlabel : label = .epsilon := by simpa [Transition.isEpsilon] using h _ ht
    exact hlabel ▸ ht
  · intro ht
    exact ⟨_, ht, rfl, rfl⟩

/-- Elimination keeps states and start, and the result accepts what a run can read that takes symbol
transitions with any number of seeds before, between and after them. -/
theorem eliminate_accepts_iff (ha : a.validated = .ok a)
    (hseeds : ∀ t ∈ seeds, t.isEpsilon = true ∧ a.Joins t) (w : Workshop) :
    ∃ b w', a.eliminate seeds w = .ok (b, w') ∧ b.states = a.states ∧ b.start = a.start ∧
      (∀ text, b.accepts text = true ↔ ∃ q ∈ a.finals,
        Run a.transitions (fun p q ↦ .epsilon p q ∈ seeds) a.start text q) ∧
      b.isEpsilonFree = a.isEpsilonFree := by
  have hwell := (wellFormed_of_validated ha).1
  have hhops : (moves seeds).Leads = fun p q ↦ .epsilon p q ∈ seeds := by
    funext p q
    exact propext (leads_moves_iff_mem (fun t ht ↦ (hseeds t ht).1))
  refine ⟨_, _, eliminate_eq_ok hwell hseeds w, rfl, rfl, fun text ↦ ?_, isEpsilonFree_eliminated⟩
  rw [← mem_language_iff_accepts, mem_language_eliminated, hhops]

def circle : List Transition := [.epsilon ⟨1⟩ ⟨2⟩, .epsilon ⟨2⟩ ⟨0⟩, .epsilon ⟨0⟩ ⟨1⟩]

theorem eliminate_accepts_iff_circle :
    reentered.validated = .ok reentered ∧
    (∀ t ∈ circle, t.isEpsilon = true ∧ reentered.Joins t) ∧
    ∃ b w', reentered.eliminate circle ⟨5, #[]⟩ = .ok (b, w') ∧
      b.states = reentered.states ∧ b.start = reentered.start ∧
      (∀ text, b.accepts text = true ↔ ∃ q ∈ reentered.finals,
        Run reentered.transitions (fun p q ↦ .epsilon p q ∈ circle) reentered.start text q) ∧
      b.isEpsilonFree = reentered.isEpsilonFree := by
  have hseeds : ∀ t ∈ circle, t.isEpsilon = true ∧ reentered.Joins t := by decide
  exact ⟨validated_reentered, hseeds, eliminate_accepts_iff validated_reentered hseeds _⟩

end Elimination

section Operators

variable {a b : Automaton} {w : Workshop}

theorem mem_kstar_iff_pieces {L : Language Char} {text : List Char} :
    text ∈ L∗ ↔ text = [] ∨ ∃ pieces : List (List Char), pieces ≠ [] ∧ pieces.flatten = text ∧
      ∀ u ∈ pieces, u ≠ [] ∧ u ∈ L := by
  rw [Language.mem_kstar_iff_exists_nonempty]
  constructor
  · intro h
    obtain ⟨pieces, rfl, hpieces⟩ := h
    cases pieces with
    | nil => exact Or.inl rfl
    | cons u pieces =>
      have hne : u :: pieces ≠ [] := List.cons_ne_nil u pieces
      exact Or.inr ⟨u :: pieces, hne, rfl, fun v hv ↦ (hpieces v hv).symm⟩
  · intro h
    rcases h with rfl | ⟨pieces, _, rfl, hpieces⟩
    · exact ⟨[], rfl, by simp⟩
    · exact ⟨pieces, rfl, fun v hv ↦ (hpieces v hv).symm⟩

theorem star_accepts_iff (ha : a.validated = .ok a) (hmade : ∀ q ∈ a.states, q.number < w.next) :
    ∃ b w', a.star w = .ok (b, w') ∧ ∀ text, b.accepts text = true ↔
      text = [] ∨ ∃ pieces : List (List Char), pieces ≠ [] ∧ pieces.flatten = text ∧
        ∀ u ∈ pieces, u ≠ [] ∧ a.accepts u = true := by
  have hwell := (wellFormed_of_validated ha).1
  have hlanguage := language_starFrom hwell (fresh_not_mem hmade)
  refine ⟨_, _, star_eq_ok hwell w, fun text ↦ ?_⟩
  rw [← mem_language_iff_accepts, hlanguage, mem_kstar_iff_pieces]
  simp only [mem_language_iff_accepts]

theorem star_accepts_iff_reentered :
    reentered.validated = .ok reentered ∧ (∀ q ∈ reentered.states, q.number < 5) ∧
    ∃ b w', reentered.star ⟨5, #[]⟩ = .ok (b, w') ∧ ∀ text, b.accepts text = true ↔
      text = [] ∨ ∃ pieces : List (List Char), pieces ≠ [] ∧ pieces.flatten = text ∧
        ∀ u ∈ pieces, u ≠ [] ∧ reentered.accepts u = true :=
  ⟨validated_reentered, made_reentered, star_accepts_iff validated_reentered made_reentered⟩

-- A transition back to the start ends no piece.
example : (starFrom ⟨5⟩ reentered).accepts ['a', 'b'] = false := by cbv

theorem accepts_concatOf_iff (ha : a.WellFormed) (hb : b.WellFormed) (hab : Apart a b)
    (text : List Char) : (concatOf a b).accepts text = true ↔
      ∃ u v, u ++ v = text ∧ a.accepts u = true ∧ b.accepts v = true := by
  rw [← mem_language_iff_accepts, language_concatOf ha hb hab, Language.mem_mul]
  simp only [mem_language_iff_accepts]
  constructor
  · intro h
    obtain ⟨u, hu, v, hv, huv⟩ := h
    exact ⟨u, v, huv, hu, hv⟩
  · intro h
    obtain ⟨u, v, huv, hu, hv⟩ := h
    exact ⟨u, hu, v, hv, huv⟩

theorem concat_accepts_iff (ha : a.validated = .ok a) (hb : b.validated = .ok b)
    (hab : Apart a b) (w : Workshop) :
    ∃ c w', a.concat b w = .ok (c, w') ∧ ∀ text, c.accepts text = true ↔
      ∃ u v, u ++ v = text ∧ a.accepts u = true ∧ b.accepts v = true := by
  have hwella := (wellFormed_of_validated ha).1
  have hwellb := (wellFormed_of_validated hb).1
  exact ⟨_, _, concat_eq_ok hwella hwellb w, accepts_concatOf_iff hwella hwellb hab⟩

theorem concat_accepts_iff_alternating :
    reentered.validated = .ok reentered ∧ alternating.validated = .ok alternating ∧
    Apart reentered alternating ∧
    ∃ c w', reentered.concat alternating ⟨5, #[]⟩ = .ok (c, w') ∧ ∀ text, c.accepts text = true ↔
      ∃ u v, u ++ v = text ∧ reentered.accepts u = true ∧ alternating.accepts v = true :=
  ⟨validated_reentered, validated_alternating, apart_reentered_alternating,
    concat_accepts_iff validated_reentered validated_alternating apart_reentered_alternating _⟩

theorem accepts_unionFrom_iff {head : State} (ha : a.WellFormed) (hb : b.WellFormed)
    (hab : Apart a b) (hha : head ∉ a.states) (hhb : head ∉ b.states) (text : List Char) :
    (unionFrom head a b).accepts text = true ↔
      a.accepts text = true ∨ b.accepts text = true := by
  rw [← mem_language_iff_accepts, language_unionFrom ha hb hab hha hhb, Language.mem_add]
  simp only [mem_language_iff_accepts]

theorem union_accepts_iff (ha : a.validated = .ok a) (hb : b.validated = .ok b)
    (hab : Apart a b) (hmadea : ∀ q ∈ a.states, q.number < w.next)
    (hmadeb : ∀ q ∈ b.states, q.number < w.next) :
    ∃ c w', a.union b w = .ok (c, w') ∧ ∀ text, c.accepts text = true ↔
      a.accepts text = true ∨ b.accepts text = true := by
  have hwella := (wellFormed_of_validated ha).1
  have hwellb := (wellFormed_of_validated hb).1
  exact ⟨_, _, union_eq_ok hwella hwellb w, accepts_unionFrom_iff hwella hwellb hab
    (fresh_not_mem hmadea) (fresh_not_mem hmadeb)⟩

theorem union_accepts_iff_alternating :
    reentered.validated = .ok reentered ∧ alternating.validated = .ok alternating ∧
    Apart reentered alternating ∧ (∀ q ∈ reentered.states, q.number < 5) ∧
    (∀ q ∈ alternating.states, q.number < 5) ∧
    ∃ c w', reentered.union alternating ⟨5, #[]⟩ = .ok (c, w') ∧ ∀ text, c.accepts text = true ↔
      reentered.accepts text = true ∨ alternating.accepts text = true :=
  ⟨validated_reentered, validated_alternating, apart_reentered_alternating, made_reentered,
    made_alternating, union_accepts_iff validated_reentered validated_alternating
      apart_reentered_alternating made_reentered made_alternating⟩

end Operators

end LineSearch.Automaton
