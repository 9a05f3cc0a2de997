import LineSearch.Automaton.Elimination
import LineSearch.Proofs.Automaton.Closure
import LineSearch.Proofs.Automaton.Paths

namespace LineSearch

namespace Build

variable {α β : Type} {w w' : Workshop}

theorem bind_eq {x : Build α} {f : α → Build β} {a : α} (h : x w = .ok (a, w')) :
    (x >>= f) w = f a w' := by
  change (x w >>= fun p ↦ f p.1 p.2) = _
  rw [h]
  rfl

theorem of_bind_eq_ok {x : Build α} {f : α → Build β} {made : β × Workshop}
    (h : (x >>= f) w = .ok made) : ∃ a w', x w = .ok (a, w') ∧ f a w' = .ok made := by
  cases hx : x w with
  | error e =>
    change (x w >>= fun p ↦ f p.1 p.2) = _ at h
    rw [hx] at h
    cases h
  | ok p => exact ⟨p.1, p.2, rfl, (bind_eq hx).symm.trans h⟩

theorem fresh_bind (f : State → Build β) (w : Workshop) :
    (fresh >>= f) w = f ⟨w.next⟩ { w with next := w.next + 1 } := rfl

theorem lift_eq {e : Except AutomatonError α} {a : α} (h : e = .ok a) :
    (liftM e : Build α) w = .ok (a, w) := by
  rw [h]
  rfl

end Build

namespace Automaton

open Relation (TransGen)

/-- Transitions that read the text one after the other, with any number of hops before, between and
after them. -/
inductive Run (ts : Transitions) (hops : State → State → Prop) :
    State → List Char → State → Prop
  | nil (p : State) : Run ts hops p [] p
  | hop {p q r : State} {text : List Char} :
      hops p q → Run ts hops q text r → Run ts hops p text r
  | read {c : Char} {p q r : State} {text : List Char} :
      Transition.symbol c p q ∈ ts → Run ts hops q text r → Run ts hops p (c :: text) r

namespace Run

variable {ts : Transitions} {hops : State → State → Prop} {p q r : State}
  {text more : List Char}

theorem append (h : Run ts hops p text q) (h' : Run ts hops q more r) :
    Run ts hops p (text ++ more) r := by
  induction h with
  | nil => exact h'
  | hop hh _ ih => exact .hop hh (ih h')
  | read hc _ ih => exact .read hc (ih h')

theorem of_path (h : Path ts p text q) : Run ts hops p text q := by
  induction h with
  | nil p => exact .nil p
  | cons hc _ ih => exact .read hc ih

theorem hops_trans (hh : TransGen hops p q) (h : Run ts hops q text r) :
    Run ts hops p text r := by
  induction hh using TransGen.head_induction_on with
  | single hh => exact .hop hh h
  | head hh _ ih => exact .hop hh ih

end Run

def eliminated (a : Automaton) (hops : Hops) : Automaton := a.folded hops.closure

section Eliminated

variable {a : Automaton} {hops : Hops} {p q : State} {text : List Char}

@[simp]
theorem states_eliminated : (a.eliminated hops).states = a.states := rfl

@[simp]
theorem start_eliminated : (a.eliminated hops).start = a.start := rfl

theorem mem_finals_eliminated :
    p ∈ (a.eliminated hops).finals ↔ p ∈ a.finals ∨ ∃ q ∈ a.finals, TransGen hops.Leads p q := by
  simp only [eliminated, mem_finals_folded, Hops.mem_closure]

theorem mem_transitions_eliminated {t : Transition} :
    t ∈ (a.eliminated hops).transitions ↔
      t ∈ a.transitions ∨
        ∃ q, TransGen hops.Leads t.source q ∧ { t with source := q } ∈ a.transitions := by
  simp only [eliminated, mem_transitions_folded, Hops.mem_closure]

theorem run_of_path_eliminated (h : Path (a.eliminated hops).transitions p text q)
    (hq : q ∈ (a.eliminated hops).finals) :
    ∃ r ∈ a.finals, Run a.transitions hops.Leads p text r := by
  induction h with
  | nil p =>
    rcases mem_finals_eliminated.mp hq with hq | ⟨r, hr, hh⟩
    · exact ⟨p, hq, .nil p⟩
    · exact ⟨r, hr, .hops_trans hh (.nil r)⟩
  | cons hc _ ih =>
    obtain ⟨r, hr, h⟩ := ih hq
    rcases mem_transitions_eliminated.mp hc with hc | ⟨m, hh, hc⟩
    · exact ⟨r, hr, .read hc h⟩
    · exact ⟨r, hr, .hops_trans hh (.read hc h)⟩

theorem path_eliminated_of_hop (hh : hops.Leads p q)
    (h : ∃ r ∈ (a.eliminated hops).finals, Path (a.eliminated hops).transitions q text r) :
    ∃ r ∈ (a.eliminated hops).finals, Path (a.eliminated hops).transitions p text r := by
  obtain ⟨r, hr, h⟩ := h
  cases h with
  | nil =>
    refine ⟨p, mem_finals_eliminated.mpr (Or.inr ?_), .nil p⟩
    rcases mem_finals_eliminated.mp hr with hr | ⟨m, hm, hh'⟩
    · exact ⟨q, hr, .single hh⟩
    · exact ⟨m, hm, .head hh hh'⟩
  | cons hc h =>
    refine ⟨r, hr, .cons (mem_transitions_eliminated.mpr (Or.inr ?_)) h⟩
    rcases mem_transitions_eliminated.mp hc with hc | ⟨m, hh', hc⟩
    · exact ⟨q, .single hh, hc⟩
    · exact ⟨m, .head hh hh', hc⟩

theorem path_eliminated_of_run (h : Run a.transitions hops.Leads p text q) (hq : q ∈ a.finals) :
    ∃ r ∈ (a.eliminated hops).finals, Path (a.eliminated hops).transitions p text r := by
  induction h with
  | nil p => exact ⟨p, mem_finals_eliminated.mpr (Or.inl hq), .nil p⟩
  | hop hh _ ih => exact path_eliminated_of_hop hh (ih hq)
  | read hc _ ih =>
    obtain ⟨r, hr, h⟩ := ih hq
    exact ⟨r, hr, .cons (mem_transitions_eliminated.mpr (Or.inl hc)) h⟩

/-- A path through the folded automaton stands for a run that takes the seeds as moves of their own.
-/
theorem mem_language_eliminated :
    text ∈ (a.eliminated hops).language ↔
      ∃ q ∈ a.finals, Run a.transitions hops.Leads a.start text q := by
  constructor
  · intro h
    obtain ⟨q, hq, h⟩ := h
    exact run_of_path_eliminated h hq
  · intro h
    obtain ⟨q, hq, h⟩ := h
    exact path_eliminated_of_run h hq

theorem isEpsilonFree_iff : a.isEpsilonFree = true ↔ ∀ t ∈ a.transitions, t.label ≠ .epsilon := by
  simp [isEpsilonFree, Transition.isEpsilon]

theorem isEpsilonFree_eliminated : (a.eliminated hops).isEpsilonFree = a.isEpsilonFree := by
  rw [Bool.eq_iff_iff, isEpsilonFree_iff, isEpsilonFree_iff]
  constructor
  · intro h t ht
    exact h t (mem_transitions_eliminated.mpr (Or.inl ht))
  · intro h t ht
    rcases mem_transitions_eliminated.mp ht with ht | ⟨q, _, ht⟩
    · exact h t ht
    · exact h { t with source := q } ht

theorem wellFormed_eliminated (ha : a.WellFormed)
    (hh : ∀ p q, hops.Leads p q → p ∈ a.states) : (a.eliminated hops).WellFormed := by
  have hsource {p q : State} (h : TransGen hops.Leads p q) : p ∈ a.states := by
    obtain ⟨m, hm, _⟩ := TransGen.head'_iff.mp h
    exact hh p m hm
  refine ⟨ha.start_mem, fun p hp ↦ ?_, fun t ht ↦ ?_⟩
  · rcases mem_finals_eliminated.mp hp with hp | ⟨q, _, h⟩
    · exact ha.mem_of_final p hp
    · exact hsource h
  · rcases mem_transitions_eliminated.mp ht with ht | ⟨q, h, ht⟩
    · exact ha.joins t ht
    · exact ⟨hsource h, (ha.joins _ ht).2⟩

end Eliminated

def moves : List Transition → Hops
  | [] => ∅
  | t :: seeds => (moves seeds).insert ⟨t.source, t.destination⟩

theorem leads_moves {seeds : List Transition} {p q : State} :
    (moves seeds).Leads p q ↔ ∃ t ∈ seeds, t.source = p ∧ t.destination = q := by
  induction seeds with
  | nil => simp [moves, Hops.Leads]
  | cons t seeds ih =>
    simp only [Hops.Leads] at ih
    simp [moves, Hops.Leads, ih]

theorem seedHops_eq_ok {a : Automaton} {seeds : List Transition}
    (h : ∀ t ∈ seeds, t.isEpsilon = true ∧ a.Joins t) : a.seedHops seeds = .ok (moves seeds) := by
  induction seeds with
  | nil => rfl
  | cons t seeds ih =>
    obtain ⟨hepsilon, hjoins⟩ := h t (List.mem_cons_self)
    rw [seedHops, if_neg (by simp [hepsilon]), if_neg (not_not_intro hjoins),
      ih (fun u hu ↦ h u (List.mem_cons_of_mem t hu))]
    rfl

theorem wellFormed_eliminated_moves {a : Automaton} {seeds : List Transition}
    (ha : a.WellFormed) (h : ∀ t ∈ seeds, t.isEpsilon = true ∧ a.Joins t) :
    (a.eliminated (moves seeds)).WellFormed := by
  refine wellFormed_eliminated ha (fun p q hpq ↦ ?_)
  obtain ⟨t, ht, rfl, _⟩ := leads_moves.mp hpq
  exact (h t ht).2.1

def closed (hops : Hops) : Event := .closed hops.size hops.closure.size hops.passes

theorem closed_of_isTrans {hops : Hops} (h : IsTrans State hops.Leads) :
    closed hops = .closed hops.size hops.size 1 := by
  rw [closed, Hops.closure, Hops.passes, Hops.close_of_isTrans h]

theorem eliminate_eq_ok {a : Automaton} {seeds : List Transition} (ha : a.WellFormed)
    (h : ∀ t ∈ seeds, t.isEpsilon = true ∧ a.Joins t) (w : Workshop) :
    a.eliminate seeds w =
      .ok (a.eliminated (moves seeds), { w with events := w.events.push (closed (moves seeds)) }) := by
  rw [eliminate, Build.bind_eq (Build.lift_eq (seedHops_eq_ok h))]
  exact Build.lift_eq (validated_of_wellFormed (wellFormed_eliminated_moves ha h))

end Automaton

end LineSearch
