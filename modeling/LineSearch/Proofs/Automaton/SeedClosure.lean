import LineSearch.Proofs.Automaton.Laws

namespace LineSearch

open Relation (TransGen)

theorem Hops.closure_closure (r : Hops) : r.closure.closure = r.closure := by
  have hleads : r.closure.Leads = TransGen r.Leads := by
    ext p q
    exact mem_closure
  apply Std.ExtTreeSet.ext_mem
  intro ⟨p, q⟩
  rw [mem_closure, mem_closure, hleads, Relation.transGen_eq_self]

namespace Automaton

variable {a b : Automaton} {seeds others : List Transition} {p q : State}

theorem eliminated_congr {hops new : Hops} (h : hops.closure = new.closure) :
    a.eliminated hops = a.eliminated new := by
  rw [eliminated, h, eliminated]

/-- What a second pass could promote or copy over a hop, the first one has over a chain of hops. -/
theorem eliminated_eliminated (a : Automaton) (hops : Hops) :
    (a.eliminated hops).eliminated hops = a.eliminated hops := by
  refine eq_of_mem_iff (fun q ↦ Iff.rfl) rfl (fun p ↦ ?_) (fun t ↦ ?_)
  · rw [mem_finals_eliminated]
    apply or_iff_left_of_imp
    intro h
    obtain ⟨q, hq, hpq⟩ := h
    apply mem_finals_eliminated.mpr
    rcases mem_finals_eliminated.mp hq with hq | ⟨r, hr, hqr⟩
    · exact Or.inr ⟨q, hq, hpq⟩
    · exact Or.inr ⟨r, hr, hpq.trans hqr⟩
  · rw [mem_transitions_eliminated]
    apply or_iff_left_of_imp
    intro h
    obtain ⟨q, hpq, hq⟩ := h
    apply mem_transitions_eliminated.mpr
    rcases mem_transitions_eliminated.mp hq with hq | ⟨r, hqr, hr⟩
    · exact Or.inr ⟨q, hpq, hq⟩
    · exact Or.inr ⟨r, hpq.trans hqr, hr⟩

def Joined (seeds : List Transition) : State → State → Prop :=
  TransGen (fun p q ↦ .epsilon p q ∈ seeds)

def closureSeeds (seeds : List Transition) : List Transition :=
  (moves seeds).closure.toList.map (fun h ↦ .epsilon h.source h.destination)

theorem mem_closure_moves (h : ∀ t ∈ seeds, t.isEpsilon = true) :
    ⟨p, q⟩ ∈ (moves seeds).closure ↔ Joined seeds p q := by
  have hleads : (moves seeds).Leads = fun p q ↦ .epsilon p q ∈ seeds := by
    funext p q
    exact propext (leads_moves_iff_mem h)
  rw [Hops.mem_closure, hleads, Joined]

theorem moves_congr (h : ∀ t, t ∈ others ↔ t ∈ seeds) : moves others = moves seeds := by
  apply Std.ExtTreeSet.ext_mem
  intro ⟨p, q⟩
  change (moves others).Leads p q ↔ (moves seeds).Leads p q
  simp only [leads_moves, h]

theorem moves_closureSeeds (seeds : List Transition) :
    moves (closureSeeds seeds) = (moves seeds).closure := by
  apply Std.ExtTreeSet.ext_mem
  intro ⟨p, q⟩
  have hmem : (moves (closureSeeds seeds)).Leads p q ↔
      ∃ t ∈ closureSeeds seeds, t.source = p ∧ t.destination = q := leads_moves
  simp only [closureSeeds, List.mem_map, Std.ExtTreeSet.mem_toList] at hmem
  apply hmem.trans
  constructor
  · intro h
    obtain ⟨_, ⟨⟨_, _⟩, h, rfl⟩, rfl, rfl⟩ := h
    exact h
  · intro h
    exact ⟨_, ⟨_, h, rfl⟩, rfl, rfl⟩

theorem joins_closureSeeds (h : ∀ t ∈ seeds, t.isEpsilon = true ∧ a.Joins t) :
    ∀ t ∈ closureSeeds seeds, t.isEpsilon = true ∧ a.Joins t := by
  intro t ht
  simp only [closureSeeds, List.mem_map, Std.ExtTreeSet.mem_toList] at ht
  obtain ⟨⟨p, q⟩, hpq, rfl⟩ := ht
  have hjoined := (mem_closure_moves (fun t ht ↦ (h t ht).1)).mp hpq
  obtain ⟨m, hfirst, _⟩ := TransGen.head'_iff.mp hjoined
  obtain ⟨n, _, hlast⟩ := TransGen.tail'_iff.mp hjoined
  exact ⟨rfl, (h _ hfirst).2.1, (h _ hlast).2.2⟩

def Yields (x : Build Automaton) (b : Automaton) : Prop := ∀ w, ∃ w', x w = .ok (b, w')

theorem yields_eliminate (ha : a.WellFormed) (h : ∀ t ∈ seeds, t.isEpsilon = true ∧ a.Joins t) :
    Yields (a.eliminate seeds) (a.eliminated (moves seeds)) :=
  fun w ↦ ⟨_, eliminate_eq_ok ha h w⟩

theorem yields_eliminate_of_closure_eq (ha : a.WellFormed)
    (h : ∀ t ∈ others, t.isEpsilon = true ∧ a.Joins t)
    (hclosure : (moves others).closure = (moves seeds).closure) :
    Yields (a.eliminate others) (a.eliminated (moves seeds)) :=
  eliminated_congr hclosure ▸ yields_eliminate ha h

/-- Elimination depends on the closure of its seeds alone, whatever their order and however often
they are listed, and a second elimination changes nothing. -/
theorem eliminate_eq_of_joined_iff (ha : a.validated = .ok a)
    (hseeds : ∀ t ∈ seeds, t.isEpsilon = true ∧ a.Joins t)
    (hothers : ∀ t ∈ others, t.isEpsilon = true ∧ a.Joins t)
    (hjoined : ∀ p q, Joined others p q ↔ Joined seeds p q) :
    ∃ b, Yields (a.eliminate seeds) b ∧ Yields (a.eliminate others) b ∧
      (∀ listing, (∀ t, t ∈ listing ↔ t ∈ seeds) → Yields (a.eliminate listing) b) ∧
      Yields (a.eliminate (closureSeeds seeds)) b ∧ Yields (b.eliminate seeds) b := by
  have hwell := (wellFormed_of_validated ha).1
  refine ⟨a.eliminated (moves seeds), yields_eliminate hwell hseeds, ?_, fun listing hmem ↦ ?_,
    ?_, ?_⟩
  · refine yields_eliminate_of_closure_eq hwell hothers (Std.ExtTreeSet.ext_mem fun ⟨p, q⟩ ↦ ?_)
    rw [mem_closure_moves (fun t ht ↦ (hothers t ht).1),
      mem_closure_moves (fun t ht ↦ (hseeds t ht).1), hjoined]
  · apply yields_eliminate_of_closure_eq hwell (fun t ht ↦ hseeds t ((hmem t).mp ht))
    rw [moves_congr hmem]
  · apply yields_eliminate_of_closure_eq hwell (joins_closureSeeds hseeds)
    rw [moves_closureSeeds, Hops.closure_closure]
  · have hagain := yields_eliminate (wellFormed_eliminated_moves hwell hseeds) hseeds
    rwa [eliminated_eliminated] at hagain

def circleBack : List Transition := [.epsilon ⟨2⟩ ⟨1⟩, .epsilon ⟨0⟩ ⟨2⟩, .epsilon ⟨1⟩ ⟨0⟩]

theorem joined_circleBack_iff (p q : State) : Joined circleBack p q ↔ Joined circle p q := by
  have hclosure : (moves circleBack).closure = (moves circle).closure :=
    of_decide_eq_true (by cbv)
  rw [← mem_closure_moves (by decide), hclosure, mem_closure_moves (by decide)]

theorem eliminate_eq_of_joined_iff_circle :
    reentered.validated = .ok reentered ∧
    (∀ t ∈ circle, t.isEpsilon = true ∧ reentered.Joins t) ∧
    (∀ t ∈ circleBack, t.isEpsilon = true ∧ reentered.Joins t) ∧
    (∀ p q, Joined circleBack p q ↔ Joined circle p q) ∧
    ∃ b, Yields (reentered.eliminate circle) b ∧ Yields (reentered.eliminate circleBack) b ∧
      (∀ listing, (∀ t, t ∈ listing ↔ t ∈ circle) → Yields (reentered.eliminate listing) b) ∧
      Yields (reentered.eliminate (closureSeeds circle)) b ∧ Yields (b.eliminate circle) b := by
  have hcircle : ∀ t ∈ circle, t.isEpsilon = true ∧ reentered.Joins t := by decide
  have hback : ∀ t ∈ circleBack, t.isEpsilon = true ∧ reentered.Joins t := by decide
  exact ⟨validated_reentered, hcircle, hback, joined_circleBack_iff,
    eliminate_eq_of_joined_iff validated_reentered hcircle hback joined_circleBack_iff⟩

end Automaton

end LineSearch
