import LineSearch.Proofs.Automaton.Copies
import LineSearch.Proofs.Automaton.Sizes
import LineSearch.Proofs.Occurrence

namespace LineSearch

open Automaton

namespace Automaton

variable {a b : Automaton} {f : State → State}

theorem Isomorphic.start_mem_finals_iff (h : Isomorphic f a b) (ha : a.WellFormed) :
    b.start ∈ b.finals ↔ a.start ∈ a.finals := by
  rw [← h.start]
  constructor
  · intro hb
    obtain ⟨q, hq, heq⟩ := h.finals.surjOn hb
    have hstart := h.states.injOn (ha.mem_of_final q hq) ha.start_mem heq
    exact hstart ▸ hq
  · exact fun hq ↦ h.finals.mapsTo hq

theorem Isomorphic.length_departures_eq (h : Isomorphic f a b) (ha : a.WellFormed) :
    b.departures.length = a.departures.length := by
  have hsource (t : Transition) (ht : t ∈ a.transitions.toList) :
      decide ((renamedTransition f t).source = b.start) = decide (t.source = a.start) := by
    have hstates := (ha.joins t (Std.ExtTreeSet.mem_toList.mp ht)).1
    rw [← h.start, decide_eq_decide]
    exact ⟨h.states.injOn hstates ha.start_mem, congrArg f⟩
  rw [departures, ((toList_perm_of_bijOn h.transitions).filter _).length_eq, List.filter_map,
    List.length_map, departures]
  exact congrArg List.length (List.filter_congr hsource)

theorem Isomorphic.paddedSize_eq (h : Isomorphic f a b) (ha : a.WellFormed) :
    b.paddedSize = a.paddedSize := by
  obtain ⟨hstates, htransitions, hfinals⟩ := Size.mk.inj h.size_eq
  simp only [paddedSize, hstates, htransitions, hfinals, h.length_departures_eq ha,
    h.start_mem_finals_iff ha]

end Automaton

namespace Pattern

variable {t : Tree} {bare : Automaton} {w w' : Workshop}

theorem ofTree_eq_ok (hbare : t.compile w = .ok (bare, w')) (hwell : bare.WellFormed) :
    let next := w'.next + bare.states.size
    ∃ f, Isomorphic f bare (bare.renamed f) ∧
      (∀ q ∈ (bare.renamed f).states, w'.next ≤ q.number ∧ q.number < next) ∧
      let search := somewhereFrom next (bare.renamed f)
      let events := (somewhereSeeds next (bare.renamed f)).map (fun seeds ↦ closed (moves seeds))
      ofTree t w = .ok (⟨t.text, t, bare, .ofAutomaton search, search.size⟩,
        ⟨next + 6, (w'.events ++ events).push (.readyToSearch search.size)⟩) := by
  intro next
  obtain ⟨f, hcopy, hisomorphic, hfresh⟩ := exists_isomorphic_copy hwell (.refl _) w'
  refine ⟨f, hisomorphic, hfresh, ?_⟩
  have hsearch := somewhere_eq_ok (wellFormed_renamed (f := f) hwell) { w' with next }
  exact (Build.bind_eq hbare).trans ((Build.bind_eq hcopy).trans (Build.bind_eq hsearch))

theorem ofTree_searchSize (t : Tree) (w : Workshop) :
    ∃ p w', ofTree t w = .ok (p, w') ∧ p.searchSize = p.bare.paddedSize := by
  obtain ⟨bare, w₁, hbare, hheld, _⟩ := t.makes_compile [] w (Held.nil w)
  have hwell := hheld.wellFormed bare List.mem_cons_self
  obtain ⟨f, hisomorphic, hfresh, htree⟩ := ofTree_eq_ok hbare hwell
  refine ⟨_, _, htree, ?_⟩
  rw [← hisomorphic.paddedSize_eq hwell]
  exact size_somewhereFrom (wellFormed_renamed hwell) (fun q hq ↦ (hfresh q hq).2)

/-- Padding adds six states to any automaton there is, two finals and two more if its start is one,
and to its transitions those of the two paddings and copies: two of each transition that leaves the
start, and one of each symbol for each of the finals, those of the first padding included if they
stay. The sizes of a pattern, however it was made, are of an automaton and of it padded. -/
theorem searchSize_eq_paddedSize :
    (∀ (a : Automaton) (w : Workshop), a.validated = .ok a → (∀ q ∈ a.states, q.number < w.next) →
      ∃ b w', a.somewhere w = .ok (b, w') ∧ b.size = a.paddedSize) ∧
    (∀ t w, ∃ p w', ofTree t w = .ok (p, w') ∧ p.searchSize = p.bare.paddedSize) ∧
    ∀ source t, Tree.parse source = .ok t → ∃ p events, ofString source = .ok (p, events) ∧
      p.searchSize = p.bare.paddedSize := by
  refine ⟨fun a w ha hmade ↦ ?_, ofTree_searchSize, fun source t h ↦ ?_⟩
  · have hwell := (wellFormed_of_validated ha).1
    exact ⟨_, _, somewhere_eq_ok hwell w, size_somewhereFrom hwell hmade⟩
  · obtain ⟨p, w, hp, hsize⟩ := ofTree_searchSize t .empty
    refine ⟨{ p with source }, w.events.toList, ?_, hsize⟩
    simp only [ofString, h, make, hp, Except.map]

theorem searchSize_eq_paddedSize_reentered :
    reentered.validated = .ok reentered ∧ (∀ q ∈ reentered.states, q.number < 5) ∧
    (∃ b w', reentered.somewhere ⟨5, #[]⟩ = .ok (b, w') ∧ b.size = ⟨9, 680, 3⟩) ∧
    Tree.parse "a*" = .ok (.alternative (.factor (.star (.unstarred (.terminal 'a'))))) ∧
    ∃ p events, ofString "a*" = .ok (p, events) ∧ p.searchSize = p.bare.paddedSize := by
  have hparse :
      Tree.parse "a*" = .ok (.alternative (.factor (.star (.unstarred (.terminal 'a'))))) := by rfl
  obtain ⟨hsomewhere, _, hstring⟩ := searchSize_eq_paddedSize
  exact ⟨validated_reentered, made_reentered,
    hsomewhere reentered ⟨5, #[]⟩ validated_reentered made_reentered, hparse, hstring _ _ hparse⟩

end Pattern

end LineSearch
