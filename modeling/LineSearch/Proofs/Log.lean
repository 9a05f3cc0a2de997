import LineSearch.Proofs.Compile.Size
import LineSearch.Proofs.SearchSize

namespace LineSearch

open Automaton

def Event.settled (n : Nat) : Event := .closed n n 1

def settledRecord (n : Nat) : Record :=
  ⟨.trace, "nfagrep_core::epsilon", "epsilon closure: " ++ toString n ++ " seed edge(s) -> " ++
    toString n ++ " edge(s) in 1 pass(es)"⟩

theorem record_settled (n : Nat) : (Event.settled n).record = settledRecord n := by
  have hpasses : " edge(s) in " ++ toString 1 ++ " pass(es)" = " edge(s) in 1 pass(es)" := by
    decide
  rw [Event.settled, Event.record, settledRecord, ← hpasses]
  simp only [String.append_assoc]
  rfl

/-- So many relations were closed already, and nothing else was noted. -/
def Settles (k : Nat) (w w' : Workshop) : Prop :=
  ∃ sizes : List Nat, sizes.length = k ∧
    w'.events.toList = w.events.toList ++ sizes.map Event.settled

namespace Settles

variable {k : Nat} {w w' : Workshop} {hops : Hops}

theorem additive : Additive Settles where
  zero w := ⟨[], rfl, (List.append_nil _).symm⟩
  add {m n u v w} h h' := by
    obtain ⟨sizes, hlength, hevents⟩ := h
    obtain ⟨more, hlength', hevents'⟩ := h'
    refine ⟨sizes ++ more, ?_, ?_⟩
    · rw [List.length_append, hlength, hlength']
    · rw [hevents', hevents, List.map_append, List.append_assoc]

theorem of_isTrans (h : IsTrans State hops.Leads)
    (hw : w'.events = w.events.push (closed hops)) : Settles 1 w w' := by
  refine ⟨[hops.size], rfl, ?_⟩
  rw [hw, Array.toList_push, closed_of_isTrans h]
  rfl

end Settles

def noteCosts : Costs where
  literal _ := 0
  star := 1
  concat := 1
  union := 1

theorem apply_noteCosts : noteCosts.Apply Settles where
  toAdditive := Settles.additive
  literal c := by
    refine (makes_literal c (P := fun _ ↦ True) (fun _ _ _ ↦ trivial)).charges ?_
    intro rest w a w' hw h
    rw [literal_eq_ok] at h
    cases h
    exact Settles.additive.zero w
  star a := by
    refine (makes_star (P := fun _ ↦ True) (fun _ _ _ ↦ trivial)).charges ?_
    intro rest w b w' hw h
    rw [star_eq_ok (hw.wellFormed a (by simp))] at h
    cases h
    exact .of_isTrans isTrans_starSeeds rfl
  concat a b := by
    refine (makes_concat (P := fun _ ↦ True) (fun _ _ _ ↦ trivial)).charges ?_
    intro rest w c w' hw h
    have ha := hw.wellFormed a (by simp)
    have hb := hw.wellFormed b (by simp)
    have hab : Apart a b := List.rel_of_pairwise_cons hw.apart List.mem_cons_self
    rw [concat_eq_ok ha hb] at h
    cases h
    exact .of_isTrans (isTrans_concatSeeds ha hb hab) rfl
  union a b := by
    refine (makes_union (P := fun _ ↦ True) (fun _ _ _ _ _ _ ↦ trivial)).charges ?_
    intro rest w c w' hw h
    have ha := hw.wellFormed a (by simp)
    have hb := hw.wellFormed b (by simp)
    rw [union_eq_ok ha hb] at h
    cases h
    have htrans := isTrans_unionSeeds ha hb (hw.not_mem_fresh (a := a) (by simp))
      (hw.not_mem_fresh (a := b) (by simp))
    exact .of_isTrans htrans rfl

namespace Tree

def isOperation : Tree → Bool
  | star _ | concat _ _ | union _ _ => true
  | _ => false

theorem value_noteCosts (t : Tree) : t.value noteCosts.valuation = t.nodes.countP isOperation := by
  induction t with
  | terminal c => rfl
  | paren t ih | unstarred t ih | factor t ih | alternative t ih =>
    simpa [value, nodes, isOperation] using ih
  | star t ih | concat l r ihl ihr | union l r ihl ihr =>
    simp only [value, nodes, List.countP_cons, List.countP_append, isOperation, if_true, *]
    rfl

open Event (settled)

theorem compile_notes (t : Tree) (w : Workshop) :
    ∃ a w', ∃ joins : List Nat, t.compile w = .ok (a, w') ∧ Held [a] w' ∧
      joins.length = t.nodes.countP isOperation ∧
      w'.events.toList = w.events.toList ++ joins.map settled ++ [.compiled t.size a.size] := by
  obtain ⟨a, w₁, ha, hheld, hsettles⟩ := t.charges_build apply_noteCosts [] w (Held.nil w)
  obtain ⟨joins, hlength, hevents⟩ := hsettles
  have hcompile := Build.bind_eq ha (f := fun a ↦ do Build.note (.compiled t.size a.size); pure a)
  refine ⟨a, _, joins, hcompile, ⟨hheld.wellFormed, hheld.epsilonFree, hheld.made, hheld.apart⟩,
    hlength.trans t.value_noteCosts, ?_⟩
  simp only [Array.toList_push, hevents]

end Tree

section Padding

variable {a : Automaton} {k : Nat}

theorem isTrans_somewhereSeeds (ha : a.WellFormed) (hmade : ∀ q ∈ a.states, q.number < k) :
    ∀ seeds ∈ somewhereSeeds k a, IsTrans State (moves seeds).Leads := by
  have hpad := wellFormed_paddingFrom
  simp only [somewhereSeeds, List.forall_mem_cons, List.not_mem_nil, false_implies, implies_true,
    and_true]
  exact ⟨isTrans_starSeeds, isTrans_concatSeeds (hpad k) ha (apart_paddingFrom hmade),
    isTrans_starSeeds, isTrans_concatSeeds (wellFormed_concatOf (hpad k) ha) (hpad (k + 3))
      (apart_opened_paddingFrom hmade)⟩

theorem exists_map_closed_somewhereSeeds (ha : a.WellFormed)
    (hmade : ∀ q ∈ a.states, q.number < k) :
    ∃ paddings : List Nat, paddings.length = 4 ∧
      (somewhereSeeds k a).map (fun seeds ↦ closed (moves seeds)) = paddings.map Event.settled := by
  refine ⟨(somewhereSeeds k a).map (fun seeds ↦ (moves seeds).size), rfl, ?_⟩
  rw [List.map_map]
  refine List.map_congr_left (fun seeds hseeds ↦ ?_)
  exact closed_of_isTrans (isTrans_somewhereSeeds ha hmade seeds hseeds)

end Padding

namespace Pattern

open Event (settled)

/-- Making a pattern notes, in this order: for each star, concatenation and union of the tree a
relation that was closed already, the tree with the size of its automaton, four more closed
relations for the padding, and the size of the automaton that searches. The records tell of as many
pairs as there were seeds and of one pass, and a level above of the sizes. -/
theorem ofTree_notes (t : Tree) (w : Workshop) :
    ∃ p w', ∃ joins paddings : List Nat, ofTree t w = .ok (p, w') ∧
      joins.length = t.nodes.countP Tree.isOperation ∧ paddings.length = 4 ∧
      let notes := joins.map settled ++ [.compiled t.size p.bare.size] ++ paddings.map settled ++
        [.readyToSearch p.searchSize]
      w'.events.toList = w.events.toList ++ notes ∧
      notes.map Event.record =
        joins.map settledRecord ++
        [⟨.debug, "nfagrep_core::compiler",
          "compiled " ++ toString t.size ++ " node(s) into " ++ toString p.bare.size.states ++
            " state(s), " ++ toString p.bare.size.transitions ++ " transition(s), " ++
            toString p.bare.size.finals ++ " final(s)"⟩] ++
        paddings.map settledRecord ++
        [⟨.debug, "nfagrep_core::engine",
          "search automaton: " ++ toString p.searchSize.states ++ " state(s), " ++
            toString p.searchSize.transitions ++ " transition(s)"⟩] := by
  obtain ⟨bare, w₁, joins, hbare, hheld, hlength, hevents⟩ := t.compile_notes w
  have hwell := hheld.wellFormed bare List.mem_cons_self
  obtain ⟨f, _, hfresh, htree⟩ := ofTree_eq_ok hbare hwell
  obtain ⟨paddings, hfour, hpaddings⟩ := exists_map_closed_somewhereSeeds
    (wellFormed_renamed (f := f) hwell) (fun q hq ↦ (hfresh q hq).2)
  rw [hpaddings] at htree
  refine ⟨_, _, joins, paddings, htree, hlength, hfour, ?_, ?_⟩
  · simp only [Array.toList_push, Array.toList_appendList, hevents, List.append_assoc]
  · have hsettled : Event.record ∘ settled = settledRecord := funext record_settled
    simp only [List.map_append, List.map_map, hsettled]
    simp only [List.map_cons, List.map_nil, Event.record, String.append_assoc]
    rfl

end Pattern

end LineSearch
