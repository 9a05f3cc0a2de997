import LineSearch.Proofs.Automaton.Sizes
import LineSearch.Proofs.Automaton.Spending
import LineSearch.Proofs.Compile.Charges
import LineSearch.Proofs.Compile.PositionAutomaton
import Mathlib.Data.List.ProdSigma

namespace LineSearch

open Automaton

namespace Tree

def nodes : Tree → List Tree
  | terminal c => [terminal c]
  | paren t => paren t :: t.nodes
  | unstarred t => unstarred t :: t.nodes
  | star t => star t :: t.nodes
  | factor t => factor t :: t.nodes
  | concat l r => concat l r :: (l.nodes ++ r.nodes)
  | alternative t => alternative t :: t.nodes
  | union l r => union l r :: (l.nodes ++ r.nodes)

def isLiteral : Tree → Bool
  | terminal c => c != Alphabet.emptySign
  | _ => false

def isStar : Tree → Bool
  | star _ => true
  | _ => false

def isUnion : Tree → Bool
  | union _ _ => true
  | _ => false

/-- A literal takes two states, the empty sign one, and a star and a union take a head. -/
def stateCount (t : Tree) : Nat :=
  2 * t.nodes.countP isLiteral + t.nodes.countP isEpsilon + t.nodes.countP isStar +
    t.nodes.countP isUnion

theorem length_symbols_positions (t : Tree) :
    t.positions.symbols.length = t.nodes.countP isLiteral := by
  induction t with
  | terminal c =>
    by_cases hc : c = Alphabet.emptySign <;>
      simp [positions, nodes, isLiteral, hc, Positions.empty, Positions.single]
  | paren t ih | unstarred t ih | factor t ih | alternative t ih | star t ih =>
    simpa [positions, nodes, isLiteral, List.countP_cons, Positions.star] using ih
  | concat l r ihl ihr | union l r ihl ihr =>
    simp [positions, nodes, isLiteral, Positions.concat, Positions.union, ihl, ihr]

end Tree

def Valuation.stateCount : Valuation Nat where
  terminal c := if c = Alphabet.emptySign then 1 else 2
  star n := n + 1
  concat m n := m + n
  union m n := m + n + 1
  concat_assoc := Nat.add_assoc
  union_assoc := by omega

theorem Tree.value_stateCount (t : Tree) : t.value Valuation.stateCount = t.stateCount := by
  induction t with
  | terminal c =>
    by_cases hc : c = Alphabet.emptySign <;>
      simp [value, Valuation.stateCount, stateCount, nodes, isLiteral, isEpsilon, isStar, isUnion, hc]
  | paren t ih | unstarred t ih | factor t ih | alternative t ih =>
    simpa [value, stateCount, nodes, isLiteral, isEpsilon, isStar, isUnion] using ih
  | star t ih =>
    rw [value, ih]
    simp only [Valuation.stateCount, stateCount, nodes, List.countP_cons, isLiteral, isEpsilon, isStar,
      isUnion, Bool.false_eq_true, if_false, if_true]
    omega
  | concat l r ihl ihr | union l r ihl ihr =>
    rw [value, ihl, ihr]
    simp only [Valuation.stateCount, stateCount, nodes, List.countP_cons, List.countP_append, isLiteral,
      isEpsilon, isStar, isUnion, Bool.false_eq_true, if_false, if_true]
    omega

theorem Valuation.describes_stateCount :
    Valuation.stateCount.Describes (fun n a ↦ a.states.size = n ∧ ∃ q, q ∈ a.finals) where
  literal c start accept h := by
    refine ⟨size_states_literalBetween c h, ?_⟩
    unfold literalBetween
    split
    · exact ⟨start, by simp⟩
    · exact ⟨accept, by simp⟩
  star n a head ha hhead h :=
    ⟨by rw [size_states_starFrom hhead, h.1]; rfl, head, mem_finals_starFrom.mpr (Or.inl rfl)⟩
  concat m n a b ha hb hab h h' := by
    obtain ⟨q, hq⟩ := h'.2
    refine ⟨?_, q, (mem_finals_concatOf ha hb hab).mpr (Or.inl hq)⟩
    rw [size_states_concatOf hab, h.1, h'.1]
    rfl
  union m n a b head ha hb hab hha hhb h h' := by
    obtain ⟨q, hq⟩ := h.2
    refine ⟨?_, q, (mem_finals_unionFrom ha hb hab hha hhb).mpr (Or.inl hq)⟩
    rw [size_states_unionFrom hab hha hhb, h.1, h'.1]
    rfl

def HandsOut (n : Nat) (w w' : Workshop) : Prop := w'.next = w.next + n

def stateCosts : Costs where
  literal c := if c = Alphabet.emptySign then 1 else 2
  star := 1
  concat := 0
  union := 1

theorem Spends.charges {x : Build Automaton} {used : List Automaton} {n : Nat} (h : Spends x n)
    (hx : Makes x used fun _ ↦ True) : Charges HandsOut x used n :=
  hx.charges (fun _ w a w' _ ha ↦ h w a w' ha)

theorem apply_stateCosts : stateCosts.Apply HandsOut where
  zero w := rfl
  add h h' := by
    unfold HandsOut at *
    omega
  literal c := (spends_literal c).charges (makes_literal c (fun _ _ _ ↦ trivial))
  star a := (spends_star a).charges (makes_star (fun _ _ _ ↦ trivial))
  concat a b := (spends_concat a b).charges (makes_concat (fun _ _ _ ↦ trivial))
  union a b := (spends_union a b).charges (makes_union (fun _ _ _ _ _ _ ↦ trivial))

namespace Tree

theorem spends_build (t : Tree) : Spends t.build (t.value Valuation.stateCount) := by
  intro w a w' h
  obtain ⟨b, w'', hb, _, hspent⟩ := t.charges_build apply_stateCosts [] w (Held.nil w)
  obtain ⟨_, rfl⟩ := Prod.mk.inj (Except.ok.inj (h.symm.trans hb))
  exact hspent

theorem spends_compile (t : Tree) : Spends t.compile t.stateCount := by
  rw [← value_stateCount]
  exact t.spends_build.bind fun _ ↦ (Spends.note _).bind fun _ ↦ .pure _

end Tree

section Transitions

variable {a : Automaton} {x : Positions} {qs : List State}

/-- A transition is known from its two ends. -/
theorem Automaton.Positional.eq_of_ends (hx : a.Positional x qs) (hqs : qs.Nodup)
    {t u : Transition} (ht : t ∈ a.transitions) (hu : u ∈ a.transitions)
    (hsource : t.source = u.source) (hdestination : t.destination = u.destination) : t = u := by
  have hlabel := hx.label_eq hqs ht hu hdestination
  cases t
  cases u
  simp_all

theorem Automaton.Positional.size_transitions_le (hx : a.Positional x qs) (hqs : qs.Nodup)
    (ha : a.WellFormed) : a.transitions.size ≤ a.states.size * x.symbols.length := by
  have hends : (a.transitions.toList.map (fun t ↦ (t.source, t.destination))).Nodup := by
    refine (nodup_toList _).map_on (fun t ht u hu h ↦ ?_)
    obtain ⟨hsource, hdestination⟩ := Prod.mk.inj h
    exact hx.eq_of_ends hqs (Std.ExtTreeSet.mem_toList.mp ht) (Std.ExtTreeSet.mem_toList.mp hu)
      hsource hdestination
  have hsub : a.transitions.toList.map (fun t ↦ (t.source, t.destination)) ⊆
      a.states.toList ×ˢ qs := by
    intro ends h
    obtain ⟨t, ht, rfl⟩ := List.mem_map.mp h
    rw [Std.ExtTreeSet.mem_toList] at ht
    exact List.pair_mem_product.mpr
      ⟨Std.ExtTreeSet.mem_toList.mpr (ha.joins t ht).1, hx.destination_mem ht⟩
  have hle := hends.length_le_of_subset hsub
  rwa [List.length_map, List.length_product, Std.ExtTreeSet.length_toList,
    Std.ExtTreeSet.length_toList, hx.length_eq] at hle

end Transitions

/-- The automaton of a tree has two states for each literal and one for each empty sign, star and
union, which are as many as were made for it. It has a final state, no two transitions between the
same states, and no more of them than there are pairs of a state and a literal. -/
theorem Tree.compile_size (t : Tree) (w : Workshop) :
    let m := t.nodes.countP isLiteral
    let n := 2 * m + t.nodes.countP isEpsilon + t.nodes.countP isStar + t.nodes.countP isUnion
    ∃ a w', t.compile w = .ok (a, w') ∧ a.states.size = n ∧ w'.next = w.next + n ∧
      (∃ q, q ∈ a.finals) ∧ a.transitions.size ≤ n * m ∧
      ∀ u ∈ a.transitions, ∀ v ∈ a.transitions,
        u.source = v.source → u.destination = v.destination → u = v := by
  obtain ⟨w', ht, _, hheld⟩ := t.madeFlat [] w (Held.nil w)
  obtain ⟨a, _, ha, _, hsize, hfinal⟩ := makes_build Valuation.describes_stateCount t [] w (Held.nil w)
  -- The automaton that the valuation describes is the one that is drafted: the same build made both.
  obtain ⟨rfl, rfl⟩ := Prod.mk.inj (Except.ok.inj (ha.symm.trans ht))
  have hcompile := Build.bind_eq ht (f := fun a ↦ do Build.note (.compiled t.size a.size); pure a)
  have hpositional := t.draftsPositions w.next
  have hnodup := t.flat.nodup_accepts_draft w.next
  have htransitions := hpositional.size_transitions_le hnodup (hheld.wellFormed _ List.mem_cons_self)
  rw [value_stateCount] at hsize
  rw [hsize, length_symbols_positions] at htransitions
  refine ⟨_, _, hcompile, hsize, t.spends_compile w _ _ hcompile, hfinal, htransitions, ?_⟩
  exact fun _ hu _ hv ↦ hpositional.eq_of_ends hnodup hu hv

end LineSearch
