import LineSearch.Automaton.Graph
import LineSearch.Proofs.Automaton.Renaming

namespace LineSearch

theorem toList_ofList_of_pairwise {α : Type} [Ord α] [Std.TransOrd α] [Std.LawfulEqOrd α]
    [DecidableEq α] {members : List α} (h : members.Pairwise (fun a b ↦ compare a b = .lt)) :
    (Std.ExtTreeSet.ofList members : Std.ExtTreeSet α).toList = members := by
  have hne {a b : α} (hab : compare a b = .lt) : a ≠ b := by
    intro heq
    simp [heq] at hab
  have hperm : (Std.ExtTreeSet.ofList members : Std.ExtTreeSet α).toList.Perm members := by
    apply toList_perm_of_mem_iff (h.imp hne)
    intro a
    rw [Std.ExtTreeSet.mem_ofList, List.contains_iff_mem]
  refine hperm.eq_of_pairwise (fun a b _ _ hab hba ↦ ?_) Std.ExtTreeSet.ordered_toList h
  exact absurd hba (Std.OrientedCmp.not_lt_of_lt hab)

namespace Automaton

variable {a : Automaton} {f : State → State}

def InOrder (a : Automaton) (f : State → State) : Prop :=
  ∀ p ∈ a.states, ∀ q ∈ a.states, p.number < q.number → (f p).number < (f q).number

theorem InOrder.compare_eq (hf : a.InOrder f) {p q : State} (hp : p ∈ a.states)
    (hq : q ∈ a.states) : compare (f p) (f q) = compare p q := by
  change compare (f p).number (f q).number = compare p.number q.number
  rcases Nat.lt_trichotomy p.number q.number with h | h | h
  · rw [Nat.compare_eq_lt.mpr h, Nat.compare_eq_lt.mpr (hf p hp q hq h)]
  · obtain rfl : p = q := by
      cases p
      cases q
      exact congrArg State.mk h
    simp
  · rw [Nat.compare_eq_gt.mpr h, Nat.compare_eq_gt.mpr (hf q hq p hp h)]

theorem InOrder.compare_transition_eq (hf : a.InOrder f) {t u : Transition} (ht : a.Joins t)
    (hu : a.Joins u) :
    compare (renamedTransition f t) (renamedTransition f u) = compare t u := by
  change ((compare (f t.source) (f u.source)).then
    ((compare (f t.destination) (f u.destination)).then (compare t.label.key u.label.key))) = _
  rw [hf.compare_eq ht.1 hu.1, hf.compare_eq ht.2 hu.2]
  rfl

theorem InOrder.toList_renamed (hf : a.InOrder f) (ha : a.WellFormed) :
    (a.renamed f).states.toList = a.states.toList.map f ∧
    (a.renamed f).finals.toList = a.finals.toList.map f ∧
    (a.renamed f).transitions.toList = a.transitions.toList.map (renamedTransition f) := by
  refine ⟨toList_ofList_of_pairwise ?_, toList_ofList_of_pairwise ?_,
    toList_ofList_of_pairwise ?_⟩ <;> rw [List.pairwise_map]
  · refine Std.ExtTreeSet.ordered_toList.imp_of_mem (fun hp hq h ↦ ?_)
    rwa [hf.compare_eq (Std.ExtTreeSet.mem_toList.mp hp) (Std.ExtTreeSet.mem_toList.mp hq)]
  · refine Std.ExtTreeSet.ordered_toList.imp_of_mem (fun hp hq h ↦ ?_)
    rwa [hf.compare_eq (ha.mem_of_final _ (Std.ExtTreeSet.mem_toList.mp hp))
      (ha.mem_of_final _ (Std.ExtTreeSet.mem_toList.mp hq))]
  · refine Std.ExtTreeSet.ordered_toList.imp_of_mem (fun ht hu h ↦ ?_)
    rwa [hf.compare_transition_eq (ha.joins _ (Std.ExtTreeSet.mem_toList.mp ht))
      (ha.joins _ (Std.ExtTreeSet.mem_toList.mp hu))]

theorem rank_eq (a : Automaton) {i : Nat} {q : State} (h : a.states.toList[i]? = some q) :
    a.ranks.getD q 0 = i := by
  have hdistinct : (a.states.toList.zipIdx.map Prod.fst).Pairwise
      (fun p q ↦ ¬compare p q = .eq) := by
    rw [List.zipIdx_map_fst]
    exact Std.ExtTreeSet.distinct_toList
  exact Std.ExtTreeMap.getD_ofList_of_mem Std.ReflCmp.compare_self (List.pairwise_map.mp hdistinct)
    (List.mk_mem_zipIdx_iff_getElem?.mpr h)

theorem InOrder.rank_renamed (hf : a.InOrder f) (ha : a.WellFormed) {q : State}
    (hq : q ∈ a.states) : (a.renamed f).ranks.getD (f q) 0 = a.ranks.getD q 0 := by
  obtain ⟨i, hi⟩ := List.mem_iff_getElem?.mp (Std.ExtTreeSet.mem_toList.mpr hq)
  rw [rank_eq a hi]
  refine rank_eq _ ?_
  rw [(hf.toList_renamed ha).1, List.getElem?_map, hi]
  rfl

/-- The graph does not depend on the numbers of the states. -/
theorem graph_renamed (ha : a.WellFormed) (hf : a.InOrder f) : (a.renamed f).graph = a.graph := by
  obtain ⟨_, hfinals, htransitions⟩ := hf.toList_renamed ha
  have hedges {ts : List Transition} (hts : ∀ t ∈ ts, a.Joins t) :
      (ts.map (renamedTransition f)).foldr (fun t ↦ Graph.join
        ((a.renamed f).ranks.getD t.source 0) ((a.renamed f).ranks.getD t.destination 0) t.label) [] =
      ts.foldr (fun t ↦ Graph.join (a.ranks.getD t.source 0) (a.ranks.getD t.destination 0)
        t.label) [] := by
    induction ts with
    | nil => rfl
    | cons t ts ih =>
      obtain ⟨ht, hts⟩ := List.forall_mem_cons.mp hts
      simp only [List.map_cons, List.foldr_cons, ih hts, renamedTransition,
        hf.rank_renamed ha ht.1, hf.rank_renamed ha ht.2]
  simp only [graph, Graph.mk.injEq, hfinals, htransitions, List.map_map]
  refine ⟨hf.rank_renamed ha ha.start_mem, List.map_congr_left (fun q hq ↦ ?_),
    hedges (fun t ht ↦ ?_)⟩
  · exact hf.rank_renamed ha (ha.mem_of_final q (Std.ExtTreeSet.mem_toList.mp hq))
  · exact ha.joins t (Std.ExtTreeSet.mem_toList.mp ht)

end Automaton

end LineSearch
