import LineSearch.Proofs.Automaton.Edges
import Mathlib.Data.List.ProdSigma

namespace LineSearch.Automaton

open Alphabet (symbols)

theorem size_insert_of_not_mem {s : States} {q : State} (h : q ∉ s) :
    (s.insert q).size = s.size + 1 := by
  rw [Std.ExtTreeSet.size_insert, if_neg (by simpa using h)]

section States

variable {a b : Automaton} {head : State}

theorem size_states_literalBetween (c : Char) {start accept : State} (h : start ≠ accept) :
    (literalBetween c start accept).states.size = if c = Alphabet.emptySign then 1 else 2 := by
  unfold literalBetween
  split
  · rfl
  · exact (size_insert_of_not_mem (mt mem_singleton_iff.mp h)).trans rfl

theorem size_states_starFrom (hhead : head ∉ a.states) :
    (starFrom head a).states.size = a.states.size + 1 :=
  size_insert_of_not_mem hhead

theorem size_states_concatOf (hab : Apart a b) :
    (concatOf a b).states.size = a.states.size + b.states.size :=
  Std.ExtTreeSet.size_union_of_not_mem hab

theorem size_states_unionFrom (hab : Apart a b) (hha : head ∉ a.states) (hhb : head ∉ b.states) :
    (unionFrom head a b).states.size = a.states.size + b.states.size + 1 := by
  have hhead : head ∉ a.states ∪ b.states :=
    fun h ↦ (Std.ExtTreeSet.mem_union_iff.mp h).elim hha hhb
  exact (size_insert_of_not_mem hhead).trans
    (congrArg (· + 1) (Std.ExtTreeSet.size_union_of_not_mem hab))

end States

section Departures

variable {a : Automaton} {t : Transition}

def departures (a : Automaton) : List Transition :=
  a.transitions.toList.filter (·.source = a.start)

theorem mem_departures : t ∈ a.departures ↔ t ∈ a.transitions ∧ t.source = a.start := by
  simp [departures]

theorem nodup_departures (a : Automaton) : a.departures.Nodup := (nodup_toList _).filter _

def departuresFrom (s : States) (a : Automaton) : List Transition :=
  (s.toList ×ˢ a.departures).map (fun c ↦ { c.2 with source := c.1 })

theorem length_departuresFrom (s : States) (a : Automaton) :
    (departuresFrom s a).length = s.size * a.departures.length := by
  rw [departuresFrom, List.length_map, List.length_product, Std.ExtTreeSet.length_toList]

theorem mem_departuresFrom {s : States} : t ∈ departuresFrom s a ↔
    t.source ∈ s ∧ { t with source := a.start } ∈ a.transitions := by
  constructor
  · intro h
    obtain ⟨⟨q, ⟨label, source, destination⟩⟩, hc, rfl⟩ := List.mem_map.mp h
    obtain ⟨hq, hu⟩ := List.pair_mem_product.mp hc
    obtain ⟨hu, rfl⟩ := mem_departures.mp hu
    exact ⟨Std.ExtTreeSet.mem_toList.mp hq, hu⟩
  · intro h
    have hq := Std.ExtTreeSet.mem_toList.mpr h.1
    exact List.mem_map.mpr
      ⟨(t.source, _), List.pair_mem_product.mpr ⟨hq, mem_departures.mpr ⟨h.2, rfl⟩⟩, rfl⟩

theorem nodup_departuresFrom (s : States) (a : Automaton) : (departuresFrom s a).Nodup := by
  refine ((nodup_toList s).product (nodup_departures a)).map_on (fun c hc d hd heq ↦ ?_)
  obtain ⟨p, t⟩ := c
  obtain ⟨q, u⟩ := d
  have ht := (mem_departures.mp (List.pair_mem_product.mp hc).2).2
  have hu := (mem_departures.mp (List.pair_mem_product.mp hd).2).2
  cases t
  cases u
  simp_all

end Departures

section Concat

variable {a b : Automaton}

theorem size_transitions_concatOf (ha : a.WellFormed) (hb : b.WellFormed) (hab : Apart a b) :
    (concatOf a b).transitions.size =
      a.transitions.size + b.transitions.size + a.finals.size * b.departures.length := by
  have hoperands : (a.transitions.toList ++ b.transitions.toList).Nodup := by
    refine List.nodup_append'.mpr ⟨nodup_toList _, nodup_toList _, fun t hta htb ↦ ?_⟩
    rw [Std.ExtTreeSet.mem_toList] at hta htb
    exact hab _ (ha.joins t hta).1 (hb.joins t htb).1
  -- a copy begins where nothing of `b` does and ends where nothing of `a` does
  have hnodup : (a.transitions.toList ++ b.transitions.toList ++
      departuresFrom a.finals b).Nodup := by
    refine List.nodup_append'.mpr ⟨hoperands, nodup_departuresFrom _ b, fun t ht hcopy ↦ ?_⟩
    obtain ⟨hsource, htb⟩ := mem_departuresFrom.mp hcopy
    rcases List.mem_append.mp ht with ht | ht
    · rw [Std.ExtTreeSet.mem_toList] at ht
      exact hab _ (ha.joins t ht).2 (hb.joins _ htb).2
    · rw [Std.ExtTreeSet.mem_toList] at ht
      exact hab _ (ha.mem_of_final _ hsource) (hb.joins t ht).1
  have hmem (t : Transition) : t ∈ (concatOf a b).transitions ↔
      t ∈ a.transitions.toList ++ b.transitions.toList ++ departuresFrom a.finals b := by
    rw [mem_transitions_concatOf ha hb hab, List.mem_append, List.mem_append, mem_departuresFrom,
      Std.ExtTreeSet.mem_toList, Std.ExtTreeSet.mem_toList, or_assoc]
  rw [size_eq_length_of_mem_iff hnodup hmem, List.length_append, List.length_append,
    length_departuresFrom, Std.ExtTreeSet.length_toList, Std.ExtTreeSet.length_toList]

theorem size_finals_concatOf (ha : a.WellFormed) (hb : b.WellFormed) (hab : Apart a b) :
    (concatOf a b).finals.size =
      b.finals.size + if b.start ∈ b.finals then a.finals.size else 0 := by
  have hmem (q : State) := mem_finals_concatOf (q := q) ha hb hab
  split
  · next hstart =>
    have hdisjoint : ∀ q ∈ b.finals, q ∉ a.finals := by
      intro q hqb hqa
      exact hab q (ha.mem_of_final q hqa) (hb.mem_of_final q hqb)
    rw [← Std.ExtTreeSet.size_union_of_not_mem hdisjoint]
    congr 1
    apply Std.ExtTreeSet.ext_mem
    intro q
    rw [hmem, Std.ExtTreeSet.mem_union_iff]
    simp only [hstart, and_true]
  · next hstart =>
    congr 1
    apply Std.ExtTreeSet.ext_mem
    intro q
    rw [hmem]
    simp only [hstart, and_false, or_false]

theorem size_concatOf (ha : a.WellFormed) (hb : b.WellFormed) (hab : Apart a b) :
    (concatOf a b).size = ⟨a.states.size + b.states.size,
      a.transitions.size + b.transitions.size + a.finals.size * b.departures.length,
      b.finals.size + if b.start ∈ b.finals then a.finals.size else 0⟩ := by
  rw [size, size_states_concatOf hab, size_transitions_concatOf ha hb hab,
    size_finals_concatOf ha hb hab]

end Concat

section Star

variable {a : Automaton} {head : State}

/-- Where nothing leaves a final, all that a star copies is new. -/
theorem size_transitions_starFrom (ha : a.WellFormed) (hhead : head ∉ a.states)
    (hleave : ∀ t ∈ a.transitions, t.source ∉ a.finals) :
    (starFrom head a).transitions.size =
      a.transitions.size + (a.finals.size + 1) * a.departures.length := by
  have hnodup : (a.transitions.toList ++ departuresFrom (a.finals.insert head) a).Nodup := by
    refine List.nodup_append'.mpr ⟨nodup_toList _, nodup_departuresFrom _ a, fun t ht hcopy ↦ ?_⟩
    rw [Std.ExtTreeSet.mem_toList] at ht
    rcases mem_insert_iff.mp (mem_departuresFrom.mp hcopy).1 with hsource | hsource
    · exact hhead (hsource ▸ (ha.joins t ht).1)
    · exact hleave t ht hsource
  have hmem (t : Transition) : t ∈ (starFrom head a).transitions ↔
      t ∈ a.transitions.toList ++ departuresFrom (a.finals.insert head) a := by
    rw [mem_transitions_starFrom, List.mem_append, mem_departuresFrom, mem_insert_iff,
      Std.ExtTreeSet.mem_toList]
  have hfinal : head ∉ a.finals := fun h ↦ hhead (ha.mem_of_final head h)
  rw [size_eq_length_of_mem_iff hnodup hmem, List.length_append, length_departuresFrom,
    size_insert_of_not_mem hfinal, Std.ExtTreeSet.length_toList]

theorem size_finals_starFrom (ha : a.WellFormed) (hhead : head ∉ a.states) :
    (starFrom head a).finals.size = a.finals.size + 1 := by
  have hfinals : (starFrom head a).finals = a.finals.insert head := by
    apply Std.ExtTreeSet.ext_mem
    intro q
    rw [mem_finals_starFrom, mem_insert_iff]
  rw [hfinals, size_insert_of_not_mem (fun h ↦ hhead (ha.mem_of_final head h))]

theorem length_departures_starFrom (ha : a.WellFormed) (hhead : head ∉ a.states) :
    (starFrom head a).departures.length = a.departures.length := by
  have hperm : (starFrom head a).departures.Perm (departuresFrom {head} a) := by
    apply (List.perm_ext_iff_of_nodup (nodup_departures _) (nodup_departuresFrom _ a)).mpr
    intro t
    rw [mem_departures, mem_transitions_starFrom, mem_departuresFrom, mem_singleton_iff]
    constructor
    · rintro ⟨ht | ht, hsource⟩
      · exact absurd (ha.joins t ht).1 (hsource ▸ hhead)
      · exact ⟨hsource, ht.2⟩
    · intro h
      exact ⟨Or.inr ⟨Or.inl h.1, h.2⟩, h.1⟩
  rw [hperm.length_eq, length_departuresFrom]
  exact Nat.one_mul _

end Star

section Padding

variable {start accept : State}

theorem size_transitions_anySymbolBetween (start accept : State) :
    (anySymbolBetween start accept).transitions.size = 96 := by
  have hnodup : (symbols.map (fun c ↦ Transition.symbol c start accept)).Nodup := by
    refine Alphabet.nodup_symbols.map (fun c d h ↦ ?_)
    exact Label.symbol.inj (Transition.mk.inj h).1
  rw [size_eq_length_of_mem_iff hnodup, List.length_map, Alphabet.length_symbols]
  simp [anySymbolBetween]

theorem source_anySymbolBetween {t : Transition}
    (ht : t ∈ (anySymbolBetween start accept).transitions) : t.source = start := by
  simp only [anySymbolBetween, Std.ExtTreeSet.mem_ofList, List.contains_iff_mem, List.mem_map] at ht
  obtain ⟨c, _, rfl⟩ := ht
  rfl

theorem length_departures_anySymbolBetween (start accept : State) :
    (anySymbolBetween start accept).departures.length = 96 := by
  have hall : (anySymbolBetween start accept).departures =
      (anySymbolBetween start accept).transitions.toList := by
    refine List.filter_eq_self.mpr (fun t ht ↦ ?_)
    exact decide_eq_true (source_anySymbolBetween (Std.ExtTreeSet.mem_toList.mp ht))
  rw [hall, Std.ExtTreeSet.length_toList, size_transitions_anySymbolBetween]

theorem not_mem_states_anySymbolBetween (k : Nat) :
    (⟨k + 2⟩ : State) ∉ (anySymbolBetween ⟨k⟩ ⟨k + 1⟩).states := by
  rw [anySymbolBetween, mem_pair_iff]
  simp

theorem size_paddingFrom (k : Nat) : (paddingFrom k).size = ⟨3, 288, 2⟩ := by
  have hany := wellFormed_anySymbolBetween ⟨k⟩ ⟨k + 1⟩
  have hhead := not_mem_states_anySymbolBetween k
  have hleave : ∀ t ∈ (anySymbolBetween ⟨k⟩ ⟨k + 1⟩).transitions,
      t.source ∉ (anySymbolBetween ⟨k⟩ ⟨k + 1⟩).finals := by
    intro t ht
    rw [source_anySymbolBetween ht, anySymbolBetween, mem_singleton_iff]
    simp
  have hfinals : (anySymbolBetween ⟨k⟩ ⟨k + 1⟩).finals.size = 1 := rfl
  have hstates : (anySymbolBetween ⟨k⟩ ⟨k + 1⟩).states.size = 2 :=
    size_insert_of_not_mem (by simp)
  rw [size, paddingFrom, size_states_starFrom hhead, size_finals_starFrom hany hhead,
    size_transitions_starFrom hany hhead hleave, size_transitions_anySymbolBetween,
    length_departures_anySymbolBetween, hfinals, hstates]

theorem length_departures_paddingFrom (k : Nat) : (paddingFrom k).departures.length = 96 := by
  rw [paddingFrom, length_departures_starFrom (wellFormed_anySymbolBetween _ _)
    (not_mem_states_anySymbolBetween k), length_departures_anySymbolBetween]

theorem start_mem_finals_paddingFrom (k : Nat) :
    (paddingFrom k).start ∈ (paddingFrom k).finals :=
  mem_finals_starFrom.mpr (Or.inl rfl)

end Padding

section Somewhere

variable {a : Automaton} {k : Nat}

theorem number_of_mem_paddingFrom {q : State} (h : q ∈ (paddingFrom k).states) :
    k ≤ q.number ∧ q.number < k + 3 := by
  rcases mem_states_starFrom.mp h with rfl | h
  · simp
  · rcases mem_pair_iff.mp h with rfl | rfl <;> simp

theorem apart_paddingFrom (h : ∀ q ∈ a.states, q.number < k) : Apart (paddingFrom k) a :=
  apart_of_le_of_lt (fun _ hq ↦ (number_of_mem_paddingFrom hq).1) h

theorem apart_opened_paddingFrom (h : ∀ q ∈ a.states, q.number < k) :
    Apart (concatOf (paddingFrom k) a) (paddingFrom (k + 3)) := by
  refine (apart_paddingFrom (fun q hq ↦ ?_)).symm
  rcases mem_states_concatOf.mp hq with hq | hq
  · exact (number_of_mem_paddingFrom hq).2
  · exact (h q hq).trans_le (Nat.le_add_right k 3)

/-- What padding adds to an automaton. A final start counts for the two finals of the padding before
it. -/
def paddedSize (a : Automaton) : Size :=
  let d := a.departures.length
  let z := if a.start ∈ a.finals then 2 else 0
  ⟨a.states.size + 6, a.transitions.size + 576 + 2 * d + 96 * (a.finals.size + z),
    a.finals.size + z + 2⟩

theorem size_somewhereFrom (ha : a.WellFormed) (hmade : ∀ q ∈ a.states, q.number < k) :
    (somewhereFrom k a).size = a.paddedSize := by
  have hpad := wellFormed_paddingFrom
  have hopened := wellFormed_concatOf (hpad k) ha
  obtain ⟨hstates, htransitions, hfinals⟩ :=
    Size.mk.inj (size_concatOf (hpad k) ha (apart_paddingFrom hmade))
  have hbefore := Size.mk.inj (size_paddingFrom k)
  have hafter := Size.mk.inj (size_paddingFrom (k + 3))
  rw [somewhereFrom, size_concatOf hopened (hpad (k + 3)) (apart_opened_paddingFrom hmade), hstates,
    htransitions, hfinals, hbefore.1, hbefore.2.1, hbefore.2.2, hafter.1, hafter.2.1, hafter.2.2,
    length_departures_paddingFrom, if_pos (start_mem_finals_paddingFrom _), paddedSize]
  simp only [Size.mk.injEq]
  omega

end Somewhere

end LineSearch.Automaton
