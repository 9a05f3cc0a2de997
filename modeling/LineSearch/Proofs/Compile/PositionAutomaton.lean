import LineSearch.Proofs.Automaton.Edges
import LineSearch.Proofs.Compile.FlatTree
import LineSearch.Proofs.Compile.Positions

namespace LineSearch

open Automaton

namespace Automaton

def LeadsTo (a : Automaton) (p q : State) : Prop := ∃ label, ⟨label, p, q⟩ ∈ a.transitions

def At (states : List State) (s : Finset Nat) (q : State) : Prop := ∃ i ∈ s, states[i]? = some q

section At

variable {ps qs : List State} {s u : Finset Nat} {q : State}

theorem at_union : At ps (s ∪ u) q ↔ At ps s q ∨ At ps u q := by
  simp only [At, Finset.mem_union, or_and_right, exists_or]

theorem at_if {P : Prop} [Decidable P] : At ps (if P then s else ∅) q ↔ P ∧ At ps s q := by
  by_cases h : P <;> simp [At, h]

theorem mem_if_empty {P : Prop} [Decidable P] {i : Nat} :
    (i ∈ if P then s else ∅) ↔ P ∧ i ∈ s := by
  by_cases h : P <;> simp [h]

theorem at_append_left (h : ∀ i ∈ s, i < ps.length) : At (ps ++ qs) s q ↔ At ps s q := by
  refine exists_congr fun i ↦ and_congr_right fun hi ↦ ?_
  rw [List.getElem?_append_left (h i hi)]

theorem at_append_right : At (ps ++ qs) (Positions.shift ps.length s) q ↔ At qs s q := by
  simp only [At, Positions.mem_shift]
  constructor
  · rintro ⟨i, ⟨hle, hi⟩, hq⟩
    rw [List.getElem?_append_right hle] at hq
    exact ⟨i - ps.length, hi, hq⟩
  · rintro ⟨i, hi, hq⟩
    refine ⟨i + ps.length, ⟨Nat.le_add_left .., by simpa using hi⟩, ?_⟩
    rwa [List.getElem?_append_right (Nat.le_add_left ..), Nat.add_sub_cancel]

end At

def ReadsAt (symbols : List Char) (states : List State) (t : Transition) : Prop :=
  ∃ (i : Nat) (c : Char),
    symbols[i]? = some c ∧ states[i]? = some t.destination ∧ t.label = .symbol c

section ReadsAt

variable {cs ds : List Char} {ps qs : List State} {t : Transition}

theorem readsAt_append_left (h : ReadsAt cs ps t) : ReadsAt (cs ++ ds) (ps ++ qs) t := by
  obtain ⟨i, c, hc, hp, hlabel⟩ := h
  refine ⟨i, c, ?_, ?_, hlabel⟩
  · rw [List.getElem?_append_left (List.getElem?_eq_some_iff.mp hc).1, hc]
  · rw [List.getElem?_append_left (List.getElem?_eq_some_iff.mp hp).1, hp]

theorem readsAt_append_right (hlength : ps.length = cs.length) (h : ReadsAt ds qs t) :
    ReadsAt (cs ++ ds) (ps ++ qs) t := by
  obtain ⟨i, c, hc, hq, hlabel⟩ := h
  refine ⟨cs.length + i, c, ?_, ?_, hlabel⟩
  · rw [List.getElem?_append_right (Nat.le_add_right ..), Nat.add_sub_cancel_left, hc]
  · rw [← hlength, List.getElem?_append_right (Nat.le_add_right ..), Nat.add_sub_cancel_left, hq]

end ReadsAt

/-- The automaton has the given states at the positions, every transition leads to one of them and
reads the symbol there, and where the start and these states lead and which of them are final is as
the positions have it. -/
structure Positional (a : Automaton) (x : Positions) (qs : List State) : Prop where
  length_eq : qs.length = x.symbols.length
  mem_states : ∀ q ∈ qs, q ∈ a.states
  start_not_mem : a.start ∉ qs
  readsAt : ∀ t ∈ a.transitions, ReadsAt x.symbols qs t
  start_leadsTo_iff : ∀ q, a.LeadsTo a.start q ↔ At qs x.first q
  leadsTo_iff : ∀ (i : Nat) (p : State), qs[i]? = some p → ∀ q, a.LeadsTo p q ↔ At qs (x.follow i) q
  mem_finals_iff : ∀ (i : Nat) (p : State), qs[i]? = some p → (p ∈ a.finals ↔ i ∈ x.last)
  start_mem_finals_iff : a.start ∈ a.finals ↔ x.nullable = true

namespace Positional

variable {a : Automaton} {x : Positions} {qs : List State} {i : Nat} {p q : State}

theorem lt_of_first (hx : a.Positional x qs) : ∀ i ∈ x.first, i < qs.length :=
  hx.length_eq ▸ x.lt_of_first

theorem lt_of_last (hx : a.Positional x qs) : ∀ i ∈ x.last, i < qs.length :=
  hx.length_eq ▸ x.lt_of_last

theorem lt_of_follow (hx : a.Positional x qs) (i : Nat) : ∀ j ∈ x.follow i, j < qs.length :=
  hx.length_eq ▸ x.lt_of_follow i

theorem mem_of_getElem? (hx : a.Positional x qs) (hp : qs[i]? = some p) : p ∈ a.states :=
  hx.mem_states p (List.mem_of_getElem? hp)

theorem ne_of_getElem? (hx : a.Positional x qs) (hp : qs[i]? = some p) (hq : q ∉ a.states) :
    p ≠ q :=
  fun h ↦ hq (h ▸ hx.mem_of_getElem? hp)

theorem destination_mem (hx : a.Positional x qs) {t : Transition} (ht : t ∈ a.transitions) :
    t.destination ∈ qs := by
  obtain ⟨i, c, _, hq, _⟩ := hx.readsAt t ht
  exact List.mem_of_getElem? hq

theorem label_eq (hx : a.Positional x qs) (hqs : qs.Nodup) {t u : Transition}
    (ht : t ∈ a.transitions) (hu : u ∈ a.transitions) (h : t.destination = u.destination) :
    t.label = u.label := by
  obtain ⟨i, c, hc, hi, htlabel⟩ := hx.readsAt t ht
  obtain ⟨j, d, hd, hj, hulabel⟩ := hx.readsAt u hu
  obtain rfl : i = j := (List.getElem?_inj (List.getElem?_eq_some_iff.mp hi).1 hqs).mp
    (hi.trans (h ▸ hj.symm))
  rw [htlabel, hulabel, Option.some.inj (hc.symm.trans hd)]

end Positional

section LeadsTo

variable {a b : Automaton} {head p q : State}

theorem LeadsTo.source_mem (ha : a.WellFormed) (h : a.LeadsTo p q) : p ∈ a.states := by
  obtain ⟨label, h⟩ := h
  exact (ha.joins _ h).1

theorem Apart.not_leadsTo (hab : Apart a b) (hb : b.WellFormed) (hp : p ∈ a.states) :
    ¬b.LeadsTo p q :=
  fun h ↦ hab p hp (h.source_mem hb)

theorem Apart.not_mem_finals (hab : Apart a b) (hb : b.WellFormed) (hp : p ∈ a.states) :
    p ∉ b.finals :=
  fun h ↦ hab p hp (hb.mem_of_final p h)

theorem leadsTo_unionFrom (ha : a.WellFormed) (hb : b.WellFormed) (hab : Apart a b)
    (hha : head ∉ a.states) (hhb : head ∉ b.states) :
    (unionFrom head a b).LeadsTo p q ↔ a.LeadsTo p q ∨ b.LeadsTo p q ∨
      p = head ∧ (a.LeadsTo a.start q ∨ b.LeadsTo b.start q) := by
  simp only [LeadsTo, mem_transitions_unionFrom ha hb hab hha hhb, exists_or, exists_and_left]

theorem leadsTo_concatOf (ha : a.WellFormed) (hb : b.WellFormed) (hab : Apart a b) :
    (concatOf a b).LeadsTo p q ↔
      a.LeadsTo p q ∨ b.LeadsTo p q ∨ p ∈ a.finals ∧ b.LeadsTo b.start q := by
  simp only [LeadsTo, mem_transitions_concatOf ha hb hab, exists_or, exists_and_left]

theorem leadsTo_starFrom :
    (starFrom head a).LeadsTo p q ↔
      a.LeadsTo p q ∨ (p = head ∨ p ∈ a.finals) ∧ a.LeadsTo a.start q := by
  simp only [LeadsTo, mem_transitions_starFrom, exists_or, exists_and_left]

end LeadsTo

section Operators

variable {a b : Automaton} {head : State} {x y : Positions} {qs rs : List State}

theorem positional_literalBetween_sign (start accept : State) :
    (literalBetween Alphabet.emptySign start accept).Positional .empty [] := by
  rw [literalBetween, if_pos rfl]
  constructor <;> simp [Positions.empty, LeadsTo, At]

theorem positional_literalBetween {c : Char} {start accept : State} (h : start ≠ accept)
    (hc : c ≠ Alphabet.emptySign) :
    (literalBetween c start accept).Positional (.single c) [accept] := by
  rw [literalBetween, if_neg hc]
  constructor
  · rfl
  · simp
  · simpa using h
  · intro t ht
    obtain rfl := mem_singleton_iff.mp ht
    exact ⟨0, c, rfl, rfl, rfl⟩
  · simp [LeadsTo, Transition.symbol, At, Positions.single]
  · intro i p hp q
    obtain ⟨rfl, rfl⟩ : i = 0 ∧ accept = p := by
      cases i <;> simp_all
    simp [LeadsTo, Transition.symbol, At, Positions.single, h]
  · intro i p hp
    obtain ⟨rfl, rfl⟩ : i = 0 ∧ accept = p := by
      cases i <;> simp_all
    simp [Positions.single]
  · simp [Positions.single, Ne.symm h]

theorem positional_starFrom (ha : a.WellFormed) (hhead : head ∉ a.states)
    (hx : a.Positional x qs) : (starFrom head a).Positional x.star qs where
  length_eq := hx.length_eq
  mem_states q hq := mem_states_starFrom.mpr (Or.inr (hx.mem_states q hq))
  start_not_mem hmem := hhead (hx.mem_states head hmem)
  readsAt t ht := by
    rcases mem_transitions_starFrom.mp ht with ht | ⟨_, ht⟩
    · exact hx.readsAt t ht
    · have hcopy := hx.readsAt _ ht
      exact hcopy
  start_leadsTo_iff q := by
    have hhead' : ¬a.LeadsTo head q := fun h ↦ hhead (h.source_mem ha)
    change (starFrom head a).LeadsTo head q ↔ At qs x.first q
    simp only [leadsTo_starFrom, hhead', hx.start_leadsTo_iff, true_or, true_and, false_or]
  leadsTo_iff i p hp q := by
    have hne : p ≠ head := hx.ne_of_getElem? hp hhead
    simp only [leadsTo_starFrom, hx.leadsTo_iff i p hp, hx.mem_finals_iff i p hp,
      hx.start_leadsTo_iff, hne, false_or, Positions.star, at_union, at_if]
  mem_finals_iff i p hp := by
    have hne : p ≠ head := hx.ne_of_getElem? hp hhead
    simp only [mem_finals_starFrom, hx.mem_finals_iff i p hp, hne, false_or, Positions.star]
  start_mem_finals_iff := by
    change head ∈ (starFrom head a).finals ↔ true = true
    simp [mem_finals_starFrom]

theorem getElem?_append_eq_some {i : Nat} {p : State} (h : (qs ++ rs)[i]? = some p) :
    i < qs.length ∧ qs[i]? = some p ∨ ¬i < qs.length ∧ rs[i - qs.length]? = some p := by
  by_cases hi : i < qs.length
  · rw [List.getElem?_append_left hi] at h
    exact Or.inl ⟨hi, h⟩
  · rw [List.getElem?_append_right (Nat.le_of_not_lt hi)] at h
    exact Or.inr ⟨hi, h⟩

theorem positional_concatOf (ha : a.WellFormed) (hb : b.WellFormed) (hab : Apart a b)
    (hx : a.Positional x qs) (hy : b.Positional y rs) :
    (concatOf a b).Positional (x.concat y) (qs ++ rs) where
  length_eq := by simp [Positions.concat, hx.length_eq, hy.length_eq]
  mem_states q hq := mem_states_concatOf.mpr
    ((List.mem_append.mp hq).imp (hx.mem_states q) (hy.mem_states q))
  start_not_mem hmem := by
    rcases List.mem_append.mp hmem with hmem | hmem
    · exact hx.start_not_mem hmem
    · exact hab _ ha.start_mem (hy.mem_states _ hmem)
  readsAt t ht := by
    rcases (mem_transitions_concatOf ha hb hab).mp ht with ht | ht | ⟨_, ht⟩
    · exact readsAt_append_left (hx.readsAt t ht)
    · exact readsAt_append_right hx.length_eq (hy.readsAt t ht)
    · have hcopy := hy.readsAt _ ht
      exact readsAt_append_right hx.length_eq hcopy
  start_leadsTo_iff q := by
    change (concatOf a b).LeadsTo a.start q ↔ _
    simp only [leadsTo_concatOf ha hb hab, hx.start_leadsTo_iff, hy.start_leadsTo_iff,
      hab.not_leadsTo hb ha.start_mem, hx.start_mem_finals_iff, false_or, Positions.concat,
      ← hx.length_eq, at_union, at_if, at_append_left hx.lt_of_first, at_append_right]
  leadsTo_iff i p hp q := by
    -- a final state of the first operand goes on as the start of the second one does
    rcases getElem?_append_eq_some hp with ⟨hi, hp⟩ | ⟨hi, hp⟩
    · have hpa : p ∈ a.states := hx.mem_of_getElem? hp
      simp only [leadsTo_concatOf ha hb hab, hx.leadsTo_iff i p hp, hx.mem_finals_iff i p hp,
        hy.start_leadsTo_iff, hab.not_leadsTo hb hpa, false_or, Positions.concat, ← hx.length_eq,
        if_pos hi, at_union, at_if, at_append_left (hx.lt_of_follow i), at_append_right]
    · have hpb : p ∈ b.states := hy.mem_of_getElem? hp
      simp only [leadsTo_concatOf ha hb hab, hy.leadsTo_iff _ p hp, hab.symm.not_leadsTo ha hpb,
        hab.symm.not_mem_finals ha hpb, false_or, false_and, or_false, Positions.concat,
        ← hx.length_eq, if_neg hi, at_append_right]
  mem_finals_iff i p hp := by
    rcases getElem?_append_eq_some hp with ⟨hi, hp⟩ | ⟨hi, hp⟩
    · have hpa : p ∈ a.states := hx.mem_of_getElem? hp
      simp only [mem_finals_concatOf ha hb hab, hx.mem_finals_iff i p hp, hy.start_mem_finals_iff,
        hab.not_mem_finals hb hpa, false_or, Positions.concat, ← hx.length_eq, Finset.mem_union,
        mem_if_empty, Positions.mem_shift, Nat.not_le.mpr hi, false_and, and_comm]
    · have hpb : p ∈ b.states := hy.mem_of_getElem? hp
      have hlast : i ∉ x.last := fun h ↦ hi (hx.lt_of_last i h)
      simp only [mem_finals_concatOf ha hb hab, hy.mem_finals_iff _ p hp,
        hab.symm.not_mem_finals ha hpb, false_and, or_false, Positions.concat, ← hx.length_eq,
        Finset.mem_union, mem_if_empty, Positions.mem_shift, Nat.le_of_not_lt hi, true_and, hlast,
        and_false]
  start_mem_finals_iff := by
    change a.start ∈ (concatOf a b).finals ↔ _
    simp only [mem_finals_concatOf ha hb hab, hx.start_mem_finals_iff, hy.start_mem_finals_iff,
      hab.not_mem_finals hb ha.start_mem, false_or, Positions.concat, Bool.and_eq_true]

theorem positional_unionFrom (ha : a.WellFormed) (hb : b.WellFormed) (hab : Apart a b)
    (hha : head ∉ a.states) (hhb : head ∉ b.states)
    (hx : a.Positional x qs) (hy : b.Positional y rs) :
    (unionFrom head a b).Positional (x.union y) (qs ++ rs) where
  length_eq := by simp [Positions.union, hx.length_eq, hy.length_eq]
  mem_states q hq := mem_states_unionFrom.mpr
    (Or.inr ((List.mem_append.mp hq).imp (hx.mem_states q) (hy.mem_states q)))
  start_not_mem hmem := by
    rcases List.mem_append.mp hmem with hmem | hmem
    · exact hha (hx.mem_states _ hmem)
    · exact hhb (hy.mem_states _ hmem)
  readsAt t ht := by
    rcases (mem_transitions_unionFrom ha hb hab hha hhb).mp ht with ht | ht | ⟨_, ht | ht⟩
    · exact readsAt_append_left (hx.readsAt t ht)
    · exact readsAt_append_right hx.length_eq (hy.readsAt t ht)
    · have hcopy := hx.readsAt _ ht
      exact readsAt_append_left hcopy
    · have hcopy := hy.readsAt _ ht
      exact readsAt_append_right hx.length_eq hcopy
  start_leadsTo_iff q := by
    have hheada : ¬a.LeadsTo head q := fun h ↦ hha (h.source_mem ha)
    have hheadb : ¬b.LeadsTo head q := fun h ↦ hhb (h.source_mem hb)
    change (unionFrom head a b).LeadsTo head q ↔ _
    simp only [leadsTo_unionFrom ha hb hab hha hhb, hheada, hheadb, hx.start_leadsTo_iff,
      hy.start_leadsTo_iff, true_and, false_or, Positions.union, ← hx.length_eq, at_union,
      at_append_left hx.lt_of_first, at_append_right]
  leadsTo_iff i p hp q := by
    rcases getElem?_append_eq_some hp with ⟨hi, hp⟩ | ⟨hi, hp⟩
    · have hpa : p ∈ a.states := hx.mem_of_getElem? hp
      have hne : p ≠ head := hx.ne_of_getElem? hp hha
      simp only [leadsTo_unionFrom ha hb hab hha hhb, hx.leadsTo_iff i p hp,
        hab.not_leadsTo hb hpa, hne, false_and, or_false, Positions.union, ← hx.length_eq,
        if_pos hi, at_append_left (hx.lt_of_follow i)]
    · have hpb : p ∈ b.states := hy.mem_of_getElem? hp
      have hne : p ≠ head := hy.ne_of_getElem? hp hhb
      simp only [leadsTo_unionFrom ha hb hab hha hhb, hy.leadsTo_iff _ p hp,
        hab.symm.not_leadsTo ha hpb, hne, false_and, false_or, or_false, Positions.union,
        ← hx.length_eq, if_neg hi, at_append_right]
  mem_finals_iff i p hp := by
    rcases getElem?_append_eq_some hp with ⟨hi, hp⟩ | ⟨hi, hp⟩
    · have hpa : p ∈ a.states := hx.mem_of_getElem? hp
      have hne : p ≠ head := hx.ne_of_getElem? hp hha
      simp only [mem_finals_unionFrom ha hb hab hha hhb, hx.mem_finals_iff i p hp,
        hab.not_mem_finals hb hpa, hne, false_and, or_false, Positions.union, ← hx.length_eq,
        Finset.mem_union, Positions.mem_shift, Nat.not_le.mpr hi]
    · have hpb : p ∈ b.states := hy.mem_of_getElem? hp
      have hne : p ≠ head := hy.ne_of_getElem? hp hhb
      have hlast : i ∉ x.last := fun h ↦ hi (hx.lt_of_last i h)
      simp only [mem_finals_unionFrom ha hb hab hha hhb, hy.mem_finals_iff _ p hp,
        hab.symm.not_mem_finals ha hpb, hne, false_and, false_or, or_false, Positions.union,
        ← hx.length_eq, Finset.mem_union, Positions.mem_shift, Nat.le_of_not_lt hi, true_and, hlast]
  start_mem_finals_iff := by
    change head ∈ (unionFrom head a b).finals ↔ _
    have hheada : head ∉ a.finals := fun h ↦ hha (ha.mem_of_final head h)
    have hheadb : head ∉ b.finals := fun h ↦ hhb (hb.mem_of_final head h)
    simp only [mem_finals_unionFrom ha hb hab hha hhb, hx.start_mem_finals_iff,
      hy.start_mem_finals_iff, hheada, hheadb, true_and, false_or, Positions.union, Bool.or_eq_true]

end Operators

end Automaton

theorem total_prod {M α : Type} (op : M → M → M) (vs : List (M × List α)) :
    total (fun v u ↦ (op v.1 u.1, v.2 ++ u.2)) vs =
      (total op (vs.map Prod.fst)).map (fun x ↦ (x, (vs.map Prod.snd).flatten)) := by
  induction vs with
  | nil => rfl
  | cons v vs ih =>
    simp only [List.map_cons, List.flatten_cons, total, ih]
    cases htotal : total op (vs.map Prod.fst) with
    | none =>
      obtain rfl := List.map_eq_nil_iff.mp (eq_nil_of_total_eq_none htotal)
      simp
    | some x => simp

namespace Tree

/-- What a draft of the tree makes is its position automaton, with the accept states it tells. -/
def DraftsPositions (t : Tree) : Prop :=
  ∀ k, (t.flat.draft k).automaton.Positional t.positions (t.flat.draft k).accepts

theorem drafts_positional {ts : List Tree} (h : ∀ t ∈ ts, t.DraftsPositions) (k : Nat) :
    ∃ vs : List (Positions × List State),
      List.Forall₂ (fun v a ↦ a.Positional v.1 v.2) vs (FlatTree.drafts (ts.map flat) k).1 ∧
      vs.map Prod.fst = ts.map positions ∧
      (vs.map Prod.snd).flatten = (FlatTree.drafts (ts.map flat) k).2.1 := by
  induction ts generalizing k with
  | nil => exact ⟨[], .nil, rfl, rfl⟩
  | cons t ts ih =>
    obtain ⟨vs, hvs, hpositions, haccepts⟩ :=
      ih (fun u hu ↦ h u (List.mem_cons_of_mem t hu)) (t.flat.draft k).next
    refine ⟨(t.positions, (t.flat.draft k).accepts) :: vs, .cons (h t List.mem_cons_self k) hvs,
      ?_, ?_⟩
    · rw [List.map_cons, hpositions, List.map_cons]
    · rw [List.map_cons, List.flatten_cons, haccepts]
      rfl

theorem draftRun_positional (o : Operator) {combine : Automaton → Automaton → Build Automaton}
    {op : Merge} (hop : ∀ a b, MakesFrom (combine a b) [a, b] (op a b))
    (hpositional : ∀ (a b : Automaton) (x y : Positions) (qs rs : List State),
      a.Positional x qs → b.Positional y rs → Makes (combine a b) [a, b]
        (fun c ↦ c.Positional (Valuation.positions.binary o x y) (qs ++ rs)))
    (default : Nat → Automaton × Nat) {t : Tree} (h : ∀ u ∈ t.operands o, u.DraftsPositions)
    (k : Nat) :
    let (as, accepts, next) := FlatTree.drafts ((t.operands o).map flat) k
    let d := FlatTree.draftRun op default as accepts next
    d.automaton.Positional t.positions d.accepts := by
  obtain ⟨vs, hvs, hpositions, haccepts⟩ := drafts_positional h k
  obtain ⟨w, _, hnext, hw⟩ :=
    mapM_build_from (fun u (_ : u ∈ t.operands o) ↦ u.madeFlat) (Held.nil ⟨k, #[]⟩)
  have hne : (FlatTree.drafts ((t.operands o).map flat) k).1 ≠ [] :=
    drafts_ne_nil (mt List.map_eq_nil_iff.mp (operands_ne_nil o t)) k
  have htotal : total (fun v u ↦ (Valuation.positions.binary o v.1 u.1, v.2 ++ u.2)) vs =
      some (t.positions, (FlatTree.drafts ((t.operands o).map flat) k).2.1) := by
    have hvalues := total_operands Valuation.positions o t
    simp only [funext value_positions] at hvalues
    rw [total_prod, hpositions, hvalues, haccepts]
    rfl
  have hassoc (v u y : Positions × List State) :
      (Valuation.positions.binary o (Valuation.positions.binary o v.1 u.1) y.1,
        v.2 ++ u.2 ++ y.2) =
      (Valuation.positions.binary o v.1 (Valuation.positions.binary o u.1 y.1),
        v.2 ++ (u.2 ++ y.2)) := by
    rw [Valuation.positions.binary_assoc, List.append_assoc]
  obtain ⟨a, w', ha, hrounds, _⟩ := mergeRounds_from hop nothing hne (Nat.le_succ _) hw
  obtain ⟨b, _, hb, _, hpos⟩ := makes_mergeRounds (D := fun v a ↦ Positional a v.1 v.2) hassoc
    (fun a b v u hv hu ↦ hpositional a b v.1 u.1 v.2 u.2 hv hu) nothing hvs htotal [] w hw
  -- the rounds make one automaton: the one of the recursion, and one with the positions
  obtain rfl : a = b := (Prod.mk.inj (Except.ok.inj (ha.symm.trans hb))).1
  rw [hnext] at hrounds
  simpa only [FlatTree.draftRun, Merge.rounds, hrounds, Option.getD_some] using hpos

theorem positions_eq (t : Tree) :
    t.positions =
      match t.shape with
      | .terminal c => if c = Alphabet.emptySign then .empty else .single c
      | .star u => u.positions.star
      | .concat l r => l.positions.concat r.positions
      | .union l r => l.positions.union r.positions := by
  simp only [← value_positions]
  exact value_eq Valuation.positions t

theorem draftsPositions (t : Tree) : t.DraftsPositions := by
  induction t using induction_on_operands with
  | terminal t c hs =>
    intro k
    rw [flat_eq, positions_eq, hs]
    simp only [FlatTree.draft, FlatTree.draftLiteral]
    split
    · next hc =>
      subst hc
      exact positional_literalBetween_sign ⟨k⟩ ⟨k + 1⟩
    · next hc => exact positional_literalBetween (by simp) hc
  | star t u hs ih =>
    intro k
    rw [flat_eq, positions_eq, hs]
    obtain ⟨⟨_, events⟩, _, rfl, hw⟩ := u.madeFlat [] ⟨k, #[]⟩ (Held.nil _)
    have hhead : (⟨(u.flat.draft k).next⟩ : State) ∉ (u.flat.draft k).automaton.states :=
      hw.not_mem_fresh List.mem_cons_self
    exact positional_starFrom (hw.wellFormed _ List.mem_cons_self) hhead (ih k)
  | concat t l r hs ih =>
    intro k
    rw [flat_of_concat hs]
    exact draftRun_positional .concat makesFrom_concat (fun a b x y qs rs hx hy ↦
      makes_concat (fun ha hb hab ↦ positional_concatOf ha hb hab hx hy)) _ ih k
  | union t l r hs ih =>
    intro k
    rw [flat_of_union hs]
    exact draftRun_positional .union makesFrom_union (fun a b x y qs rs hx hy ↦
      makes_union (fun head ha hb hab hha hhb ↦
        positional_unionFrom ha hb hab hha hhb hx hy)) _ ih k

end Tree

structure Increasing (low high : Nat) (qs : List State) : Prop where
  le : low ≤ high
  pairwise : qs.Pairwise (fun p q ↦ p.number < q.number)
  range : ∀ q ∈ qs, low ≤ q.number ∧ q.number < high

namespace Increasing

variable {low mid high : Nat} {ps qs : List State}

theorem nil (h : low ≤ high) : Increasing low high [] := ⟨h, .nil, by simp⟩

theorem append (hp : Increasing low mid ps) (hq : Increasing mid high qs) :
    Increasing low high (ps ++ qs) where
  le := hp.le.trans hq.le
  pairwise := List.pairwise_append.mpr ⟨hp.pairwise, hq.pairwise, fun p hpmem q hqmem ↦
    (hp.range p hpmem).2.trans_le (hq.range q hqmem).1⟩
  range q hmem := by
    rcases List.mem_append.mp hmem with hmem | hmem
    · exact ⟨(hp.range q hmem).1, (hp.range q hmem).2.trans_le hq.le⟩
    · exact ⟨hp.le.trans (hq.range q hmem).1, (hq.range q hmem).2⟩

theorem mono (hp : Increasing low mid ps) (h : mid ≤ high) : Increasing low high ps :=
  List.append_nil ps ▸ hp.append (nil h)

end Increasing

namespace Merge

def Grows (op : Merge) : Prop := ∀ a b k, k ≤ (op a b k).2

variable {op : Merge}

theorem Grows.le_pairs (h : op.Grows) (as : List Automaton) (k : Nat) : k ≤ (op.pairs as k).2 := by
  fun_induction op.pairs as k with
  | case1 a b rest k c k' hc merged k'' hm ih =>
    have hle := h a b k
    grind
  | case2 => exact le_rfl

theorem Grows.le_iterate_round (h : op.Grows) (n : Nat) (s : List Automaton × Nat) :
    s.2 ≤ (op.round^[n] s).2 := by
  induction n generalizing s with
  | zero => exact le_rfl
  | succ n ih =>
    rw [Function.iterate_succ_apply]
    exact (h.le_pairs s.1 s.2).trans (ih _)

theorem Grows.le_rounds (h : op.Grows) {as : List Automaton} {k next : Nat} {a : Automaton}
    (hrounds : op.rounds as k = some (a, next)) : k ≤ next := by
  have hle := h.le_iterate_round as.length (as, k)
  rw [rounds] at hrounds
  split at hrounds <;> simp_all

end Merge

namespace FlatTree

theorem increasing_draftLiteral (c : Char) (k : Nat) :
    Increasing k (draftLiteral c k).next (draftLiteral c k).accepts := by
  rw [draftLiteral]
  split
  · exact .nil (Nat.le_succ k)
  · exact ⟨Nat.le_add_right k 2, List.pairwise_singleton .., by simp⟩

theorem increasing_draftRun {op : Merge} (h : op.Grows) {default : Nat → Automaton × Nat}
    (hdefault : ∀ k, k ≤ (default k).2) (as : List Automaton) {accepts : List State} {low k : Nat}
    (haccepts : Increasing low k accepts) :
    Increasing low (draftRun op default as accepts k).next
      (draftRun op default as accepts k).accepts := by
  rw [draftRun]
  cases hrounds : op.rounds as k with
  | none => exact haccepts.mono (hdefault k)
  | some made => exact haccepts.mono (h.le_rounds hrounds)

mutual

/-- Each literal is made after those to its left, so its accept state has a greater number. -/
theorem increasing_draft (t : FlatTree) (k : Nat) :
    Increasing k (t.draft k).next (t.draft k).accepts := by
  cases t with
  | terminal c => exact increasing_draftLiteral c k
  | star t => exact (increasing_draft t k).mono (Nat.le_succ _)
  | concat ts =>
    exact increasing_draftRun (fun _ _ _ ↦ le_rfl) Nat.le_succ _ (increasing_drafts ts k)
  | union ts =>
    exact increasing_draftRun (fun _ _ _ ↦ Nat.le_succ _) Nat.le_succ _ (increasing_drafts ts k)

theorem increasing_drafts (ts : List FlatTree) (k : Nat) :
    Increasing k (drafts ts k).2.2 (drafts ts k).2.1 := by
  cases ts with
  | nil => exact .nil le_rfl
  | cons t ts => exact (increasing_draft t k).append (increasing_drafts ts _)

end

theorem nodup_accepts_draft (t : FlatTree) (k : Nat) : (t.draft k).accepts.Nodup :=
  (increasing_draft t k).pairwise.imp (fun h heq ↦ h.ne (congrArg State.number heq))

end FlatTree

/-- Compilation gives the position automaton of the tree, over the accept states of the literals,
whose numbers increase from left to right. No transition leads to another state, and those that lead
to the same state read the same. -/
theorem Tree.compile_positional (t : Tree) (w : Workshop) :
    ∃ w', t.compile w = .ok ((t.flat.draft w.next).automaton, w') ∧
      let a := (t.flat.draft w.next).automaton
      let qs := (t.flat.draft w.next).accepts
      a.Positional t.positions qs ∧
      qs.Pairwise (fun p q ↦ p.number < q.number) ∧
      (∀ q ∉ qs, ∀ p, ¬a.LeadsTo p q) ∧
      ∀ t ∈ a.transitions, ∀ u ∈ a.transitions,
        t.destination = u.destination → t.label = u.label := by
  obtain ⟨w', ht, _, _⟩ := t.madeFlat [] w (Held.nil w)
  have hpositional := t.draftsPositions w.next
  have hnodup := t.flat.nodup_accepts_draft w.next
  refine ⟨_, Build.bind_eq ht, hpositional, (t.flat.increasing_draft w.next).pairwise, ?_, ?_⟩
  · rintro q hq p ⟨label, h⟩
    exact hq (hpositional.destination_mem h)
  · intro t ht u hu h
    exact hpositional.label_eq hnodup ht hu h

end LineSearch
