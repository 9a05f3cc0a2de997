import LineSearch.Automaton.Combinators
import LineSearch.Proofs.Automaton.Elimination

namespace LineSearch.Automaton

def literalBetween (c : Char) (start accept : State) : Automaton :=
  if c = Alphabet.emptySign then ⟨{start}, start, {start}, ∅⟩
  else ⟨{start, accept}, start, {accept}, {.symbol c start accept}⟩

def anySymbolBetween (start accept : State) : Automaton :=
  ⟨{start, accept}, start, {accept},
    .ofList (Alphabet.symbols.map (fun c ↦ Transition.symbol c start accept))⟩

/-- Two automata beside each other, under a new start that leads nowhere yet. -/
def beside (head : State) (a b : Automaton) : Automaton :=
  ⟨(a.states ∪ b.states).insert head, head, a.finals ∪ b.finals, a.transitions ∪ b.transitions⟩

/-- Two automata one before the other, without a way from the first to the second yet. -/
def before (a b : Automaton) : Automaton :=
  ⟨a.states ∪ b.states, a.start, b.finals, a.transitions ∪ b.transitions⟩

def under (head : State) (a : Automaton) : Automaton :=
  ⟨a.states.insert head, head, a.finals.insert head, a.transitions⟩

def unionSeeds (head : State) (a b : Automaton) : List Transition :=
  [.epsilon head a.start, .epsilon head b.start]

def concatSeeds (a b : Automaton) : List Transition :=
  a.finals.toList.map (fun q ↦ .epsilon q b.start)

def starSeeds (head : State) (a : Automaton) : List Transition :=
  .epsilon head a.start :: a.finals.toList.map (fun q ↦ .epsilon q a.start)

def unionFrom (head : State) (a b : Automaton) : Automaton :=
  (beside head a b).eliminated (moves (unionSeeds head a b))

def concatOf (a b : Automaton) : Automaton := (before a b).eliminated (moves (concatSeeds a b))

def starFrom (head : State) (a : Automaton) : Automaton :=
  (under head a).eliminated (moves (starSeeds head a))

def paddingFrom (k : Nat) : Automaton := starFrom ⟨k + 2⟩ (anySymbolBetween ⟨k⟩ ⟨k + 1⟩)

def somewhereFrom (k : Nat) (a : Automaton) : Automaton :=
  concatOf (concatOf (paddingFrom k) a) (paddingFrom (k + 3))

def paddingSeeds (k : Nat) : List Transition := starSeeds ⟨k + 2⟩ (anySymbolBetween ⟨k⟩ ⟨k + 1⟩)

/-- What is folded in around an automaton, from the first operator to the last one. -/
def somewhereSeeds (k : Nat) (a : Automaton) : List (List Transition) :=
  [paddingSeeds k, concatSeeds (paddingFrom k) a, paddingSeeds (k + 3),
    concatSeeds (concatOf (paddingFrom k) a) (paddingFrom (k + 3))]

theorem fresh_not_mem {a : Automaton} {w : Workshop} (h : ∀ q ∈ a.states, q.number < w.next) :
    (⟨w.next⟩ : State) ∉ a.states :=
  fun hq ↦ Nat.lt_irrefl _ (h _ hq)

section Members

variable {a b : Automaton} {head p q : State} {t : Transition}

theorem mem_states_unionFrom :
    q ∈ (unionFrom head a b).states ↔ q = head ∨ q ∈ a.states ∨ q ∈ b.states := by
  simp only [unionFrom, states_eliminated, beside, mem_insert_iff, Std.ExtTreeSet.mem_union_iff]

theorem mem_finals_under : q ∈ (under head a).finals ↔ q = head ∨ q ∈ a.finals := mem_insert_iff

theorem mem_states_concatOf : q ∈ (concatOf a b).states ↔ q ∈ a.states ∨ q ∈ b.states := by
  simp [concatOf, before, Std.ExtTreeSet.mem_union_iff]

theorem mem_states_starFrom : q ∈ (starFrom head a).states ↔ q = head ∨ q ∈ a.states := by
  simp only [starFrom, states_eliminated, under, mem_insert_iff]

theorem leads_unionSeeds :
    (moves (unionSeeds head a b)).Leads p q ↔ p = head ∧ (q = a.start ∨ q = b.start) := by
  simp only [leads_moves, unionSeeds, List.mem_cons, List.not_mem_nil, or_false]
  constructor
  · intro h
    obtain ⟨_, rfl | rfl, rfl, rfl⟩ := h
    · exact ⟨rfl, Or.inl rfl⟩
    · exact ⟨rfl, Or.inr rfl⟩
  · intro h
    obtain ⟨rfl, rfl | rfl⟩ := h
    · exact ⟨_, Or.inl rfl, rfl, rfl⟩
    · exact ⟨_, Or.inr rfl, rfl, rfl⟩

theorem leads_concatSeeds :
    (moves (concatSeeds a b)).Leads p q ↔ p ∈ a.finals ∧ q = b.start := by
  simp only [leads_moves, concatSeeds, List.mem_map, Std.ExtTreeSet.mem_toList]
  constructor
  · intro h
    obtain ⟨_, ⟨_, hp, rfl⟩, rfl, rfl⟩ := h
    exact ⟨hp, rfl⟩
  · intro h
    obtain ⟨hp, rfl⟩ := h
    exact ⟨_, ⟨p, hp, rfl⟩, rfl, rfl⟩

theorem leads_starSeeds :
    (moves (starSeeds head a)).Leads p q ↔ (p = head ∨ p ∈ a.finals) ∧ q = a.start := by
  simp only [leads_moves, starSeeds, List.mem_cons, List.mem_map, Std.ExtTreeSet.mem_toList]
  constructor
  · intro h
    obtain ⟨_, rfl | ⟨_, hp, rfl⟩, rfl, rfl⟩ := h
    · exact ⟨Or.inl rfl, rfl⟩
    · exact ⟨Or.inr hp, rfl⟩
  · intro h
    obtain ⟨rfl | hp, rfl⟩ := h
    · exact ⟨_, Or.inl rfl, rfl, rfl⟩
    · exact ⟨_, Or.inr ⟨p, hp, rfl⟩, rfl, rfl⟩

end Members

section WellFormed

variable {a b : Automaton} {head : State}

theorem wellFormed_literalBetween (c : Char) (start accept : State) :
    (literalBetween c start accept).WellFormed := by
  unfold literalBetween
  split <;> constructor <;> simp [Joins, Transition.symbol]

theorem wellFormed_anySymbolBetween (start accept : State) :
    (anySymbolBetween start accept).WellFormed := by
  refine ⟨by simp [anySymbolBetween], by simp [anySymbolBetween], fun t ht ↦ ?_⟩
  simp only [anySymbolBetween, Std.ExtTreeSet.mem_ofList, List.contains_iff_mem,
    List.mem_map] at ht
  obtain ⟨c, _, rfl⟩ := ht
  simp [anySymbolBetween, Joins, Transition.symbol]

theorem wellFormed_beside (ha : a.WellFormed) (hb : b.WellFormed) :
    (beside head a b).WellFormed := by
  refine ⟨by simp [beside], fun q hq ↦ ?_, fun t ht ↦ ?_⟩
  · simp only [beside, Std.ExtTreeSet.mem_union_iff] at hq
    rcases hq with hq | hq
    · simp [beside, Std.ExtTreeSet.mem_union_iff, ha.mem_of_final q hq]
    · simp [beside, Std.ExtTreeSet.mem_union_iff, hb.mem_of_final q hq]
  · simp only [beside, Std.ExtTreeSet.mem_union_iff] at ht
    rcases ht with ht | ht
    · have h := ha.joins t ht
      simp [beside, Joins, Std.ExtTreeSet.mem_union_iff, h.1, h.2]
    · have h := hb.joins t ht
      simp [beside, Joins, Std.ExtTreeSet.mem_union_iff, h.1, h.2]

theorem wellFormed_before (ha : a.WellFormed) (hb : b.WellFormed) : (before a b).WellFormed := by
  refine ⟨?_, fun q hq ↦ ?_, fun t ht ↦ ?_⟩
  · simp [before, Std.ExtTreeSet.mem_union_iff, ha.start_mem]
  · simp [before, Std.ExtTreeSet.mem_union_iff, hb.mem_of_final q hq]
  · simp only [before, Std.ExtTreeSet.mem_union_iff] at ht
    rcases ht with ht | ht
    · have h := ha.joins t ht
      simp [before, Joins, Std.ExtTreeSet.mem_union_iff, h.1, h.2]
    · have h := hb.joins t ht
      simp [before, Joins, Std.ExtTreeSet.mem_union_iff, h.1, h.2]

theorem wellFormed_under (ha : a.WellFormed) : (under head a).WellFormed := by
  refine ⟨by simp [under], fun q hq ↦ ?_, fun t ht ↦ ?_⟩
  · exact mem_insert_iff.mpr ((mem_finals_under.mp hq).imp_right (ha.mem_of_final q))
  · have h := ha.joins t ht
    simp [under, Joins, h.1, h.2]

theorem joins_unionSeeds (ha : a.WellFormed) (hb : b.WellFormed) :
    ∀ t ∈ unionSeeds head a b, t.isEpsilon = true ∧ (beside head a b).Joins t := by
  simp [unionSeeds, Transition.isEpsilon, Transition.epsilon, Joins, beside,
    Std.ExtTreeSet.mem_union_iff, ha.start_mem, hb.start_mem]

theorem joins_concatSeeds (ha : a.WellFormed) (hb : b.WellFormed) :
    ∀ t ∈ concatSeeds a b, t.isEpsilon = true ∧ (before a b).Joins t := by
  intro t ht
  simp only [concatSeeds, List.mem_map, Std.ExtTreeSet.mem_toList] at ht
  obtain ⟨q, hq, rfl⟩ := ht
  simp [Transition.isEpsilon, Transition.epsilon, Joins, before, Std.ExtTreeSet.mem_union_iff,
    ha.mem_of_final q hq, hb.start_mem]

theorem joins_starSeeds (ha : a.WellFormed) :
    ∀ t ∈ starSeeds head a, t.isEpsilon = true ∧ (under head a).Joins t := by
  intro t ht
  simp only [starSeeds, List.mem_cons, List.mem_map, Std.ExtTreeSet.mem_toList] at ht
  rcases ht with rfl | ⟨q, hq, rfl⟩
  · simp [Transition.isEpsilon, Transition.epsilon, Joins, under, ha.start_mem]
  · simp [Transition.isEpsilon, Transition.epsilon, Joins, under, ha.mem_of_final q hq,
      ha.start_mem]

end WellFormed

section Built

variable {a b : Automaton} {head : State}

theorem wellFormed_unionFrom (ha : a.WellFormed) (hb : b.WellFormed) :
    (unionFrom head a b).WellFormed :=
  wellFormed_eliminated_moves (wellFormed_beside ha hb) (joins_unionSeeds ha hb)

theorem wellFormed_concatOf (ha : a.WellFormed) (hb : b.WellFormed) : (concatOf a b).WellFormed :=
  wellFormed_eliminated_moves (wellFormed_before ha hb) (joins_concatSeeds ha hb)

theorem wellFormed_starFrom (ha : a.WellFormed) : (starFrom head a).WellFormed :=
  wellFormed_eliminated_moves (wellFormed_under ha) (joins_starSeeds ha)

theorem union_eq_ok (ha : a.WellFormed) (hb : b.WellFormed) (w : Workshop) :
    a.union b w = .ok (unionFrom ⟨w.next⟩ a b,
      ⟨w.next + 1, w.events.push (closed (moves (unionSeeds ⟨w.next⟩ a b)))⟩) := by
  rw [union, Build.fresh_bind]
  refine (Build.bind_eq (Build.lift_eq (validated_of_wellFormed (wellFormed_beside ha hb)))).trans ?_
  exact eliminate_eq_ok (wellFormed_beside ha hb) (joins_unionSeeds ha hb) _

theorem concat_eq_ok (ha : a.WellFormed) (hb : b.WellFormed) (w : Workshop) :
    a.concat b w = .ok (concatOf a b,
      { w with events := w.events.push (closed (moves (concatSeeds a b))) }) := by
  refine (Build.bind_eq (Build.lift_eq (validated_of_wellFormed (wellFormed_before ha hb)))).trans ?_
  exact eliminate_eq_ok (wellFormed_before ha hb) (joins_concatSeeds ha hb) _

theorem star_eq_ok (ha : a.WellFormed) (w : Workshop) :
    a.star w = .ok (starFrom ⟨w.next⟩ a,
      ⟨w.next + 1, w.events.push (closed (moves (starSeeds ⟨w.next⟩ a)))⟩) := by
  rw [star, Build.fresh_bind]
  refine (Build.bind_eq (Build.lift_eq (validated_of_wellFormed (wellFormed_under ha)))).trans ?_
  exact eliminate_eq_ok (wellFormed_under ha) (joins_starSeeds ha) _

theorem literal_eq_ok (c : Char) (w : Workshop) :
    literal c w = .ok (literalBetween c ⟨w.next⟩ ⟨w.next + 1⟩,
      { w with next := w.next + if c = Alphabet.emptySign then 1 else 2 }) := by
  have h := validated_of_wellFormed (wellFormed_literalBetween c ⟨w.next⟩ ⟨w.next + 1⟩)
  rw [literal, Build.fresh_bind]
  unfold literalBetween at h ⊢
  split
  · next hc =>
    rw [if_pos hc] at h
    exact Build.lift_eq h
  · next hc =>
    rw [if_neg hc] at h
    rw [Build.fresh_bind]
    exact Build.lift_eq h

theorem anySymbol_eq_ok (w : Workshop) :
    anySymbol w = .ok (anySymbolBetween ⟨w.next⟩ ⟨w.next + 1⟩, { w with next := w.next + 2 }) := by
  rw [anySymbol, Build.fresh_bind, Build.fresh_bind]
  exact Build.lift_eq (validated_of_wellFormed (wellFormed_anySymbolBetween _ _))

theorem isEpsilonFree_literalBetween (c : Char) (start accept : State) :
    (literalBetween c start accept).isEpsilonFree = true := by
  rw [isEpsilonFree_iff]
  unfold literalBetween
  split <;> simp [Transition.symbol]

theorem isEpsilonFree_anySymbolBetween (start accept : State) :
    (anySymbolBetween start accept).isEpsilonFree = true := by
  rw [isEpsilonFree_iff]
  intro t ht
  simp only [anySymbolBetween, Std.ExtTreeSet.mem_ofList, List.contains_iff_mem,
    List.mem_map] at ht
  obtain ⟨c, _, rfl⟩ := ht
  simp [Transition.symbol]

theorem isEpsilonFree_unionFrom :
    (unionFrom head a b).isEpsilonFree = (a.isEpsilonFree && b.isEpsilonFree) := by
  rw [unionFrom, isEpsilonFree_eliminated, Bool.eq_iff_iff, Bool.and_eq_true]
  simp only [isEpsilonFree_iff, beside, Std.ExtTreeSet.mem_union_iff, or_imp, forall_and]

theorem isEpsilonFree_concatOf :
    (concatOf a b).isEpsilonFree = (a.isEpsilonFree && b.isEpsilonFree) := by
  rw [concatOf, isEpsilonFree_eliminated, Bool.eq_iff_iff, Bool.and_eq_true]
  simp only [isEpsilonFree_iff, before, Std.ExtTreeSet.mem_union_iff, or_imp, forall_and]

theorem isEpsilonFree_starFrom : (starFrom head a).isEpsilonFree = a.isEpsilonFree := by
  rw [starFrom, isEpsilonFree_eliminated]
  rfl

theorem wellFormed_paddingFrom (k : Nat) : (paddingFrom k).WellFormed :=
  wellFormed_starFrom (wellFormed_anySymbolBetween _ _)

theorem wellFormed_somewhereFrom (ha : a.WellFormed) (k : Nat) : (somewhereFrom k a).WellFormed :=
  wellFormed_concatOf (wellFormed_concatOf (wellFormed_paddingFrom k) ha)
    (wellFormed_paddingFrom (k + 3))

theorem isEpsilonFree_paddingFrom (k : Nat) : (paddingFrom k).isEpsilonFree = true := by
  rw [paddingFrom, isEpsilonFree_starFrom, isEpsilonFree_anySymbolBetween]

theorem isEpsilonFree_somewhereFrom (k : Nat) :
    (somewhereFrom k a).isEpsilonFree = a.isEpsilonFree := by
  simp only [somewhereFrom, isEpsilonFree_concatOf, isEpsilonFree_paddingFrom, Bool.true_and,
    Bool.and_true]

theorem padding_eq_ok (w : Workshop) :
    (anySymbol >>= star) w = .ok (paddingFrom w.next,
      ⟨w.next + 3, w.events.push (closed (moves (paddingSeeds w.next)))⟩) :=
  (Build.bind_eq (anySymbol_eq_ok w)).trans (star_eq_ok (wellFormed_anySymbolBetween _ _) _)

theorem somewhere_eq_ok (ha : a.WellFormed) (w : Workshop) :
    a.somewhere w = .ok (somewhereFrom w.next a, ⟨w.next + 6,
      w.events ++ (somewhereSeeds w.next a).map (fun seeds ↦ closed (moves seeds))⟩) := by
  have hassoc : a.somewhere = (anySymbol >>= star) >>= fun before ↦ concat before a >>=
      fun opened ↦ (anySymbol >>= star) >>= fun after ↦ concat opened after := by
    simp only [somewhere, bind_assoc]
  have hopened := wellFormed_concatOf (wellFormed_paddingFrom w.next) ha
  rw [hassoc, Build.bind_eq (padding_eq_ok w),
    Build.bind_eq (concat_eq_ok (wellFormed_paddingFrom w.next) ha _),
    Build.bind_eq (padding_eq_ok _)]
  exact concat_eq_ok hopened (wellFormed_paddingFrom (w.next + 3)) _

end Built

end LineSearch.Automaton
