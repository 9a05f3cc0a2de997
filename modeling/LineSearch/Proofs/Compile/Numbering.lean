import LineSearch.Proofs.Automaton.Graph
import LineSearch.Proofs.Compile.FlatTree

namespace LineSearch

open Automaton
open Relation (TransGen)

theorem transGen_map {r : State → State → Prop} {f : State → State} (hf : f.Injective)
    {p q : State} :
    TransGen (Relation.Map r f f) p q ↔ ∃ p' q', TransGen r p' q' ∧ f p' = p ∧ f q' = q := by
  constructor
  · intro h
    induction h with
    | single h =>
      obtain ⟨p', q', h, rfl, rfl⟩ := h
      exact ⟨p', q', .single h, rfl, rfl⟩
    | tail _ h ih =>
      obtain ⟨p', m, hchain, rfl, rfl⟩ := ih
      obtain ⟨m', q', h, hm, rfl⟩ := h
      obtain rfl := hf hm
      exact ⟨p', q', hchain.tail h, rfl, rfl⟩
  · intro h
    obtain ⟨p', q', h, rfl, rfl⟩ := h
    exact TransGen.lift f (fun p q h ↦ ⟨p, q, h, rfl, rfl⟩) _ _ h

namespace Automaton

section Renamed

variable {a b : Automaton} {f : State → State} {head q : State}

theorem eliminated_renamed (hf : f.Injective) {hops new : Hops}
    (h : new.Leads = Relation.Map hops.Leads f f) :
    (a.renamed f).eliminated new = (a.eliminated hops).renamed f := by
  refine eq_of_mem_iff (fun q ↦ Iff.rfl) rfl (fun q ↦ ?_) (fun t ↦ ?_)
  · simp only [mem_finals_eliminated, mem_finals_renamed, h, transGen_map hf]
    constructor
    · intro h
      rcases h with ⟨p, hp, rfl⟩ | ⟨_, ⟨p, hp, rfl⟩, p', r, hchain, rfl, hr⟩
      · exact ⟨p, Or.inl hp, rfl⟩
      · obtain rfl := hf hr
        exact ⟨p', Or.inr ⟨r, hp, hchain⟩, rfl⟩
    · intro h
      obtain ⟨p, hp | ⟨r, hr, hchain⟩, rfl⟩ := h
      · exact Or.inl ⟨p, hp, rfl⟩
      · exact Or.inr ⟨f r, ⟨r, hr, rfl⟩, p, r, hchain, rfl, rfl⟩
  · simp only [mem_transitions_eliminated, mem_transitions_renamed, h, transGen_map hf]
    constructor
    · intro h
      rcases h with ⟨u, hu, rfl⟩ | ⟨_, ⟨p, r, hchain, hp, rfl⟩, u, hu, heq⟩
      · exact ⟨u, Or.inl hu, rfl⟩
      · obtain ⟨hlabel, hsource, hdestination⟩ := Transition.mk.inj heq
        obtain rfl := hf hsource
        refine ⟨{ u with source := p }, Or.inr ⟨u.source, hchain, hu⟩, ?_⟩
        rw [renamedTransition, hlabel, hp, hdestination]
    · intro h
      obtain ⟨u, hu | ⟨r, hchain, hu⟩, rfl⟩ := h
      · exact Or.inl ⟨u, hu, rfl⟩
      · exact Or.inr ⟨f r, ⟨u.source, r, hchain, rfl, rfl⟩, _, hu, rfl⟩

theorem literalBetween_renamed (c : Char) (p q : State) :
    literalBetween c (f p) (f q) = (literalBetween c p q).renamed f := by
  unfold literalBetween
  split <;> refine eq_of_mem_iff (fun r ↦ ?_) rfl (fun r ↦ ?_) (fun t ↦ ?_) <;>
    simp [mem_states_renamed, mem_finals_renamed, mem_transitions_renamed, renamedTransition,
      Transition.symbol]

theorem unionFrom_renamed (hf : f.Injective) :
    unionFrom (f head) (a.renamed f) (b.renamed f) = (unionFrom head a b).renamed f := by
  have hbeside : beside (f head) (a.renamed f) (b.renamed f) = (beside head a b).renamed f := by
    refine eq_of_mem_iff (fun q ↦ ?_) rfl (fun q ↦ ?_) (fun t ↦ ?_) <;>
      simp only [beside, mem_states_renamed, mem_finals_renamed, mem_transitions_renamed,
        Std.ExtTreeSet.mem_union_iff, mem_insert_iff] <;> grind
  rw [unionFrom, unionFrom, hbeside]
  refine eliminated_renamed hf ?_
  funext p q
  simp only [leads_unionSeeds, Relation.Map, eq_iff_iff]
  constructor
  · intro h
    obtain ⟨rfl, rfl | rfl⟩ := h
    · exact ⟨head, a.start, ⟨rfl, Or.inl rfl⟩, rfl, rfl⟩
    · exact ⟨head, b.start, ⟨rfl, Or.inr rfl⟩, rfl, rfl⟩
  · intro h
    obtain ⟨_, _, ⟨rfl, rfl | rfl⟩, rfl, rfl⟩ := h
    · exact ⟨rfl, Or.inl rfl⟩
    · exact ⟨rfl, Or.inr rfl⟩

theorem concatOf_renamed (hf : f.Injective) :
    concatOf (a.renamed f) (b.renamed f) = (concatOf a b).renamed f := by
  have hbefore : before (a.renamed f) (b.renamed f) = (before a b).renamed f := by
    refine eq_of_mem_iff (fun q ↦ ?_) rfl (fun q ↦ ?_) (fun t ↦ ?_) <;>
      simp only [before, mem_states_renamed, mem_finals_renamed, mem_transitions_renamed,
        Std.ExtTreeSet.mem_union_iff] <;> grind
  rw [concatOf, concatOf, hbefore]
  refine eliminated_renamed hf ?_
  funext p q
  simp only [leads_concatSeeds, mem_finals_renamed, Relation.Map, eq_iff_iff]
  constructor
  · intro h
    obtain ⟨⟨r, hr, rfl⟩, rfl⟩ := h
    exact ⟨r, b.start, ⟨hr, rfl⟩, rfl, rfl⟩
  · intro h
    obtain ⟨r, _, ⟨hr, rfl⟩, rfl, rfl⟩ := h
    exact ⟨⟨r, hr, rfl⟩, rfl⟩

theorem starFrom_renamed (hf : f.Injective) :
    starFrom (f head) (a.renamed f) = (starFrom head a).renamed f := by
  have hunder : under (f head) (a.renamed f) = (under head a).renamed f := by
    refine eq_of_mem_iff (fun q ↦ ?_) rfl (fun q ↦ ?_) (fun t ↦ Iff.rfl) <;>
      simp only [under, mem_states_renamed, mem_finals_renamed, mem_insert_iff] <;> grind
  rw [starFrom, starFrom, hunder]
  refine eliminated_renamed hf ?_
  funext p q
  simp only [leads_starSeeds, mem_finals_renamed, Relation.Map, eq_iff_iff]
  constructor
  · intro h
    obtain ⟨rfl | ⟨r, hr, rfl⟩, rfl⟩ := h
    · exact ⟨head, a.start, ⟨Or.inl rfl, rfl⟩, rfl, rfl⟩
    · exact ⟨r, a.start, ⟨Or.inr hr, rfl⟩, rfl, rfl⟩
  · intro h
    obtain ⟨r, _, ⟨rfl | hr, rfl⟩, rfl, rfl⟩ := h
    · exact ⟨Or.inl rfl, rfl⟩
    · exact ⟨Or.inr ⟨r, hr, rfl⟩, rfl⟩

end Renamed

end Automaton

def State.later (d : Nat) (q : State) : State := ⟨q.number + d⟩

theorem State.later_injective (d : Nat) : (State.later d).Injective := by
  intro p q h
  cases p
  cases q
  simpa [later] using h

namespace Automaton

def later (d : Nat) (a : Automaton) : Automaton := a.renamed (State.later d)

/-- The automata are the same but for a renaming that keeps the order of the states. -/
def Matches (a b : Automaton) : Prop := ∃ f, b = a.renamed f ∧ a.InOrder f

theorem Matches.graph_eq {a b : Automaton} (h : a.Matches b) (ha : a.WellFormed) :
    b.graph = a.graph := by
  obtain ⟨f, rfl, hf⟩ := h
  exact graph_renamed ha hf

theorem matches_later (a : Automaton) (k k' : Nat) : (a.later k).Matches (a.later k') := by
  let f (q : State) : State := ⟨q.number - k + k'⟩
  have hf (q : State) : f (q.later k) = q.later k' := by
    simp only [f, State.later, Nat.add_sub_cancel]
  refine ⟨f, ?_, fun p hp q hq hlt ↦ ?_⟩
  · refine eq_of_mem_iff (fun q ↦ ?_) (hf a.start).symm (fun q ↦ ?_) (fun t ↦ ?_)
    · simp [later, mem_states_renamed, hf]
    · simp [later, mem_finals_renamed, hf]
    · simp [later, mem_transitions_renamed, renamedTransition, hf]
  · obtain ⟨p, _, rfl⟩ := mem_states_renamed.mp hp
    obtain ⟨q, _, rfl⟩ := mem_states_renamed.mp hq
    rw [hf, hf]
    simp only [State.later] at hlt ⊢
    omega

end Automaton

namespace Merge

/-- From automata with their numbers moved up, and a number of the next state moved as far, the
operation makes what it makes from the automata, moved as far. -/
def Uniform (op : Merge) : Prop :=
  ∀ d a b k, op (a.later d) (b.later d) (k + d) = ((op a b k).1.later d, (op a b k).2 + d)

variable {op : Merge}

theorem Uniform.pairs (h : op.Uniform) (d : Nat) (as : List Automaton) (k : Nat) :
    op.pairs (as.map (later d)) (k + d) =
      ((op.pairs as k).1.map (later d), (op.pairs as k).2 + d) := by
  match as with
  | [] | [_] => rfl
  | a :: b :: rest =>
    have hrest := h.pairs d rest (op a b k).2
    simp only [List.map_cons, Merge.pairs, h d a b k, hrest]
termination_by as.length

theorem Uniform.iterate_round (h : op.Uniform) (d n : Nat) (as : List Automaton) (k : Nat) :
    op.round^[n] (as.map (later d), k + d) =
      ((op.round^[n] (as, k)).1.map (later d), (op.round^[n] (as, k)).2 + d) := by
  induction n generalizing as k with
  | zero => rfl
  | succ n ih =>
    rw [Function.iterate_succ_apply, Function.iterate_succ_apply, round, h.pairs]
    exact ih (op.pairs as k).1 (op.pairs as k).2

theorem Uniform.rounds (h : op.Uniform) (d : Nat) (as : List Automaton) (k : Nat) :
    op.rounds (as.map (later d)) (k + d) =
      (op.rounds as k).map (fun made ↦ (made.1.later d, made.2 + d)) := by
  rw [Merge.rounds, Merge.rounds, List.length_map, h.iterate_round]
  obtain ⟨as', k'⟩ := op.round^[as.length] (as, k)
  cases as' <;> rfl

theorem uniform_union : Uniform (fun a b k ↦ (unionFrom ⟨k⟩ a b, k + 1)) := by
  intro d a b k
  exact Prod.ext (unionFrom_renamed (State.later_injective d)) (Nat.add_right_comm k d 1)

theorem uniform_concat : Uniform (fun a b k ↦ (concatOf a b, k)) := by
  intro d a b k
  exact Prod.ext (concatOf_renamed (State.later_injective d)) rfl

end Merge

def Draft.later (d : Nat) (made : Draft) : Draft :=
  ⟨made.automaton.later d, made.accepts.map (State.later d), made.next + d⟩

namespace FlatTree

theorem draftLiteral_add (c : Char) (k d : Nat) :
    draftLiteral c (k + d) = (draftLiteral c k).later d := by
  have h := literalBetween_renamed (f := State.later d) c ⟨k⟩ ⟨k + 1⟩
  unfold draftLiteral
  split <;> simp [Draft.later, Automaton.later, ← h, State.later, Nat.add_right_comm]

theorem draftRun_add {op : Merge} (hop : op.Uniform) {default : Nat → Automaton × Nat}
    (hdefault : ∀ k d, default (k + d) = ((default k).1.later d, (default k).2 + d)) (d : Nat)
    (as : List Automaton) (accepts : List State) (k : Nat) :
    draftRun op default (as.map (later d)) (accepts.map (State.later d)) (k + d) =
      (draftRun op default as accepts k).later d := by
  simp only [draftRun, hop.rounds]
  cases op.rounds as k with
  | none => simp [hdefault, Draft.later]
  | some made => rfl

mutual

theorem draft_add (t : FlatTree) (k d : Nat) : t.draft (k + d) = (t.draft k).later d := by
  cases t with
  | terminal c => exact draftLiteral_add c k d
  | star t =>
    simp only [draft, draft_add t k d, Draft.later, later, Nat.add_right_comm,
      ← starFrom_renamed (State.later_injective d)]
    rfl
  | concat ts =>
    simp only [draft, drafts_add ts k d]
    refine draftRun_add Merge.uniform_concat (fun k d ↦ Prod.ext ?_ (Nat.add_right_comm k d 1)) ..
    rw [later, ← literalBetween_renamed]
    simp [State.later, Nat.add_right_comm]
  | union ts =>
    simp only [draft, drafts_add ts k d]
    refine draftRun_add Merge.uniform_union (fun k d ↦ Prod.ext ?_ (Nat.add_right_comm k d 1)) ..
    refine eq_of_mem_iff (fun q ↦ ?_) rfl (fun q ↦ ?_) (fun t ↦ ?_) <;>
      simp [later, mem_states_renamed, mem_finals_renamed, mem_transitions_renamed, State.later]

theorem drafts_add (ts : List FlatTree) (k d : Nat) :
    drafts ts (k + d) =
      ((drafts ts k).1.map (later d), (drafts ts k).2.1.map (State.later d),
        (drafts ts k).2.2 + d) := by
  cases ts with
  | nil => rfl
  | cons t ts =>
    have hts := drafts_add ts (t.draft k).next d
    simp only [drafts, draft_add t k d, Draft.later, hts, List.map_cons, List.map_append]

end

theorem automaton_draft (t : FlatTree) (k : Nat) :
    (t.draft k).automaton = (t.draft 0).automaton.later k := by
  rw [← Nat.zero_add k, draft_add, Nat.zero_add]
  rfl

end FlatTree

namespace Tree

/-- Trees that are flattened alike are compiled to automata that differ by the numbers of the states
alone, in whatever workshops, and the states keep their order. -/
theorem compile_matches {t u : Tree} (h : t.flat = u.flat) (w w' : Workshop) :
    ∃ a b v v', t.compile w = .ok (a, v) ∧ u.compile w' = .ok (b, v') ∧ a.Matches b ∧
      b.graph = a.graph := by
  obtain ⟨v, ht, _, hheld⟩ := t.madeFlat [] w (Held.nil _)
  obtain ⟨v', hu, _⟩ := u.madeFlat [] w' (Held.nil _)
  have hmatches :
      (t.flat.draft w.next).automaton.Matches (u.flat.draft w'.next).automaton := by
    rw [h, FlatTree.automaton_draft _ w.next, FlatTree.automaton_draft _ w'.next]
    exact matches_later _ w.next w'.next
  have hgraph := hmatches.graph_eq (hheld.wellFormed _ List.mem_cons_self)
  exact ⟨_, _, _, _, Build.bind_eq ht, Build.bind_eq hu, hmatches, hgraph⟩

end Tree

end LineSearch
