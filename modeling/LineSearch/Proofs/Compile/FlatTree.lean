import LineSearch.Proofs.Compile.Valuation

namespace LineSearch

open Automaton

/-- A run of one binary operator is one node. -/
inductive FlatTree
  | terminal (c : Char)
  | star (t : FlatTree)
  | concat (ts : List FlatTree)
  | union (ts : List FlatTree)

/-- The operands of a run of the operator. Any other tree is a run of one operand. -/
def FlatTree.operands : Operator → FlatTree → List FlatTree
  | .concat, concat ts => ts
  | .union, union ts => ts
  | _, t => [t]

namespace Tree

def flat : Tree → FlatTree
  | terminal c => .terminal c
  | paren t | unstarred t | factor t | alternative t => t.flat
  | star t => .star t.flat
  | concat l r => .concat (l.flat.operands .concat ++ r.flat.operands .concat)
  | union l r => .union (l.flat.operands .union ++ r.flat.operands .union)

example :
    flat (concat (unstarred (terminal 'a')) (paren (concat (terminal 'b') (star (terminal 'c'))))) =
      .concat [.terminal 'a', .terminal 'b', .star (.terminal 'c')] := rfl

theorem flat_concat_assoc (l m r : Tree) :
    (concat (concat l m) r).flat = (concat l (concat m r)).flat := by
  simp [flat, FlatTree.operands]

theorem flat_union_assoc (l m r : Tree) :
    (union (union l m) r).flat = (union l (union m r)).flat := by
  simp [flat, FlatTree.operands]

theorem flat_eq (t : Tree) :
    t.flat =
      match t.shape with
      | .terminal c => .terminal c
      | .star u => .star u.flat
      | .concat l r => .concat (l.flat.operands .concat ++ r.flat.operands .concat)
      | .union l r => .union (l.flat.operands .union ++ r.flat.operands .union) := by
  induction t with
  | terminal | star | concat | union => rfl
  | paren t ih | unstarred t ih | factor t ih | alternative t ih => exact ih

theorem operands_flat (o : Operator) (t : Tree) : t.flat.operands o = (t.operands o).map flat := by
  fun_induction operands o t with
  | case1 t l r h ihl ihr =>
    rw [List.map_append, ← ihl, ← ihr, flat_eq]
    revert h
    fun_cases split o t with
    | case1 l' r' hs =>
      rintro ⟨⟩
      simp only [hs, FlatTree.operands]
    | case2 l' r' hs =>
      rintro ⟨⟩
      simp only [hs, FlatTree.operands]
    | case3 => simp
  | case2 t h =>
    rw [List.map_singleton, flat_eq]
    cases hs : t.shape <;> cases o <;> simp_all [split, FlatTree.operands]

end Tree

/-- An operation on two automata that may use new states, given the number of the next one. -/
abbrev Merge := Automaton → Automaton → Nat → Automaton × Nat

namespace Merge

def pairs (op : Merge) : List Automaton → Nat → List Automaton × Nat
  | a :: b :: rest, k =>
    let (c, k) := op a b k
    let (merged, k) := op.pairs rest k
    (c :: merged, k)
  | as, k => (as, k)

def round (op : Merge) (s : List Automaton × Nat) : List Automaton × Nat := op.pairs s.1 s.2

/-- What one automaton alone is after the rounds. There are enough of them, since a round changes
nothing once it is alone. -/
def rounds (op : Merge) (as : List Automaton) (k : Nat) : Option (Automaton × Nat) :=
  match op.round^[as.length] (as, k) with
  | (a :: _, k) => some (a, k)
  | ([], _) => none

end Merge

structure Draft where
  automaton : Automaton
  accepts : List State
  next : Nat

namespace FlatTree

def draftLiteral (c : Char) (k : Nat) : Draft :=
  if c = Alphabet.emptySign then ⟨literalBetween c ⟨k⟩ ⟨k + 1⟩, [], k + 1⟩
  else ⟨literalBetween c ⟨k⟩ ⟨k + 1⟩, [⟨k + 1⟩], k + 2⟩

def draftRun (op : Merge) (empty : Nat → Automaton × Nat) (as : List Automaton)
    (accepts : List State) (k : Nat) : Draft :=
  let (a, next) := (op.rounds as k).getD (empty k)
  ⟨a, accepts, next⟩

mutual

def draft : FlatTree → Nat → Draft
  | terminal c, k => draftLiteral c k
  | star t, k =>
    let d := t.draft k
    ⟨starFrom ⟨d.next⟩ d.automaton, d.accepts, d.next + 1⟩
  | concat ts, k =>
    let (as, accepts, k) := drafts ts k
    draftRun (fun a b k ↦ (concatOf a b, k))
      (fun k ↦ (literalBetween Alphabet.emptySign ⟨k⟩ ⟨k + 1⟩, k + 1)) as accepts k
  | union ts, k =>
    let (as, accepts, k) := drafts ts k
    draftRun (fun a b k ↦ (unionFrom ⟨k⟩ a b, k + 1))
      (fun k ↦ (⟨{⟨k⟩}, ⟨k⟩, ∅, ∅⟩, k + 1)) as accepts k

/-- The automata of some trees, each made after the one before it, the accept states of all their
literals and the number of the next state. -/
def drafts : List FlatTree → Nat → List Automaton × List State × Nat
  | [], k => ([], [], k)
  | t :: ts, k =>
    let d := t.draft k
    let (as, accepts, next) := drafts ts d.next
    (d.automaton :: as, d.accepts ++ accepts, next)

end

end FlatTree

def MakesFrom (x : Build Automaton) (used : List Automaton) (f : Nat → Automaton × Nat) : Prop :=
  ∀ rest w, Held (used ++ rest) w →
    ∃ w', x w = .ok ((f w.next).1, w') ∧ w'.next = (f w.next).2 ∧ Held ((f w.next).1 :: rest) w'

theorem Makes.from {x : Build Automaton} {used : List Automaton} {f : Nat → Automaton × Nat}
    {P : Automaton → Prop} (h : Makes x used P)
    (hf : ∀ rest w, Held (used ++ rest) w →
      ∃ events, x w = .ok ((f w.next).1, ⟨(f w.next).2, events⟩)) :
    MakesFrom x used f := by
  intro rest w hw
  obtain ⟨a, w', hx, hheld, _⟩ := h rest w hw
  obtain ⟨events, hx'⟩ := hf rest w hw
  obtain ⟨rfl, rfl⟩ := Prod.mk.inj (Except.ok.inj (hx.symm.trans hx'))
  exact ⟨_, hx, rfl, hheld⟩

theorem MakesFrom.bind {x : Build Automaton} {g : Automaton → Build Automaton}
    {used more : List Automaton} {f : Nat → Automaton × Nat} {h : Automaton → Nat → Automaton × Nat}
    (hx : MakesFrom x used f) (hg : ∀ a, MakesFrom (g a) (a :: more) (h a)) :
    MakesFrom (x >>= g) (used ++ more) (fun k ↦ h (f k).1 (f k).2) := by
  intro rest w hw
  rw [List.append_assoc] at hw
  obtain ⟨w₁, hx, hnext, hw₁⟩ := hx (more ++ rest) w hw
  obtain ⟨w₂, hg, hnext₂, hw₂⟩ := hg _ rest w₁ hw₁
  rw [hnext] at hg hnext₂ hw₂
  exact ⟨w₂, (Build.bind_eq hx).trans hg, hnext₂, hw₂⟩

section Operators

theorem makesFrom_literal (c : Char) : MakesFrom (literal c) [] (fun k ↦
    ((FlatTree.draftLiteral c k).automaton, (FlatTree.draftLiteral c k).next)) := by
  refine (makes_literal (P := fun _ ↦ True) c (fun _ _ _ ↦ trivial)).from (fun rest w hw ↦ ?_)
  rw [literal_eq_ok, FlatTree.draftLiteral]
  refine ⟨w.events, ?_⟩
  split <;> rfl

theorem makesFrom_star (a : Automaton) :
    MakesFrom a.star [a] (fun k ↦ (starFrom ⟨k⟩ a, k + 1)) := by
  refine (makes_star (P := fun _ ↦ True) (fun _ _ _ ↦ trivial)).from (fun rest w hw ↦ ?_)
  exact ⟨_, star_eq_ok (hw.wellFormed a (by simp)) w⟩

theorem makesFrom_concat (a b : Automaton) :
    MakesFrom (a.concat b) [a, b] (fun k ↦ (concatOf a b, k)) := by
  refine (makes_concat (P := fun _ ↦ True) (fun _ _ _ ↦ trivial)).from (fun rest w hw ↦ ?_)
  exact ⟨_, concat_eq_ok (hw.wellFormed a (by simp)) (hw.wellFormed b (by simp)) w⟩

theorem makesFrom_union (a b : Automaton) :
    MakesFrom (a.union b) [a, b] (fun k ↦ (unionFrom ⟨k⟩ a b, k + 1)) := by
  refine (makes_union (P := fun _ ↦ True) (fun _ _ _ _ _ _ ↦ trivial)).from (fun rest w hw ↦ ?_)
  exact ⟨_, union_eq_ok (hw.wellFormed a (by simp)) (hw.wellFormed b (by simp)) w⟩

end Operators

section Merging

variable {op : Merge} {combine : Automaton → Automaton → Build Automaton}
  {items rest : List Automaton} {w : Workshop}

theorem mergeNeighbours_from (hop : ∀ a b, MakesFrom (combine a b) [a, b] (op a b))
    (hw : Held (items ++ rest) w) :
    ∃ merged w', mergeNeighbours combine items w = .ok (merged, w') ∧
      op.pairs items w.next = (merged.1, w'.next) ∧ Held (merged.1 ++ rest) w' := by
  fun_induction mergeNeighbours combine items generalizing rest w with
  | case1 => exact ⟨_, w, rfl, rfl, hw⟩
  | case2 a => exact ⟨_, w, rfl, rfl, hw⟩
  | case3 a b items ih =>
    obtain ⟨w₁, hc, hnext, hw₁⟩ := hop a b (items ++ rest) w hw
    obtain ⟨merged, w₂, hm, hpairs, hw₂⟩ := ih (hw₁.perm List.perm_middle.symm)
    refine ⟨_, w₂, (Build.bind_eq hc).trans ((Build.bind_eq hm).trans rfl), ?_,
      hw₂.perm List.perm_middle⟩
    simp only [Merge.pairs, ← hnext, hpairs]

theorem mergeRounds_from (hop : ∀ a b, MakesFrom (combine a b) [a, b] (op a b))
    (empty : Build Automaton) {n : Nat} (hne : items ≠ []) (hn : items.length ≤ n + 1)
    (hw : Held (items ++ rest) w) :
    ∃ a w', mergeRounds combine empty items w = .ok (a, w') ∧
      op.round^[n] (items, w.next) = ([a], w'.next) ∧ Held (a :: rest) w' := by
  induction items using mergeRounds.induct generalizing n w with
  | case1 => exact absurd rfl hne
  | case2 a =>
    exact ⟨a, w, by rw [mergeRounds]; rfl, Function.iterate_fixed rfl n, hw⟩
  | case3 a b items ih =>
    obtain ⟨⟨merged, hlength⟩, w₁, hm, hpairs, hw₁⟩ := mergeNeighbours_from hop hw
    -- a round about halves the automata, so one round fewer is enough for what it leaves
    obtain ⟨n, rfl⟩ : ∃ m, n = m + 1 := ⟨n - 1, by simp at hn; omega⟩
    have hne' : merged ≠ [] := by
      intro hnil
      simp [Merge.pairs, hnil] at hpairs
    have hn' : merged.length ≤ n + 1 := by
      simp only [List.length_cons] at hn hlength
      omega
    obtain ⟨c, w₂, hc, hround, hw₂⟩ := ih merged hlength hne' hn' hw₁
    refine ⟨c, w₂, ?_, ?_, hw₂⟩
    · rw [mergeRounds]
      exact (Build.bind_eq hm).trans hc
    · rw [Function.iterate_succ_apply, ← hround, Merge.round, hpairs]

end Merging

namespace Tree

abbrev MadeFlat (t : Tree) : Prop :=
  MakesFrom t.build [] (fun k ↦ ((t.flat.draft k).automaton, (t.flat.draft k).next))

theorem mapM_build_from {ts : List Tree} (h : ∀ t ∈ ts, t.MadeFlat) {rest : List Automaton}
    {w : Workshop} (hw : Held rest w) :
    ∃ w', ts.mapM build w = .ok ((FlatTree.drafts (ts.map flat) w.next).1, w') ∧
      w'.next = (FlatTree.drafts (ts.map flat) w.next).2.2 ∧
      Held ((FlatTree.drafts (ts.map flat) w.next).1 ++ rest) w' := by
  induction ts generalizing rest w with
  | nil => exact ⟨w, rfl, rfl, hw⟩
  | cons t ts ih =>
    obtain ⟨w₁, ht, hnext, hw₁⟩ := h t List.mem_cons_self rest w hw
    obtain ⟨w₂, hts, hnext₂, hw₂⟩ := ih (fun u hu ↦ h u (List.mem_cons_of_mem t hu)) hw₁
    simp only [List.map_cons, FlatTree.drafts]
    rw [hnext] at hts hnext₂ hw₂
    refine ⟨w₂, ?_, hnext₂, hw₂.perm List.perm_middle⟩
    rw [List.mapM_cons, Build.bind_eq ht, Build.bind_eq hts]
    rfl

theorem drafts_ne_nil {ts : List FlatTree} (h : ts ≠ []) (k : Nat) :
    (FlatTree.drafts ts k).1 ≠ [] := by
  cases ts with
  | nil => exact absurd rfl h
  | cons t ts => simp [FlatTree.drafts]

theorem makesFrom_run {combine : Automaton → Automaton → Build Automaton} {op : Merge}
    {ts : List Tree} (hop : ∀ a b, MakesFrom (combine a b) [a, b] (op a b))
    (empty : Build Automaton) (default : Nat → Automaton × Nat) (hne : ts ≠ []) (h : ∀ t ∈ ts, t.MadeFlat) :
    MakesFrom (ts.mapM build >>= mergeRounds combine empty) [] (fun k ↦
      let (as, accepts, next) := FlatTree.drafts (ts.map flat) k
      let d := FlatTree.draftRun op default as accepts next
      (d.automaton, d.next)) := by
  intro rest w hw
  obtain ⟨w₁, hts, hnext, hw₁⟩ := mapM_build_from h hw
  have hne' : (FlatTree.drafts (ts.map flat) w.next).1 ≠ [] :=
    drafts_ne_nil (mt List.map_eq_nil_iff.mp hne) w.next
  obtain ⟨a, w₂, ha, hrounds, hw₂⟩ :=
    mergeRounds_from hop empty hne' (Nat.le_succ _) hw₁
  rw [hnext] at hrounds
  simp only [FlatTree.draftRun, Merge.rounds, hrounds, Option.getD_some]
  exact ⟨w₂, (Build.bind_eq hts).trans ha, rfl, hw₂⟩

theorem operands_ne_nil (o : Operator) (t : Tree) : t.operands o ≠ [] := by
  fun_induction operands o t with
  | case1 t l r h ihl ihr => exact List.append_ne_nil_of_left_ne_nil ihl _
  | case2 t h => exact List.cons_ne_nil t []

theorem flat_of_concat {t l r : Tree} (h : t.shape = .concat l r) :
    t.flat = .concat ((t.operands .concat).map flat) := by
  have hsplit : t.split .concat = some (l, r) := by simp only [split, h]
  rw [flat_eq, h, operands_of_split hsplit, List.map_append, ← operands_flat, ← operands_flat]

theorem flat_of_union {t l r : Tree} (h : t.shape = .union l r) :
    t.flat = .union ((t.operands .union).map flat) := by
  have hsplit : t.split .union = some (l, r) := by simp only [split, h]
  rw [flat_eq, h, operands_of_split hsplit, List.map_append, ← operands_flat, ← operands_flat]

theorem madeFlat (t : Tree) : t.MadeFlat := by
  induction t using induction_on_operands with
  | terminal t c hs =>
    rw [MadeFlat, build_eq, flat_eq, hs]
    exact makesFrom_literal c
  | star t u hs ih =>
    rw [MadeFlat, build_eq, flat_eq, hs]
    exact ih.bind makesFrom_star
  | concat t l r hs ih =>
    rw [MadeFlat, build_eq, flat_of_concat hs, hs]
    exact makesFrom_run makesFrom_concat _ _ (operands_ne_nil _ t) ih
  | union t l r hs ih =>
    rw [MadeFlat, build_eq, flat_of_union hs, hs]
    exact makesFrom_run makesFrom_union _ _ (operands_ne_nil _ t) ih

/-- Compilation makes the automaton of the recursion on the flattened tree, with the same states,
and leaves off at the same number. So trees that are flattened alike are compiled alike. -/
theorem compile_eq_draft (k : Nat) (events : Array Event) :
    (∀ t : Tree, ∃ noted, t.compile ⟨k, events⟩ =
      .ok ((t.flat.draft k).automaton, ⟨(t.flat.draft k).next, noted⟩)) ∧
    ∀ t u : Tree, t.flat = u.flat → ∃ a next notedt notedu,
      t.compile ⟨k, events⟩ = .ok (a, ⟨next, notedt⟩) ∧
      u.compile ⟨k, events⟩ = .ok (a, ⟨next, notedu⟩) := by
  have hcompile (t : Tree) : ∃ noted, t.compile ⟨k, events⟩ =
      .ok ((t.flat.draft k).automaton, ⟨(t.flat.draft k).next, noted⟩) := by
    obtain ⟨⟨next, noted⟩, ht, rfl, _⟩ := t.madeFlat [] ⟨k, events⟩ (Held.nil _)
    exact ⟨_, Build.bind_eq ht⟩
  refine ⟨hcompile, fun t u h ↦ ?_⟩
  obtain ⟨notedt, ht⟩ := hcompile t
  obtain ⟨notedu, hu⟩ := hcompile u
  rw [← h] at hu
  exact ⟨_, _, notedt, notedu, ht, hu⟩

theorem compile_eq_draft_brackets :
    let a := unstarred (terminal 'a')
    let b := star (paren (union (terminal 'b') epsilon))
    let c := unstarred (terminal 'c')
    let t := concat (concat a b) (concat c a)
    let u := concat a (paren (concat (paren (concat b c)) a))
    t.flat = u.flat ∧ ∃ a next notedt notedu,
      t.compile ⟨3, #[]⟩ = .ok (a, ⟨next, notedt⟩) ∧ u.compile ⟨3, #[]⟩ = .ok (a, ⟨next, notedu⟩) :=
  ⟨rfl, (compile_eq_draft 3 #[]).2 _ _ rfl⟩

end Tree

end LineSearch
