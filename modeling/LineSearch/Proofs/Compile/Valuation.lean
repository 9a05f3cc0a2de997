import LineSearch.Proofs.Automaton.Ownership
import LineSearch.Proofs.Compile.Recursion
import LineSearch.Proofs.Rounds

namespace LineSearch

open Automaton

def total {M : Type} (op : M → M → M) : List M → Option M
  | [] => none
  | x :: xs => some ((total op xs).elim x (op x))

section Merging

variable {M : Type} {op : M → M → M} {D : M → Automaton → Prop}
  {combine : Automaton → Automaton → Build Automaton}

theorem eq_nil_of_total_eq_none {xs : List M} (h : total op xs = none) : xs = [] := by
  cases xs with
  | nil => rfl
  | cons => simp [total] at h

theorem total_append (assoc : ∀ x y z, op (op x y) z = op x (op y z)) {xs ys : List M} {x y : M}
    (hx : total op xs = some x) (hy : total op ys = some y) :
    total op (xs ++ ys) = some (op x y) := by
  induction xs generalizing x with
  | nil => simp [total] at hx
  | cons z xs ih =>
    rw [List.cons_append, total]
    cases hxs : total op xs with
    | none =>
      obtain rfl := eq_nil_of_total_eq_none hxs
      simp_all [total]
    | some x' =>
      obtain rfl : op z x' = x := by simpa [total, hxs] using hx
      rw [ih hxs, assoc]
      rfl

theorem total_merged (assoc : ∀ x y z, op (op x y) z = op x (op y z)) (xs ys : List M) (x y : M) :
    total op (xs ++ op x y :: ys) = total op (xs ++ x :: y :: ys) := by
  induction xs with
  | nil =>
    simp only [List.nil_append, total]
    cases total op ys with
    | none => rfl
    | some z => simp [assoc]
  | cons z xs ih => simp only [List.cons_append, total, ih]

theorem exists_values {l r : List Automaton} {a b : Automaton} {ys : List M}
    (h : List.Forall₂ D ys (l ++ a :: b :: r)) :
    ∃ us x y vs, ys = us ++ x :: y :: vs ∧ D x a ∧ D y b ∧
      ∀ z c, D z c → List.Forall₂ D (us ++ z :: vs) (l ++ c :: r) := by
  induction l generalizing ys with
  | nil =>
    obtain ⟨x, _, hx, htail, rfl⟩ := List.forall₂_cons_right_iff.mp h
    obtain ⟨y, vs, hy, hvs, rfl⟩ := List.forall₂_cons_right_iff.mp htail
    exact ⟨[], x, y, vs, rfl, hx, hy, fun z c hz ↦ .cons hz hvs⟩
  | cons d l ih =>
    obtain ⟨u, _, hu, htail, rfl⟩ := List.forall₂_cons_right_iff.mp h
    obtain ⟨us, x, y, vs, rfl, hx, hy, hvs⟩ := ih htail
    exact ⟨u :: us, x, y, vs, rfl, hx, hy, fun z c hz ↦ .cons hu (hvs z c hz)⟩

theorem makes_mergeRounds (assoc : ∀ x y z, op (op x y) z = op x (op y z))
    (hcombine : ∀ a b x y, D x a → D y b → Makes (combine a b) [a, b] (D (op x y)))
    (empty : Build Automaton) {items : List Automaton} {xs : List M} {x : M}
    (h : List.Forall₂ D xs items) (hx : total op xs = some x) :
    Makes (mergeRounds combine empty items) items (D x) := by
  intro rest w hw
  have hne : items ≠ [] := by
    rintro rfl
    cases h
    simp [total] at hx
  have hcall (l : List Automaton) (a b : Automaton) (r : List Automaton) (v : Workshop)
      (hl : Held (l ++ a :: b :: r ++ rest) v ∧
        ∃ ys, List.Forall₂ D ys (l ++ a :: b :: r) ∧ total op ys = some x) :
      ∃ c v', combine a b v = .ok (c, v') ∧ Held (l ++ c :: r ++ rest) v' ∧
        ∃ ys, List.Forall₂ D ys (l ++ c :: r) ∧ total op ys = some x := by
    obtain ⟨hv, ys, hys, htotal⟩ := hl
    obtain ⟨us, y, z, vs, rfl, hy, hz, hvs⟩ := exists_values hys
    obtain ⟨c, v', hc, hv', hd⟩ :=
      hcombine a b y z hy hz (l ++ r ++ rest) v ((Held.front_iff [a, b]).mp hv)
    exact ⟨c, v', hc, (Held.front_iff [c]).mpr hv', _, hvs _ c hd,
      (total_merged assoc us vs y z).trans htotal⟩
  obtain ⟨a, w', ha, hw', ys, hys, htotal⟩ := mergeRounds_keeps
    (P := fun as v ↦ Held (as ++ rest) v ∧ ∃ ys, List.Forall₂ D ys as ∧ total op ys = some x)
    hcall empty hne ⟨hw, xs, h, hx⟩
  cases hys with
  | @cons y _ _ _ hy hnil =>
    cases hnil
    obtain rfl : y = x := by simpa [total] using htotal
    exact ⟨a, w', ha, hw', hy⟩

end Merging

/-- Values of trees that do not depend on the bracketing of a run of one operator. -/
structure Valuation (M : Type) where
  terminal : Char → M
  star : M → M
  concat : M → M → M
  union : M → M → M
  concat_assoc : ∀ x y z, concat (concat x y) z = concat x (concat y z)
  union_assoc : ∀ x y z, union (union x y) z = union x (union y z)

/-- A relation between values and automata that literals and the operators keep, given operands
without common states and new heads. -/
structure Valuation.Describes {M : Type} (v : Valuation M) (D : M → Automaton → Prop) : Prop where
  literal : ∀ c start accept, start ≠ accept → D (v.terminal c) (literalBetween c start accept)
  star : ∀ x a head, a.WellFormed → head ∉ a.states → D x a → D (v.star x) (starFrom head a)
  concat : ∀ x y a b, a.WellFormed → b.WellFormed → Apart a b → D x a → D y b →
    D (v.concat x y) (concatOf a b)
  union : ∀ x y a b head, a.WellFormed → b.WellFormed → Apart a b → head ∉ a.states →
    head ∉ b.states → D x a → D y b → D (v.union x y) (unionFrom head a b)

def Valuation.binary {M : Type} (v : Valuation M) : Operator → M → M → M
  | .concat => v.concat
  | .union => v.union
  | .star => fun x _ ↦ x

theorem Valuation.binary_assoc {M : Type} (v : Valuation M) (o : Operator) (x y z : M) :
    v.binary o (v.binary o x y) z = v.binary o x (v.binary o y z) := by
  cases o with
  | concat => exact v.concat_assoc x y z
  | union => exact v.union_assoc x y z
  | star => rfl

namespace Tree

variable {M : Type} (v : Valuation M) {D : M → Automaton → Prop}

def value : Tree → M
  | terminal c => v.terminal c
  | paren t | unstarred t | factor t | alternative t => t.value
  | star t => v.star t.value
  | concat l r => v.concat l.value r.value
  | union l r => v.union l.value r.value

theorem value_eq (t : Tree) :
    t.value v =
      match t.shape with
      | .terminal c => v.terminal c
      | .star u => v.star (u.value v)
      | .concat l r => v.concat (l.value v) (r.value v)
      | .union l r => v.union (l.value v) (r.value v) := by
  induction t with
  | terminal | star | concat | union => rfl
  | paren t ih | unstarred t ih | factor t ih | alternative t ih => exact ih

theorem value_of_split {o : Operator} {t l r : Tree} (h : t.split o = some (l, r)) :
    t.value v = v.binary o (l.value v) (r.value v) := by
  rw [value_eq]
  revert h
  fun_cases split o t with
  | case1 l' r' hs =>
    rw [hs]
    intro h
    obtain ⟨rfl, rfl⟩ := Prod.mk.inj (Option.some.inj h)
    rfl
  | case2 l' r' hs =>
    rw [hs]
    intro h
    obtain ⟨rfl, rfl⟩ := Prod.mk.inj (Option.some.inj h)
    rfl
  | case3 => simp

theorem total_operands (o : Operator) (t : Tree) :
    total (v.binary o) ((t.operands o).map (value v)) = some (t.value v) := by
  fun_induction operands o t with
  | case1 t l r h ihl ihr =>
    rw [List.map_append, total_append (v.binary_assoc o) ihl ihr, value_of_split v h]
  | case2 t h => rfl

variable {v}

theorem mapM_build_held {ts : List Tree}
    (h : ∀ t ∈ ts, Makes t.build [] (D (t.value v))) {rest : List Automaton} {w : Workshop}
    (hw : Held rest w) :
    ∃ as w', ts.mapM build w = .ok (as, w') ∧ Held (as ++ rest) w' ∧
      List.Forall₂ D (ts.map (value v)) as := by
  induction ts generalizing rest w with
  | nil => exact ⟨[], w, rfl, hw, .nil⟩
  | cons t ts ih =>
    obtain ⟨a, w₁, ha, hw₁, hd⟩ := h t List.mem_cons_self rest w hw
    obtain ⟨as, w₂, has, hw₂, hds⟩ := ih (fun u hu ↦ h u (List.mem_cons_of_mem t hu)) hw₁
    refine ⟨a :: as, w₂, ?_, hw₂.perm List.perm_middle, .cons hd hds⟩
    rw [List.mapM_cons, Build.bind_eq ha, Build.bind_eq has]
    rfl

theorem makes_run {combine : Automaton → Automaton → Build Automaton} {o : Operator} {t : Tree}
    (empty : Build Automaton)
    (hcombine : ∀ a b x y, D x a → D y b → Makes (combine a b) [a, b] (D (v.binary o x y)))
    (h : ∀ u ∈ t.operands o, Makes u.build [] (D (u.value v))) :
    Makes ((t.operands o).mapM build >>= mergeRounds combine empty) [] (D (t.value v)) := by
  intro rest w hw
  obtain ⟨as, w₁, has, hw₁, hds⟩ := mapM_build_held h hw
  obtain ⟨a, w₂, ha, hw₂, hd⟩ :=
    makes_mergeRounds (v.binary_assoc o) hcombine empty hds (total_operands v o t) rest w₁ hw₁
  exact ⟨a, w₂, (Build.bind_eq has).trans ha, hw₂, hd⟩

theorem nodeCount_lt_of_mem_operands {o : Operator} {t l r u : Tree}
    (h : t.split o = some (l, r)) (hu : u ∈ t.operands o) : u.nodeCount < t.nodeCount := by
  have hlt := nodeCount_split h
  rw [operands_of_split h] at hu
  rcases List.mem_append.mp hu with hu | hu
  · have := nodeCount_le_of_mem_operands hu
    omega
  · have := nodeCount_le_of_mem_operands hu
    omega

/-- Induction as compilation goes: a tree comes after the operands of its run. -/
theorem induction_on_operands {P : Tree → Prop} (t : Tree)
    (terminal : ∀ t c, t.shape = .terminal c → P t)
    (star : ∀ t u, t.shape = .star u → P u → P t)
    (concat : ∀ t l r, t.shape = .concat l r → (∀ u ∈ t.operands .concat, P u) → P t)
    (union : ∀ t l r, t.shape = .union l r → (∀ u ∈ t.operands .union, P u) → P t) : P t := by
  induction h : t.nodeCount using Nat.strongRecOn generalizing t with
  | _ n ih =>
    subst h
    cases hs : t.shape with
    | terminal c => exact terminal t c hs
    | star u =>
      have hlt : u.nodeCount < t.nodeCount := by
        simpa [hs, Shape.operands, totalNodes] using totalNodes_operands_lt t
      exact star t u hs (ih _ hlt u rfl)
    | concat l r =>
      have hsplit : t.split .concat = some (l, r) := by simp only [split, hs]
      exact concat t l r hs (fun u hu ↦ ih _ (nodeCount_lt_of_mem_operands hsplit hu) u rfl)
    | union l r =>
      have hsplit : t.split .union = some (l, r) := by simp only [split, hs]
      exact union t l r hs (fun u hu ↦ ih _ (nodeCount_lt_of_mem_operands hsplit hu) u rfl)

/-- Every tree is compiled, to an automaton that its value describes. -/
theorem makes_build (hv : v.Describes D) (t : Tree) : Makes t.build [] (D (t.value v)) := by
  induction t using induction_on_operands with
  | terminal t c hs =>
    rw [build_eq, value_eq, hs]
    exact makes_literal c (hv.literal c)
  | star t u hs ih =>
    rw [build_eq, value_eq, hs]
    have hstar (a : Automaton) (ha : D (u.value v) a) :
        Makes a.star [a] (D (v.star (u.value v))) :=
      makes_star (fun head hwell hhead ↦ hv.star _ a head hwell hhead ha)
    exact ih.bind hstar
  | concat t l r hs ih =>
    rw [build_eq, hs]
    refine makes_run (o := .concat) _ (fun a b x y hx hy ↦ ?_) ih
    exact makes_concat (fun ha hb hab ↦ hv.concat x y a b ha hb hab hx hy)
  | union t l r hs ih =>
    rw [build_eq, hs]
    refine makes_run (o := .union) _ (fun a b x y hx hy ↦ ?_) ih
    exact makes_union (fun head ha hb hab hha hhb ↦
      hv.union x y a b head ha hb hab hha hhb hx hy)

end Tree

end LineSearch
