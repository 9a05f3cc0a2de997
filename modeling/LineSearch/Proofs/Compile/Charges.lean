import LineSearch.Proofs.Compile.Valuation

namespace LineSearch

open Automaton

structure Additive (R : Nat → Workshop → Workshop → Prop) : Prop where
  zero : ∀ w, R 0 w w
  add : ∀ {m n u v w}, R m u v → R n v w → R (m + n) u w

/-- The action uses some automata up and makes one for the amount, whatever other automata there
are. -/
def Charges (R : Nat → Workshop → Workshop → Prop) (x : Build Automaton) (used : List Automaton)
    (n : Nat) : Prop :=
  ∀ rest w, Held (used ++ rest) w →
    ∃ a w', x w = .ok (a, w') ∧ Held (a :: rest) w' ∧ R n w w'

section Charges

variable {R : Nat → Workshop → Workshop → Prop} {x : Build Automaton}
  {f : Automaton → Build Automaton} {combine : Automaton → Automaton → Build Automaton}
  {used items : List Automaton} {c m n : Nat}

theorem Makes.charges {P : Automaton → Prop} (h : Makes x used P)
    (hR : ∀ rest w a w', Held (used ++ rest) w → x w = .ok (a, w') → R n w w') :
    Charges R x used n := by
  intro rest w hw
  obtain ⟨a, w', hx, hheld, _⟩ := h rest w hw
  exact ⟨a, w', hx, hheld, hR rest w a w' hw hx⟩

theorem Charges.bind (hR : Additive R) (hx : Charges R x used m)
    (hf : ∀ a, Charges R (f a) [a] n) : Charges R (x >>= f) used (m + n) := by
  intro rest w hw
  obtain ⟨a, w₁, ha, hheld₁, hm⟩ := hx rest w hw
  obtain ⟨b, w₂, hb, hheld₂, hn⟩ := hf a rest w₁ hheld₁
  exact ⟨b, w₂, (Build.bind_eq ha).trans hb, hheld₂, hR.add hm hn⟩

/-- Every merge leaves one automaton fewer, so all of them but one are merged away. -/
theorem mergeRounds_charges (hR : Additive R) (h : ∀ a b, Charges R (combine a b) [a, b] c)
    (empty : Build Automaton) {k : Nat} (hlength : items.length = k + 1) :
    Charges R (mergeRounds combine empty items) items (c * k) := by
  intro rest w hw
  have hcall (l : List Automaton) (a b : Automaton) (r : List Automaton) (v : Workshop)
      (hl : Held (l ++ a :: b :: r ++ rest) v ∧
        ∃ i, items.length = (l ++ a :: b :: r).length + i ∧ R (c * i) w v) :
      ∃ d v', combine a b v = .ok (d, v') ∧ Held (l ++ d :: r ++ rest) v' ∧
        ∃ i, items.length = (l ++ d :: r).length + i ∧ R (c * i) w v' := by
    obtain ⟨hv, i, hi, hcost⟩ := hl
    obtain ⟨d, v', hd, hv', hmore⟩ :=
      h a b (l ++ r ++ rest) v ((Held.front_iff [a, b]).mp hv)
    refine ⟨d, v', hd, (Held.front_iff [d]).mpr hv', i + 1, ?_, hR.add hcost hmore⟩
    simp only [hi, List.length_append, List.length_cons]
    omega
  obtain ⟨d, w', hd, hw', i, hi, hcost⟩ := mergeRounds_keeps
    (P := fun as v ↦ Held (as ++ rest) v ∧ ∃ i, items.length = as.length + i ∧ R (c * i) w v)
    hcall empty (List.ne_nil_of_length_eq_add_one hlength) ⟨hw, 0, rfl, hR.zero w⟩
  obtain rfl : i = k := by
    simp only [List.length_singleton] at hi
    omega
  exact ⟨d, w', hd, hw', hcost⟩

end Charges

structure Costs where
  literal : Char → Nat
  star : Nat
  concat : Nat
  union : Nat

def Costs.valuation (costs : Costs) : Valuation Nat where
  terminal := costs.literal
  star n := n + costs.star
  concat m n := m + n + costs.concat
  union m n := m + n + costs.union
  concat_assoc := by omega
  union_assoc := by omega

structure Costs.Apply (costs : Costs) (R : Nat → Workshop → Workshop → Prop) : Prop
    extends Additive R where
  literal : ∀ c, Charges R (Automaton.literal c) [] (costs.literal c)
  star : ∀ a : Automaton, Charges R a.star [a] costs.star
  concat : ∀ a b : Automaton, Charges R (a.concat b) [a, b] costs.concat
  union : ∀ a b : Automaton, Charges R (a.union b) [a, b] costs.union

namespace Tree

variable {R : Nat → Workshop → Workshop → Prop}

theorem total_add (c : Nat) {ns : List Nat} {k n : Nat} (hlength : ns.length = k + 1)
    (h : total (fun m n ↦ m + n + c) ns = some n) : n = ns.foldr (· + ·) 0 + c * k := by
  induction ns generalizing k n with
  | nil => simp at hlength
  | cons m ns ih =>
    obtain rfl : ns.length = k := Nat.succ.inj hlength
    rw [total] at h
    cases hrest : total (fun m n ↦ m + n + c) ns with
    | none =>
      obtain rfl := eq_nil_of_total_eq_none hrest
      simpa [hrest, eq_comm] using h
    | some i =>
      obtain rfl : m + i + c = n := by simpa [hrest] using h
      cases ns with
      | nil => simp [total] at hrest
      | cons l ns =>
        have hi := ih rfl hrest
        simp only [List.foldr_cons, List.length_cons, Nat.mul_succ] at hi ⊢
        omega

theorem mapM_build_charges {v : Valuation Nat} (hR : Additive R) {ts : List Tree}
    (h : ∀ t ∈ ts, Charges R t.build [] (t.value v)) {rest : List Automaton} {w : Workshop}
    (hw : Held rest w) :
    ∃ as w', ts.mapM build w = .ok (as, w') ∧ Held (as ++ rest) w' ∧ as.length = ts.length ∧
      R ((ts.map (value v)).foldr (· + ·) 0) w w' := by
  induction ts generalizing rest w with
  | nil => exact ⟨[], w, rfl, hw, rfl, hR.zero w⟩
  | cons t ts ih =>
    obtain ⟨a, w₁, ha, hw₁, hcost⟩ := h t List.mem_cons_self rest w hw
    obtain ⟨as, w₂, has, hw₂, hlength, hcosts⟩ :=
      ih (fun u hu ↦ h u (List.mem_cons_of_mem t hu)) hw₁
    refine ⟨a :: as, w₂, ?_, hw₂.perm List.perm_middle, congrArg (· + 1) hlength,
      hR.add hcost hcosts⟩
    rw [List.mapM_cons, Build.bind_eq ha, Build.bind_eq has]
    rfl

theorem charges_run {v : Valuation Nat} {combine : Automaton → Automaton → Build Automaton}
    {c : Nat} {o : Operator} {t : Tree} (hR : Additive R) (hop : v.binary o = (· + · + c))
    (hcombine : ∀ a b, Charges R (combine a b) [a, b] c) (empty : Build Automaton)
    (h : ∀ u ∈ t.operands o, Charges R u.build [] (u.value v)) :
    Charges R ((t.operands o).mapM build >>= mergeRounds combine empty) [] (t.value v) := by
  intro rest w hw
  obtain ⟨as, w₁, has, hw₁, hlength, hcost⟩ := mapM_build_charges hR h hw
  have htotal := total_operands v o t
  rw [hop] at htotal
  obtain ⟨k, hk⟩ : ∃ k, (t.operands o).length = k + 1 := by
    refine Nat.exists_eq_add_one_of_ne_zero (fun h ↦ ?_)
    simp [List.length_eq_zero_iff.mp h, total] at htotal
  obtain ⟨a, w₂, ha, hw₂, hcosts⟩ :=
    mergeRounds_charges hR hcombine empty (hlength.trans hk) rest w₁ hw₁
  have hvalue := total_add c (by rwa [List.length_map]) htotal
  exact ⟨a, w₂, (Build.bind_eq has).trans ha, hw₂, hvalue ▸ hR.add hcost hcosts⟩

theorem charges_build {costs : Costs} (h : costs.Apply R) (t : Tree) :
    Charges R t.build [] (t.value costs.valuation) := by
  induction t using induction_on_operands with
  | terminal t c hs =>
    rw [build_eq, value_eq, hs]
    exact h.literal c
  | star t u hs ih =>
    rw [build_eq, value_eq, hs]
    exact ih.bind h.toAdditive h.star
  | concat t l r hs ih =>
    rw [build_eq, hs]
    exact charges_run (o := .concat) h.toAdditive rfl h.concat _ ih
  | union t l r hs ih =>
    rw [build_eq, hs]
    exact charges_run (o := .union) h.toAdditive rfl h.union _ ih

end Tree

end LineSearch
