import LineSearch.Proofs.Automaton.Laws

namespace LineSearch.Automaton

open scoped Computability

section Self

variable {a : Automaton} {head : State} {text : List Char}

theorem before_self (a : Automaton) : before a a = a := by
  refine eq_of_mem_iff (fun q ↦ ?_) rfl (fun q ↦ Iff.rfl) (fun t ↦ ?_) <;>
    simp only [before, Std.ExtTreeSet.mem_union_iff, or_self]

theorem language_concatOf_self (ha : a.WellFormed) :
    (concatOf a a).language = a.language * a.language∗ := by
  ext text
  rw [concatOf, before_self, mem_language_eliminated]
  constructor
  · intro h
    obtain ⟨q, hq, h⟩ := h
    apply mem_mul_kstar_of_run ha (fun p _ q hh ↦ leads_concatSeeds.mp hh) h ha.start_mem
    exact fun _ ↦ hq
  · intro h
    obtain ⟨u, ⟨p, hp, hu⟩, v, hv, rfl⟩ := Language.mem_mul.mp h
    obtain ⟨texts, rfl, ht⟩ := Language.mem_kstar.mp hv
    obtain ⟨q, hq, hrest⟩ := run_flatten (S := (· ∈ a.finals))
      (fun p hp ↦ leads_concatSeeds.mpr ⟨hp, rfl⟩) (fun p hp ↦ hp) texts ht hp
    exact ⟨q, hq, (Run.of_path hu).append hrest⟩

theorem language_unionFrom_self (ha : a.WellFormed) (hhead : head ∉ a.states) :
    (unionFrom head a a).language = a.language := by
  refine le_antisymm (fun text h ↦ ?_)
    (fun _ h ↦ mem_language_unionFrom_of_mem_add (Or.inl h))
  have hts (t : Transition) (ht : t ∈ (beside head a a).transitions) : t ∈ a.transitions :=
    or_self_iff.mp (Std.ExtTreeSet.mem_union_iff.mp ht)
  obtain ⟨q, hq, h⟩ := mem_language_eliminated.mp h
  have hfinal : q ∈ a.finals := or_self_iff.mp (Std.ExtTreeSet.mem_union_iff.mp hq)
  cases h with
  | nil => exact absurd (ha.mem_of_final _ hfinal) hhead
  | hop hh h =>
    obtain ⟨_, rfl⟩ : _ ∧ _ = a.start := by simpa only [or_self] using leads_unionSeeds.mp hh
    refine mem_languageFrom_of_run ha (fun t ht _ ↦ hts t ht) (fun p q hh ↦ ?_) h ha.start_mem
      (fun _ ↦ hfinal)
    rw [(leads_unionSeeds.mp hh).1]
    exact hhead
  | read hc _ => exact absurd (ha.joins _ (hts _ hc)).1 hhead

end Self

theorem mem_mul_kstar_iff_pieces {L : Language Char} {text : List Char} :
    text ∈ L * L∗ ↔ ∃ pieces : List (List Char), pieces ≠ [] ∧ pieces.flatten = text ∧
      ∀ u ∈ pieces, u ∈ L := by
  rw [Language.mem_mul]
  constructor
  · intro h
    obtain ⟨u, hu, v, hv, rfl⟩ := h
    obtain ⟨pieces, rfl, hpieces⟩ := Language.mem_kstar.mp hv
    exact ⟨u :: pieces, List.cons_ne_nil u pieces, rfl, List.forall_mem_cons.mpr ⟨hu, hpieces⟩⟩
  · intro h
    obtain ⟨pieces, hne, rfl, hpieces⟩ := h
    cases pieces with
    | nil => exact absurd rfl hne
    | cons u pieces =>
      obtain ⟨hu, hpieces⟩ := List.forall_mem_cons.mp hpieces
      exact ⟨u, hu, pieces.flatten, Language.join_mem_kstar hpieces, rfl⟩

section Combinations

variable {a b : Automaton} {w : Workshop}

theorem concat_self_accepts_iff (ha : a.WellFormed) (w : Workshop) :
    ∃ c w', a.concat a w = .ok (c, w') ∧ ∀ text, c.accepts text = true ↔
      ∃ pieces : List (List Char), pieces ≠ [] ∧ pieces.flatten = text ∧
        ∀ u ∈ pieces, a.accepts u = true := by
  refine ⟨_, _, concat_eq_ok ha ha w, fun text ↦ ?_⟩
  rw [← mem_language_iff_accepts, language_concatOf_self ha, mem_mul_kstar_iff_pieces]
  simp only [mem_language_iff_accepts]

theorem union_self_accepts (ha : a.WellFormed) (hmade : ∀ q ∈ a.states, q.number < w.next) :
    ∃ c w', a.union a w = .ok (c, w') ∧ ∀ text, c.accepts text = a.accepts text := by
  have hlanguage := language_unionFrom_self ha (fresh_not_mem hmade)
  exact ⟨_, _, union_eq_ok ha ha w, congrFun (accepts_eq_of_language_eq hlanguage)⟩

theorem union_accepts_of_accepts (ha : a.WellFormed) (hb : b.WellFormed) (w : Workshop) :
    ∃ c w', a.union b w = .ok (c, w') ∧ ∀ text, a.accepts text = true ∨ b.accepts text = true →
      c.accepts text = true := by
  refine ⟨_, _, union_eq_ok ha hb w, fun text h ↦ ?_⟩
  simp only [← mem_language_iff_accepts] at h ⊢
  exact mem_language_unionFrom_of_mem_add h

theorem concat_accepts_of_accepts (ha : a.WellFormed) (hb : b.WellFormed) (w : Workshop) :
    ∃ c w', a.concat b w = .ok (c, w') ∧ ∀ u v, a.accepts u = true → b.accepts v = true →
      c.accepts (u ++ v) = true := by
  refine ⟨_, _, concat_eq_ok ha hb w, fun u v hu hv ↦ ?_⟩
  rw [← mem_language_iff_accepts] at hu hv ⊢
  exact mem_language_concatOf_of_mem_mul (Language.append_mem_mul hu hv)

/-- What combining an automaton with itself accepts, and what combining any two automata accepts at
the least, whatever states they share. -/
theorem combine_accepts_shared (ha : a.validated = .ok a) (hb : b.validated = .ok b)
    (hmade : ∀ q ∈ a.states, q.number < w.next) :
    (∃ c w', a.concat a w = .ok (c, w') ∧ ∀ text, c.accepts text = true ↔
      ∃ pieces : List (List Char), pieces ≠ [] ∧ pieces.flatten = text ∧
        ∀ u ∈ pieces, a.accepts u = true) ∧
    (∃ c w', a.union a w = .ok (c, w') ∧ ∀ text, c.accepts text = a.accepts text) ∧
    (∃ c w', a.union b w = .ok (c, w') ∧ ∀ text,
      a.accepts text = true ∨ b.accepts text = true → c.accepts text = true) ∧
    ∃ c w', a.concat b w = .ok (c, w') ∧ ∀ u v,
      a.accepts u = true → b.accepts v = true → c.accepts (u ++ v) = true := by
  have hwella := (wellFormed_of_validated ha).1
  have hwellb := (wellFormed_of_validated hb).1
  exact ⟨concat_self_accepts_iff hwella w, union_self_accepts hwella hmade,
    union_accepts_of_accepts hwella hwellb w, concat_accepts_of_accepts hwella hwellb w⟩

def overlapping : Automaton := ⟨{⟨0⟩, ⟨1⟩}, ⟨1⟩, {⟨0⟩}, {.symbol 'b' ⟨1⟩ ⟨0⟩}⟩

theorem combine_accepts_shared_overlapping :
    reentered.validated = .ok reentered ∧ overlapping.validated = .ok overlapping ∧
    (∀ q ∈ reentered.states, q.number < 5) ∧
    (∃ c w', reentered.concat reentered ⟨5, #[]⟩ = .ok (c, w') ∧ ∀ text, c.accepts text = true ↔
      ∃ pieces : List (List Char), pieces ≠ [] ∧ pieces.flatten = text ∧
        ∀ u ∈ pieces, reentered.accepts u = true) ∧
    (∃ c w', reentered.union reentered ⟨5, #[]⟩ = .ok (c, w') ∧
      ∀ text, c.accepts text = reentered.accepts text) ∧
    (∃ c w', reentered.union overlapping ⟨5, #[]⟩ = .ok (c, w') ∧ ∀ text,
      reentered.accepts text = true ∨ overlapping.accepts text = true → c.accepts text = true) ∧
    ∃ c w', reentered.concat overlapping ⟨5, #[]⟩ = .ok (c, w') ∧ ∀ u v,
      reentered.accepts u = true → overlapping.accepts v = true → c.accepts (u ++ v) = true := by
  have hoverlapping : overlapping.validated = .ok overlapping := by decide
  exact ⟨validated_reentered, hoverlapping, made_reentered,
    combine_accepts_shared validated_reentered hoverlapping made_reentered⟩

-- A union of operands that share states accepts a text that neither of them accepts.
example :
    reentered.accepts ['a', 'b'] = false ∧ overlapping.accepts ['a', 'b'] = false ∧
      (unionFrom ⟨5⟩ reentered overlapping).accepts ['a', 'b'] = true := by
  refine ⟨?_, ?_, ?_⟩ <;> cbv

end Combinations

end LineSearch.Automaton
