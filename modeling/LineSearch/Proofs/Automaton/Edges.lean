import LineSearch.Proofs.Automaton.Languages

namespace LineSearch.Automaton

open Relation (TransGen transGen_eq_self)

section Seeds

variable {a b : Automaton} {head p q : State}

theorem isTrans_unionSeeds (ha : a.WellFormed) (hb : b.WellFormed) (hha : head ∉ a.states)
    (hhb : head ∉ b.states) : IsTrans State (moves (unionSeeds head a b)).Leads := by
  -- no seed begins where one ends
  refine ⟨fun p q r hpq hqr ↦ ?_⟩
  obtain ⟨rfl, hq⟩ := leads_unionSeeds.mp hpq
  obtain ⟨rfl, _⟩ := leads_unionSeeds.mp hqr
  rcases hq with rfl | rfl
  · exact absurd ha.start_mem hha
  · exact absurd hb.start_mem hhb

theorem isTrans_concatSeeds (ha : a.WellFormed) (hb : b.WellFormed) (hab : Apart a b) :
    IsTrans State (moves (concatSeeds a b)).Leads := by
  refine ⟨fun p q r hpq hqr ↦ ?_⟩
  obtain ⟨_, rfl⟩ := leads_concatSeeds.mp hpq
  obtain ⟨hfinal, _⟩ := leads_concatSeeds.mp hqr
  exact absurd hb.start_mem (hab _ (ha.mem_of_final _ hfinal))

/-- A seed may begin where one ends, but it ends there as well. -/
theorem isTrans_starSeeds : IsTrans State (moves (starSeeds head a)).Leads := by
  refine ⟨fun p q r hpq hqr ↦ ?_⟩
  obtain ⟨hp, _⟩ := leads_starSeeds.mp hpq
  obtain ⟨_, hr⟩ := leads_starSeeds.mp hqr
  exact leads_starSeeds.mpr ⟨hp, hr⟩

theorem transGen_unionSeeds (ha : a.WellFormed) (hb : b.WellFormed) (hha : head ∉ a.states)
    (hhb : head ∉ b.states) :
    TransGen (moves (unionSeeds head a b)).Leads p q ↔ p = head ∧ (q = a.start ∨ q = b.start) := by
  have htrans := isTrans_unionSeeds ha hb hha hhb
  rw [transGen_eq_self, leads_unionSeeds]

theorem transGen_concatSeeds (ha : a.WellFormed) (hb : b.WellFormed) (hab : Apart a b) :
    TransGen (moves (concatSeeds a b)).Leads p q ↔ p ∈ a.finals ∧ q = b.start := by
  have htrans := isTrans_concatSeeds ha hb hab
  rw [transGen_eq_self, leads_concatSeeds]

theorem transGen_starSeeds :
    TransGen (moves (starSeeds head a)).Leads p q ↔ (p = head ∨ p ∈ a.finals) ∧ q = a.start := by
  have htrans : IsTrans State (moves (starSeeds head a)).Leads := isTrans_starSeeds
  rw [transGen_eq_self, leads_starSeeds]

end Seeds

section Members

variable {a b : Automaton} {head q : State} {t : Transition}

theorem mem_transitions_unionFrom (ha : a.WellFormed) (hb : b.WellFormed) (hab : Apart a b)
    (hha : head ∉ a.states) (hhb : head ∉ b.states) :
    t ∈ (unionFrom head a b).transitions ↔ t ∈ a.transitions ∨ t ∈ b.transitions ∨
      t.source = head ∧ ({ t with source := a.start } ∈ a.transitions ∨
        { t with source := b.start } ∈ b.transitions) := by
  have hleft (hs : ({ t with source := a.start } : Transition) ∈ a.transitions ∪ b.transitions) :
      { t with source := a.start } ∈ a.transitions :=
    mem_left_of_source hb hab hs ha.start_mem
  have hright (hs : ({ t with source := b.start } : Transition) ∈ a.transitions ∪ b.transitions) :
      { t with source := b.start } ∈ b.transitions :=
    mem_right_of_source ha hab hs hb.start_mem
  simp only [unionFrom, mem_transitions_eliminated, transGen_unionSeeds ha hb hha hhb]
  constructor
  · rintro (h | ⟨_, ⟨hs, rfl | rfl⟩, h⟩)
    · exact (Std.ExtTreeSet.mem_union_iff.mp h).imp_right Or.inl
    · exact Or.inr (Or.inr ⟨hs, Or.inl (hleft h)⟩)
    · exact Or.inr (Or.inr ⟨hs, Or.inr (hright h)⟩)
  · rintro (h | h | ⟨hs, h | h⟩)
    · exact Or.inl (Std.ExtTreeSet.mem_union_iff.mpr (Or.inl h))
    · exact Or.inl (Std.ExtTreeSet.mem_union_iff.mpr (Or.inr h))
    · exact Or.inr ⟨_, ⟨hs, Or.inl rfl⟩, Std.ExtTreeSet.mem_union_iff.mpr (Or.inl h)⟩
    · exact Or.inr ⟨_, ⟨hs, Or.inr rfl⟩, Std.ExtTreeSet.mem_union_iff.mpr (Or.inr h)⟩

theorem mem_transitions_concatOf (ha : a.WellFormed) (hb : b.WellFormed) (hab : Apart a b) :
    t ∈ (concatOf a b).transitions ↔ t ∈ a.transitions ∨ t ∈ b.transitions ∨
      t.source ∈ a.finals ∧ { t with source := b.start } ∈ b.transitions := by
  simp only [concatOf, mem_transitions_eliminated, transGen_concatSeeds ha hb hab]
  constructor
  · rintro (h | ⟨_, ⟨hs, rfl⟩, h⟩)
    · exact (Std.ExtTreeSet.mem_union_iff.mp h).imp_right Or.inl
    · exact Or.inr (Or.inr ⟨hs, mem_right_of_source ha hab h hb.start_mem⟩)
  · rintro (h | h | ⟨hs, h⟩)
    · exact Or.inl (Std.ExtTreeSet.mem_union_iff.mpr (Or.inl h))
    · exact Or.inl (Std.ExtTreeSet.mem_union_iff.mpr (Or.inr h))
    · exact Or.inr ⟨_, ⟨hs, rfl⟩, Std.ExtTreeSet.mem_union_iff.mpr (Or.inr h)⟩

theorem mem_transitions_starFrom :
    t ∈ (starFrom head a).transitions ↔ t ∈ a.transitions ∨
      (t.source = head ∨ t.source ∈ a.finals) ∧ { t with source := a.start } ∈ a.transitions := by
  simp only [starFrom, mem_transitions_eliminated, transGen_starSeeds]
  refine or_congr_right ⟨?_, fun h ↦ ⟨_, ⟨h.1, rfl⟩, h.2⟩⟩
  rintro ⟨_, ⟨hs, rfl⟩, h⟩
  exact ⟨hs, h⟩

theorem mem_finals_unionFrom (ha : a.WellFormed) (hb : b.WellFormed) (hab : Apart a b)
    (hha : head ∉ a.states) (hhb : head ∉ b.states) :
    q ∈ (unionFrom head a b).finals ↔ q ∈ a.finals ∨ q ∈ b.finals ∨
      q = head ∧ (a.start ∈ a.finals ∨ b.start ∈ b.finals) := by
  have hleft (h : a.start ∈ b.finals) : False := hab _ ha.start_mem (hb.mem_of_final _ h)
  have hright (h : b.start ∈ a.finals) : False := hab _ (ha.mem_of_final _ h) hb.start_mem
  simp only [unionFrom, mem_finals_eliminated, transGen_unionSeeds ha hb hha hhb, beside,
    Std.ExtTreeSet.mem_union_iff]
  constructor
  · rintro ((h | h) | ⟨_, h | h, hq, rfl | rfl⟩)
    · exact Or.inl h
    · exact Or.inr (Or.inl h)
    · exact Or.inr (Or.inr ⟨hq, Or.inl h⟩)
    · exact (hright h).elim
    · exact (hleft h).elim
    · exact Or.inr (Or.inr ⟨hq, Or.inr h⟩)
  · rintro (h | h | ⟨hq, h | h⟩)
    · exact Or.inl (Or.inl h)
    · exact Or.inl (Or.inr h)
    · exact Or.inr ⟨_, Or.inl h, hq, Or.inl rfl⟩
    · exact Or.inr ⟨_, Or.inr h, hq, Or.inr rfl⟩

theorem mem_finals_concatOf (ha : a.WellFormed) (hb : b.WellFormed) (hab : Apart a b) :
    q ∈ (concatOf a b).finals ↔ q ∈ b.finals ∨ q ∈ a.finals ∧ b.start ∈ b.finals := by
  simp only [concatOf, mem_finals_eliminated, transGen_concatSeeds ha hb hab, before]
  refine or_congr_right ⟨?_, fun h ↦ ⟨_, h.2, h.1, rfl⟩⟩
  rintro ⟨_, h, hq, rfl⟩
  exact ⟨hq, h⟩

theorem mem_finals_starFrom : q ∈ (starFrom head a).finals ↔ q = head ∨ q ∈ a.finals := by
  simp only [starFrom, mem_finals_eliminated, transGen_starSeeds, mem_finals_under]
  refine ⟨?_, Or.inl⟩
  rintro (h | ⟨_, _, h, _⟩)
  · exact h
  · exact h

end Members

end LineSearch.Automaton
