import LineSearch.Proofs.Automaton.Languages

namespace LineSearch

open Automaton

/-- The automata are well-formed and without empty transitions, their states have been handed out,
and no two of them have a state in common. -/
structure Held (as : List Automaton) (w : Workshop) : Prop where
  wellFormed : ∀ a ∈ as, a.WellFormed
  epsilonFree : ∀ a ∈ as, a.isEpsilonFree = true
  made : ∀ a ∈ as, ∀ q ∈ a.states, q.number < w.next
  apart : as.Pairwise Apart

namespace Held

variable {as bs used rest : List Automaton} {a c : Automaton} {w w' : Workshop}

theorem nil (w : Workshop) : Held [] w :=
  ⟨by simp, by simp, by simp, .nil⟩

theorem perm (h : Held as w) (hp : as.Perm bs) : Held bs w where
  wellFormed a ha := h.wellFormed a (hp.mem_iff.mpr ha)
  epsilonFree a ha := h.epsilonFree a (hp.mem_iff.mpr ha)
  made a ha := h.made a (hp.mem_iff.mpr ha)
  apart := (hp.pairwise_iff Apart.symm).mp h.apart

theorem front_iff (used : List Automaton) {l r : List Automaton} :
    Held (l ++ (used ++ r) ++ rest) w ↔ Held (used ++ (l ++ r ++ rest)) w := by
  have hfront : (l ++ used).Perm (used ++ l) := List.perm_append_comm
  have hperm : (l ++ (used ++ r) ++ rest).Perm (used ++ (l ++ r ++ rest)) := by
    simpa using hfront.append_right (r ++ rest)
  exact ⟨fun h ↦ h.perm hperm, fun h ↦ h.perm hperm.symm⟩

theorem subperm (h : Held as w) (hp : bs.Subperm as) : Held bs w := by
  obtain ⟨cs, hperm, hsub⟩ := hp
  refine Held.perm ⟨?_, ?_, ?_, h.apart.sublist hsub⟩ hperm
  · exact fun a ha ↦ h.wellFormed a (hsub.subset ha)
  · exact fun a ha ↦ h.epsilonFree a (hsub.subset ha)
  · exact fun a ha ↦ h.made a (hsub.subset ha)

theorem not_mem_fresh (h : Held as w) (ha : a ∈ as) : (⟨w.next⟩ : State) ∉ a.states :=
  Automaton.fresh_not_mem (h.made a ha)

theorem replace (h : Held (used ++ rest) w) (hc : c.WellFormed) (hfree : c.isEpsilonFree = true)
    (hw : w.next ≤ w'.next)
    (hstates : ∀ q ∈ c.states, (∃ a ∈ used, q ∈ a.states) ∨
      w.next ≤ q.number ∧ q.number < w'.next) : Held (c :: rest) w' where
  wellFormed := by
    refine List.forall_mem_cons.mpr ⟨hc, fun a ha ↦ ?_⟩
    exact h.wellFormed a (List.mem_append_right used ha)
  epsilonFree := by
    refine List.forall_mem_cons.mpr ⟨hfree, fun a ha ↦ ?_⟩
    exact h.epsilonFree a (List.mem_append_right used ha)
  made := by
    refine List.forall_mem_cons.mpr ⟨fun q hq ↦ ?_, fun a ha q hq ↦ ?_⟩
    · rcases hstates q hq with ⟨a, ha, hqa⟩ | ⟨_, hlt⟩
      · exact (h.made a (List.mem_append_left rest ha) q hqa).trans_le hw
      · exact hlt
    · exact (h.made a (List.mem_append_right used ha) q hq).trans_le hw
  apart := by
    obtain ⟨_, hrest, hcross⟩ := List.pairwise_append.mp h.apart
    refine List.pairwise_cons.mpr ⟨fun b hb q hq hqb ↦ ?_, hrest⟩
    rcases hstates q hq with ⟨a, ha, hqa⟩ | ⟨hle, _⟩
    · exact hcross a ha b hb q hqa hqb
    · exact absurd (h.made b (List.mem_append_right used hb) q hqb) (Nat.not_lt.mpr hle)

end Held

/-- The action uses some automata up and makes one with the property, whatever other automata there
are. -/
def Makes (x : Build Automaton) (used : List Automaton) (P : Automaton → Prop) : Prop :=
  ∀ rest w, Held (used ++ rest) w →
    ∃ a w', x w = .ok (a, w') ∧ Held (a :: rest) w' ∧ P a

namespace Makes

variable {x : Build Automaton} {f : Automaton → Build Automaton} {used more : List Automaton}
  {P Q : Automaton → Prop}

theorem mono (h : Makes x used P) (hpq : ∀ a, P a → Q a) : Makes x used Q := by
  intro rest w hw
  obtain ⟨a, w', hx, hheld, ha⟩ := h rest w hw
  exact ⟨a, w', hx, hheld, hpq a ha⟩

theorem perm (h : Makes x used P) (hp : used.Perm more) : Makes x more P :=
  fun rest w hw ↦ h rest w (hw.perm (hp.symm.append_right rest))

theorem bind (hx : Makes x used P) (hf : ∀ a, P a → Makes (f a) (a :: more) Q) :
    Makes (x >>= f) (used ++ more) Q := by
  intro rest w hw
  rw [List.append_assoc] at hw
  obtain ⟨a, w', hx, hheld, ha⟩ := hx (more ++ rest) w hw
  obtain ⟨b, w'', hf, hheld', hb⟩ := hf a ha rest w' hheld
  exact ⟨b, w'', (Build.bind_eq hx).trans hf, hheld', hb⟩

theorem noted (h : Makes x used P) (e : Automaton → Event) :
    Makes (do let a ← x; Build.note (e a); pure a) used P := by
  intro rest w hw
  obtain ⟨a, w', hx, hheld, ha⟩ := h rest w hw
  exact ⟨a, { w' with events := w'.events.push (e a) }, Build.bind_eq hx,
    ⟨hheld.wellFormed, hheld.epsilonFree, hheld.made, hheld.apart⟩, ha⟩

end Makes

section Operators

variable {P : Automaton → Prop}

theorem makes_literal (c : Char)
    (h : ∀ start accept, start ≠ accept → P (literalBetween c start accept)) :
    Makes (literal c) [] P := by
  intro rest w hw
  refine ⟨_, _, literal_eq_ok c w, hw.replace (wellFormed_literalBetween c _ _)
    (isEpsilonFree_literalBetween c _ _) (Nat.le_add_right _ _) (fun q hq ↦ Or.inr ?_), h _ _ ?_⟩
  · unfold literalBetween at hq
    split at hq
    · obtain rfl := mem_singleton_iff.mp hq
      simp_all
    · rcases mem_insert_iff.mp hq with rfl | hq
      · simp_all
      · obtain rfl := mem_singleton_iff.mp hq
        simp_all
  · simp

theorem makes_anySymbol (h : ∀ start accept, start ≠ accept → P (anySymbolBetween start accept)) :
    Makes anySymbol [] P := by
  intro rest w hw
  refine ⟨_, _, anySymbol_eq_ok w, hw.replace (wellFormed_anySymbolBetween _ _)
    (isEpsilonFree_anySymbolBetween _ _) (Nat.le_add_right _ _) (fun q hq ↦ Or.inr ?_), h _ _ ?_⟩
  · rcases mem_insert_iff.mp hq with rfl | hq
    · simp
    · obtain rfl := mem_singleton_iff.mp hq
      simp
  · simp

theorem makes_union {a b : Automaton}
    (h : ∀ head, a.WellFormed → b.WellFormed → Apart a b → head ∉ a.states → head ∉ b.states →
      P (unionFrom head a b)) :
    Makes (a.union b) [a, b] P := by
  intro rest w hw
  have ha : a ∈ [a, b] ++ rest := by simp
  have hb : b ∈ [a, b] ++ rest := by simp
  have hwa := hw.wellFormed a ha
  have hwb := hw.wellFormed b hb
  have hab : Apart a b := List.rel_of_pairwise_cons hw.apart List.mem_cons_self
  refine ⟨_, _, union_eq_ok hwa hwb w, hw.replace (wellFormed_unionFrom hwa hwb) ?_
    (Nat.le_succ _) (fun q hq ↦ ?_),
    h _ hwa hwb hab (hw.not_mem_fresh ha) (hw.not_mem_fresh hb)⟩
  · rw [isEpsilonFree_unionFrom, hw.epsilonFree a ha, hw.epsilonFree b hb]
    rfl
  · rcases mem_states_unionFrom.mp hq with rfl | hq | hq
    · exact Or.inr ⟨Nat.le_refl _, Nat.lt_succ_self _⟩
    · exact Or.inl ⟨a, by simp, hq⟩
    · exact Or.inl ⟨b, by simp, hq⟩

theorem makes_concat {a b : Automaton}
    (h : a.WellFormed → b.WellFormed → Apart a b → P (concatOf a b)) :
    Makes (a.concat b) [a, b] P := by
  intro rest w hw
  have ha : a ∈ [a, b] ++ rest := by simp
  have hb : b ∈ [a, b] ++ rest := by simp
  have hwa := hw.wellFormed a ha
  have hwb := hw.wellFormed b hb
  have hab : Apart a b := List.rel_of_pairwise_cons hw.apart List.mem_cons_self
  refine ⟨_, _, concat_eq_ok hwa hwb w, hw.replace (wellFormed_concatOf hwa hwb) ?_
    (Nat.le_refl _) (fun q hq ↦ Or.inl ?_), h hwa hwb hab⟩
  · rw [isEpsilonFree_concatOf, hw.epsilonFree a ha, hw.epsilonFree b hb]
    rfl
  · rcases mem_states_concatOf.mp hq with hq | hq
    · exact ⟨a, by simp, hq⟩
    · exact ⟨b, by simp, hq⟩

theorem makes_star {a : Automaton}
    (h : ∀ head, a.WellFormed → head ∉ a.states → P (starFrom head a)) :
    Makes a.star [a] P := by
  intro rest w hw
  have ha : a ∈ [a] ++ rest := by simp
  have hwa := hw.wellFormed a ha
  refine ⟨_, _, star_eq_ok hwa w, hw.replace (wellFormed_starFrom hwa) ?_ (Nat.le_succ _)
    (fun q hq ↦ ?_), h _ hwa (hw.not_mem_fresh ha)⟩
  · rw [isEpsilonFree_starFrom, hw.epsilonFree a ha]
  · rcases mem_states_starFrom.mp hq with rfl | hq
    · exact Or.inr ⟨Nat.le_refl _, Nat.lt_succ_self _⟩
    · exact Or.inl ⟨a, by simp, hq⟩

theorem makes_somewhere_of {M : Type} {D : M → Automaton → Prop} (op : M → M → M) (pad x : M)
    (hpad : Makes (anySymbol >>= star) [] (D pad))
    (hop : ∀ a b x y, D x a → D y b → Makes (a.concat b) [a, b] (D (op x y)))
    {a : Automaton} (ha : D x a) : Makes a.somewhere [a] (D (op (op pad x) pad)) := by
  have hopened (before : Automaton) (hbefore : D pad before) :
      Makes (concat before a) [before, a] (D (op pad x)) :=
    hop before a pad x hbefore ha
  have hclosed (opened : Automaton) (ho : D (op pad x) opened) :
      Makes ((anySymbol >>= star) >>= fun after ↦ concat opened after) [opened]
        (D (op (op pad x) pad)) := by
    have hafter (after : Automaton) (hafter : D pad after) :
        Makes (concat opened after) [after, opened] (D (op (op pad x) pad)) :=
      (hop opened after _ pad ho hafter).perm (List.Perm.swap after opened [])
    exact hpad.bind hafter
  have hall : Makes (((anySymbol >>= star) >>= fun before ↦ concat before a) >>=
      fun opened ↦ (anySymbol >>= star) >>= fun after ↦ concat opened after) [a]
      (D (op (op pad x) pad)) :=
    (hpad.bind hopened).bind hclosed
  simpa only [somewhere, bind_assoc] using hall

end Operators

end LineSearch
