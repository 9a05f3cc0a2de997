import LineSearch.Proofs.Automaton.Laws
import LineSearch.Proofs.Rounds

namespace LineSearch.Automaton

def nothingAt (start : State) : Automaton := ⟨{start}, start, ∅, ∅⟩

theorem nothing_eq_ok (w : Workshop) :
    nothing w = .ok (nothingAt ⟨w.next⟩, { w with next := w.next + 1 }) := by
  have hwell : (nothingAt ⟨w.next⟩).WellFormed := by
    constructor <;> simp [nothingAt]
  rw [nothing, Build.fresh_bind]
  exact Build.lift_eq (validated_of_wellFormed hwell)

theorem language_nothingAt (start : State) : (nothingAt start).language = 0 := by
  ext text
  constructor
  · intro h
    obtain ⟨q, hq, _⟩ := h
    exact absurd hq Std.ExtTreeSet.not_mem_empty
  · intro h
    exact absurd h (Language.notMem_zero text)

section Texts

variable {as : List Automaton} {text : List Char}

theorem mem_prod_language_iff : text ∈ (as.map language).prod ↔
    ∃ pieces : List (List Char), pieces.flatten = text ∧
      List.Forall₂ (fun a u ↦ a.accepts u = true) as pieces := by
  induction as generalizing text with
  | nil =>
    rw [List.map_nil, List.prod_nil, Language.mem_one]
    constructor
    · intro h
      exact ⟨[], h.symm, .nil⟩
    · intro h
      obtain ⟨pieces, rfl, hpieces⟩ := h
      cases hpieces
      rfl
  | cons a as ih =>
    rw [List.map_cons, List.prod_cons, Language.mem_mul]
    constructor
    · intro h
      obtain ⟨u, hu, v, hv, rfl⟩ := h
      obtain ⟨pieces, rfl, hpieces⟩ := ih.mp hv
      exact ⟨u :: pieces, rfl, .cons (mem_language_iff_accepts.mp hu) hpieces⟩
    · intro h
      obtain ⟨pieces, rfl, hpieces⟩ := h
      cases hpieces with
      | cons hu hpieces =>
        exact ⟨_, mem_language_iff_accepts.mpr hu, _, ih.mpr ⟨_, rfl, hpieces⟩, rfl⟩

theorem mem_sum_language_iff :
    text ∈ (as.map language).sum ↔ ∃ a ∈ as, a.accepts text = true := by
  induction as with
  | nil => simp [Language.notMem_zero]
  | cons a as ih =>
    rw [List.map_cons, List.sum_cons, Language.mem_add, ih, mem_language_iff_accepts,
      List.exists_mem_cons_iff]

end Texts

structure Separate (as : List Automaton) : Prop where
  wellFormed : ∀ a ∈ as, a.WellFormed
  apart : as.Pairwise Apart

section Merging

variable {l r as : List Automaton} {a b c d : Automaton} {w : Workshop}

theorem mem_of_mem_outside (h : d ∈ l ++ r) : d ∈ l ++ a :: b :: r := by
  simp only [List.mem_append, List.mem_cons] at h ⊢
  tauto

theorem eq_or_mem_of_mem_merged (h : d ∈ l ++ c :: r) : d = c ∨ d ∈ l ++ a :: b :: r := by
  rcases List.mem_cons.mp (List.perm_middle.mem_iff.mp h) with rfl | h
  · exact Or.inl rfl
  · exact Or.inr (mem_of_mem_outside h)

theorem Separate.neighbours (h : Separate (l ++ a :: b :: r)) :
    a.WellFormed ∧ b.WellFormed ∧ Apart a b := by
  have hab := h.apart.sublist (List.sublist_append_right l _)
  exact ⟨h.wellFormed a (by simp), h.wellFormed b (by simp),
    List.rel_of_pairwise_cons hab List.mem_cons_self⟩

/-- An automaton takes the place of two if its states are theirs or new. -/
theorem Separate.replace (h : Separate (l ++ a :: b :: r)) (hc : c.WellFormed)
    (hstates : ∀ q ∈ c.states, q ∈ a.states ∨ q ∈ b.states ∨ ∀ d ∈ l ++ r, q ∉ d.states) :
    Separate (l ++ c :: r) := by
  have hperm : (l ++ a :: b :: r).Perm (a :: b :: (l ++ r)) :=
    List.perm_middle.trans (List.perm_middle.cons a)
  obtain ⟨ha, hrest⟩ := List.pairwise_cons.mp ((hperm.pairwise_iff Apart.symm).mp h.apart)
  obtain ⟨hb, hothers⟩ := List.pairwise_cons.mp hrest
  refine ⟨fun d hd ↦ ?_, (List.perm_middle.pairwise_iff Apart.symm).mpr ?_⟩
  · rcases eq_or_mem_of_mem_merged hd with rfl | hd
    · exact hc
    · exact h.wellFormed d hd
  · refine List.pairwise_cons.mpr ⟨fun d hd q hq hqd ↦ ?_, hothers⟩
    rcases hstates q hq with hqa | hqb | hnew
    · exact ha d (List.mem_cons_of_mem b hd) q hqa hqd
    · exact hb d hd q hqb hqd
    · exact hnew d hd hqd

theorem mergeRounds_concat (h : Separate as) (w : Workshop) :
    ∃ b w', mergeRounds concat (literal Alphabet.emptySign) as w = .ok (b, w') ∧
      b.language = (as.map language).prod := by
  by_cases hne : as = []
  · subst hne
    rw [mergeRounds]
    exact ⟨_, _, literal_eq_ok _ w, language_literalBetween_sign _ _⟩
  · have hcall (l : List Automaton) (a b : Automaton) (r : List Automaton) (w : Workshop)
        (hl : Separate (l ++ a :: b :: r) ∧
          ((l ++ a :: b :: r).map language).prod = (as.map language).prod) :
        ∃ c w', a.concat b w = .ok (c, w') ∧ Separate (l ++ c :: r) ∧
          ((l ++ c :: r).map language).prod = (as.map language).prod := by
      obtain ⟨hsep, hprod⟩ := hl
      obtain ⟨ha, hb, hab⟩ := hsep.neighbours
      refine ⟨_, _, concat_eq_ok ha hb w, hsep.replace (wellFormed_concatOf ha hb) ?_, ?_⟩
      · exact fun q hq ↦ (mem_states_concatOf.mp hq).imp_right Or.inl
      · rw [← hprod]
        simp only [List.map_append, List.map_cons, List.prod_append, List.prod_cons,
          language_concatOf ha hb hab, mul_assoc]
    obtain ⟨b, w', hb, _, hprod⟩ := mergeRounds_keeps
      (P := fun bs _ ↦ Separate bs ∧ (bs.map language).prod = (as.map language).prod)
      hcall (literal Alphabet.emptySign) hne ⟨h, rfl⟩
    exact ⟨b, w', hb, by simpa using hprod⟩

theorem mergeRounds_union (h : Separate as) (hmade : ∀ a ∈ as, ∀ q ∈ a.states, q.number < w.next) :
    ∃ b w', mergeRounds union nothing as w = .ok (b, w') ∧
      b.language = (as.map language).sum := by
  by_cases hne : as = []
  · subst hne
    rw [mergeRounds]
    exact ⟨_, _, nothing_eq_ok w, language_nothingAt _⟩
  · have hcall (l : List Automaton) (a b : Automaton) (r : List Automaton) (w : Workshop)
        (hl : Separate (l ++ a :: b :: r) ∧
          (∀ d ∈ l ++ a :: b :: r, ∀ q ∈ d.states, q.number < w.next) ∧
          ((l ++ a :: b :: r).map language).sum = (as.map language).sum) :
        ∃ c w', a.union b w = .ok (c, w') ∧ Separate (l ++ c :: r) ∧
          (∀ d ∈ l ++ c :: r, ∀ q ∈ d.states, q.number < w'.next) ∧
          ((l ++ c :: r).map language).sum = (as.map language).sum := by
      obtain ⟨hsep, hmade, hsum⟩ := hl
      obtain ⟨ha, hb, hab⟩ := hsep.neighbours
      have hmadea := hmade a (by simp)
      have hmadeb := hmade b (by simp)
      refine ⟨_, _, union_eq_ok ha hb w, hsep.replace (wellFormed_unionFrom ha hb) ?_, ?_, ?_⟩
      · intro q hq
        rcases mem_states_unionFrom.mp hq with rfl | hq | hq
        · exact Or.inr (Or.inr (fun d hd ↦ fresh_not_mem (hmade d (mem_of_mem_outside hd))))
        · exact Or.inl hq
        · exact Or.inr (Or.inl hq)
      · intro d hd q hq
        rcases eq_or_mem_of_mem_merged hd with rfl | hd
        · rcases mem_states_unionFrom.mp hq with rfl | hq | hq
          · exact Nat.lt_succ_self _
          · exact Nat.lt_succ_of_lt (hmadea q hq)
          · exact Nat.lt_succ_of_lt (hmadeb q hq)
        · exact Nat.lt_succ_of_lt (hmade d hd q hq)
      · rw [← hsum]
        simp only [List.map_append, List.map_cons, List.sum_append, List.sum_cons,
          language_unionFrom ha hb hab (fresh_not_mem hmadea) (fresh_not_mem hmadeb), add_assoc]
    obtain ⟨b, w', hb, _, _, hsum⟩ := mergeRounds_keeps
      (P := fun bs w ↦ Separate bs ∧ (∀ d ∈ bs, ∀ q ∈ d.states, q.number < w.next) ∧
        (bs.map language).sum = (as.map language).sum)
      hcall nothing hne ⟨h, hmade, rfl⟩
    exact ⟨b, w', hb, by simpa using hsum⟩

/-- Merging automata without common states succeeds, keeps all of them and their order, and makes
one call less than there are automata; with an operation that may fail, the error is that of the
first call that fails in round order. -/
theorem mergeRounds_joins_all (as : List Automaton) (hvalid : ∀ a ∈ as, a.validated = .ok a)
    (hapart : as.Pairwise Apart) (w : Workshop) :
    (∃ b w', mergeRounds concat (literal Alphabet.emptySign) as w = .ok (b, w') ∧
      ∀ text, b.accepts text = true ↔ ∃ pieces : List (List Char), pieces.flatten = text ∧
        List.Forall₂ (fun a u ↦ a.accepts u = true) as pieces) ∧
    ((∀ a ∈ as, ∀ q ∈ a.states, q.number < w.next) →
      ∃ b w', mergeRounds union nothing as w = .ok (b, w') ∧
        ∀ text, b.accepts text = true ↔ ∃ a ∈ as, a.accepts text = true) ∧
    ∀ {σ ε : Type} (combine : Automaton → Automaton → StateT σ (Except ε) Automaton)
      (empty : StateT σ (Except ε) Automaton),
      mergeRounds (fun a b ↦ tallied 1 (combine a b)) (tallied 0 empty) as =
        tallied (as.length - 1) (mergeRounds combine empty as) ∧
      ∀ s e, mergeRounds combine empty as s = .error e ↔
        as = [] ∧ empty s = .error e ∨
        ∃ closed gap later l a i b r s', roundOrder as.length = closed ++ gap :: later ∧
          Closing combine closed as.zipIdx s (.ok (l ++ (a, i) :: (b, gap) :: r, s')) ∧
          combine a b s' = .error e := by
  have hsep : Separate as := ⟨fun a ha ↦ (wellFormed_of_validated (hvalid a ha)).1, hapart⟩
  refine ⟨?_, fun hmade ↦ ?_, fun combine empty ↦
    ⟨mergeRounds_tallied combine empty as, fun s e ↦ mergeRounds_eq_error_iff⟩⟩
  · obtain ⟨b, w', hb, hlanguage⟩ := mergeRounds_concat hsep w
    refine ⟨b, w', hb, fun text ↦ ?_⟩
    rw [← mem_language_iff_accepts, hlanguage, mem_prod_language_iff]
  · obtain ⟨b, w', hb, hlanguage⟩ := mergeRounds_union hsep hmade
    refine ⟨b, w', hb, fun text ↦ ?_⟩
    rw [← mem_language_iff_accepts, hlanguage, mem_sum_language_iff]

def trio : List Automaton := [reentered, alternating, literalBetween 'c' ⟨5⟩ ⟨6⟩]

theorem mergeRounds_joins_all_trio :
    (∀ a ∈ trio, a.validated = .ok a) ∧ trio.Pairwise Apart ∧
    (∀ a ∈ trio, ∀ q ∈ a.states, q.number < 7) ∧
    (∃ b w', mergeRounds concat (literal Alphabet.emptySign) trio ⟨7, #[]⟩ = .ok (b, w') ∧
      ∀ text, b.accepts text = true ↔ ∃ pieces : List (List Char), pieces.flatten = text ∧
        List.Forall₂ (fun a u ↦ a.accepts u = true) trio pieces) ∧
    (∃ b w', mergeRounds union nothing trio ⟨7, #[]⟩ = .ok (b, w') ∧
      ∀ text, b.accepts text = true ↔ ∃ a ∈ trio, a.accepts text = true) ∧
    mergeRounds (fun a b ↦ tallied 1 (union a b)) (tallied 0 nothing) trio =
      tallied 2 (mergeRounds union nothing trio) := by
  have hvalid : ∀ a ∈ trio, a.validated = .ok a := by
    simp [trio, validated_reentered, validated_alternating,
      validated_of_wellFormed (wellFormed_literalBetween 'c' ⟨5⟩ ⟨6⟩)]
  have hapart : trio.Pairwise Apart := by
    simp [trio, Apart, reentered, alternating, literalBetween, Alphabet.emptySign, or_imp,
      forall_and]
  have hmade : ∀ a ∈ trio, ∀ q ∈ a.states, q.number < 7 := by
    simp [trio, reentered, alternating, literalBetween, Alphabet.emptySign, or_imp, forall_and]
  have h := mergeRounds_joins_all trio hvalid hapart ⟨7, #[]⟩
  exact ⟨hvalid, hapart, hmade, h.1, h.2.1 hmade, (h.2.2 union nothing).1⟩

end Merging

end LineSearch.Automaton
