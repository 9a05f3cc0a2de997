import LineSearch.Proofs.Automaton.Combinators

namespace LineSearch.Automaton

open scoped Computability

def Apart (a b : Automaton) : Prop := ∀ q ∈ a.states, q ∉ b.states

theorem Apart.symm {a b : Automaton} (h : Apart a b) : Apart b a := fun q hb ha ↦ h q ha hb

theorem apart_of_le_of_lt {a b : Automaton} {k : Nat} (hb : ∀ q ∈ b.states, k ≤ q.number)
    (ha : ∀ q ∈ a.states, q.number < k) : Apart b a := by
  intro q hqb hqa
  have hle := hb q hqb
  have hlt := ha q hqa
  omega

section Confinement

variable {a b : Automaton} {head p q : State} {t : Transition} {text : List Char}
  {ts : Transitions} {hops : State → State → Prop}

theorem mem_left_of_source (hb : b.WellFormed) (hab : Apart a b)
    (ht : t ∈ a.transitions ∪ b.transitions) (hs : t.source ∈ a.states) : t ∈ a.transitions :=
  (Std.ExtTreeSet.mem_union_iff.mp ht).resolve_right (fun ht ↦ hab _ hs (hb.joins t ht).1)

theorem mem_right_of_source (ha : a.WellFormed) (hab : Apart a b)
    (ht : t ∈ a.transitions ∪ b.transitions) (hs : t.source ∈ b.states) : t ∈ b.transitions :=
  (Std.ExtTreeSet.mem_union_iff.mp ht).resolve_left (fun ht ↦ hab _ (ha.joins t ht).1 hs)

/-- A run that no transition and no hop takes out of an automaton is a path of the automaton. -/
theorem mem_languageFrom_of_run (ha : a.WellFormed)
    (hts : ∀ t ∈ ts, t.source ∈ a.states → t ∈ a.transitions)
    (hhops : ∀ p q, hops p q → p ∉ a.states)
    (h : Run ts hops p text q) (hp : p ∈ a.states) (hq : q ∈ a.states → q ∈ a.finals) :
    text ∈ a.languageFrom p := by
  induction h with
  | nil p => exact nil_mem_languageFrom (hq hp)
  | hop hh _ _ => exact absurd hp (hhops _ _ hh)
  | read hc _ ih =>
    have hc' := hts _ hc hp
    exact cons_mem_languageFrom hc' (ih (ha.joins _ hc').2 hq)

end Confinement

def singleSymbols : Language Char := {text | ∃ c, Alphabet.isSupported c = true ∧ text = [c]}

section Laws

variable {a b : Automaton} {head p q : State} {text : List Char} {hops : State → State → Prop}

theorem mem_language_of_arrows {start accept : State} {P : Char → Prop} (h : start ≠ accept)
    (hstart : a.start = start) (hfinals : ∀ q, q ∈ a.finals ↔ q = accept)
    (hts : ∀ t, t ∈ a.transitions ↔ ∃ c, P c ∧ t = .symbol c start accept) :
    text ∈ a.language ↔ ∃ c, P c ∧ text = [c] := by
  rw [language, hstart, mem_languageFrom]
  constructor
  · intro ht
    obtain ⟨q, hq, ht⟩ := ht
    obtain rfl := (hfinals q).mp hq
    cases ht with
    | nil => exact absurd rfl h
    | cons hd ht =>
      obtain ⟨c, hc, hd⟩ := (hts _).mp hd
      obtain ⟨rfl, rfl⟩ := (by simpa [Transition.symbol] using hd : _ ∧ _)
      cases ht with
      | nil => exact ⟨_, hc, rfl⟩
      | cons he _ =>
        obtain ⟨_, _, he⟩ := (hts _).mp he
        exact absurd (congrArg Transition.source he).symm h
  · intro ht
    obtain ⟨c, hc, rfl⟩ := ht
    exact ⟨accept, (hfinals accept).mpr rfl, .cons ((hts _).mpr ⟨c, hc, rfl⟩) (.nil accept)⟩

theorem language_literalBetween_sign (start accept : State) :
    (literalBetween Alphabet.emptySign start accept).language = 1 := by
  ext text
  rw [literalBetween, if_pos rfl, Language.mem_one]
  constructor
  · intro ht
    obtain ⟨q, hq, ht⟩ := ht
    cases ht with
    | nil => rfl
    | cons hc _ => exact absurd hc Std.ExtTreeSet.not_mem_empty
  · intro ht
    rw [ht]
    exact nil_mem_languageFrom (by simp)

theorem language_literalBetween {c : Char} {start accept : State} (h : start ≠ accept)
    (hc : c ≠ Alphabet.emptySign) :
    (literalBetween c start accept).language = ({[c]} : Language Char) := by
  ext text
  rw [literalBetween, if_neg hc,
    mem_language_of_arrows h rfl (P := (· = c)) (fun q ↦ mem_singleton_iff) (fun t ↦ ?_)]
  · simp only [exists_eq_left]
    rfl
  · simp only [mem_singleton_iff, exists_eq_left]

theorem language_anySymbolBetween {start accept : State} (h : start ≠ accept) :
    (anySymbolBetween start accept).language = singleSymbols := by
  ext text
  refine mem_language_of_arrows h rfl (fun q ↦ mem_singleton_iff) (fun t ↦ ?_)
  simp only [anySymbolBetween, Std.ExtTreeSet.mem_ofList, List.contains_iff_mem, List.mem_map,
    Alphabet.mem_symbols, @eq_comm _ t]

theorem mem_language_unionFrom_of_mem_add (h : text ∈ a.language + b.language) :
    text ∈ (unionFrom head a b).language := by
  apply mem_language_eliminated.mpr
  rcases h with h | h
  · obtain ⟨q, hq, h⟩ := h
    refine ⟨q, Std.ExtTreeSet.mem_union_iff.mpr (Or.inl hq), .hop ?_ (.of_path (h.mono ?_))⟩
    · exact leads_unionSeeds.mpr ⟨rfl, Or.inl rfl⟩
    · exact fun t ht ↦ Std.ExtTreeSet.mem_union_iff.mpr (Or.inl ht)
  · obtain ⟨q, hq, h⟩ := h
    refine ⟨q, Std.ExtTreeSet.mem_union_iff.mpr (Or.inr hq), .hop ?_ (.of_path (h.mono ?_))⟩
    · exact leads_unionSeeds.mpr ⟨rfl, Or.inr rfl⟩
    · exact fun t ht ↦ Std.ExtTreeSet.mem_union_iff.mpr (Or.inr ht)

theorem language_unionFrom (ha : a.WellFormed) (hb : b.WellFormed) (hab : Apart a b)
    (hha : head ∉ a.states) (hhb : head ∉ b.states) :
    (unionFrom head a b).language = a.language + b.language := by
  have hhead (p q : State) (hh : (moves (unionSeeds head a b)).Leads p q) : p = head :=
    (leads_unionSeeds.mp hh).1
  refine le_antisymm (fun text h ↦ ?_) (fun _ ↦ mem_language_unionFrom_of_mem_add)
  obtain ⟨q, hq, h⟩ := mem_language_eliminated.mp h
  cases h with
  | nil =>
    rcases Std.ExtTreeSet.mem_union_iff.mp hq with hq | hq
    · exact absurd (ha.mem_of_final _ hq) hha
    · exact absurd (hb.mem_of_final _ hq) hhb
  | hop hh h =>
    rcases (leads_unionSeeds.mp hh).2 with rfl | rfl
    · refine Or.inl (mem_languageFrom_of_run ha (fun t ↦ mem_left_of_source hb hab)
        (fun p q hh ↦ hhead p q hh ▸ hha) h ha.start_mem (fun hqa ↦ ?_))
      exact (Std.ExtTreeSet.mem_union_iff.mp hq).resolve_right
        (fun hq ↦ hab q hqa (hb.mem_of_final q hq))
    · refine Or.inr (mem_languageFrom_of_run hb (fun t ↦ mem_right_of_source ha hab)
        (fun p q hh ↦ hhead p q hh ▸ hhb) h hb.start_mem (fun hqb ↦ ?_))
      exact (Std.ExtTreeSet.mem_union_iff.mp hq).resolve_left
        (fun hq ↦ hab q (ha.mem_of_final q hq) hqb)
  | read hc _ =>
    rcases Std.ExtTreeSet.mem_union_iff.mp hc with hc | hc
    · exact absurd (ha.joins _ hc).1 hha
    · exact absurd (hb.joins _ hc).1 hhb

theorem mem_mul_of_run_before (ha : a.WellFormed) (hb : b.WellFormed) (hab : Apart a b)
    (h : Run (before a b).transitions (moves (concatSeeds a b)).Leads p text q)
    (hp : p ∈ a.states) (hq : q ∈ b.finals) : text ∈ a.languageFrom p * b.language := by
  induction h with
  | nil p => exact absurd (hb.mem_of_final p hq) (hab p hp)
  | hop hh h _ =>
    obtain ⟨hfinal, rfl⟩ := leads_concatSeeds.mp hh
    have htext := mem_languageFrom_of_run hb (fun t ↦ mem_right_of_source ha hab)
      (fun p q hh hpb ↦ hab p (ha.mem_of_final p (leads_concatSeeds.mp hh).1) hpb)
      h hb.start_mem (fun _ ↦ hq)
    exact Language.append_mem_mul (nil_mem_languageFrom hfinal) htext
  | read hc _ ih =>
    have hc' := mem_left_of_source hb hab hc hp
    obtain ⟨u, hu, v, hv, rfl⟩ := Language.mem_mul.mp (ih (ha.joins _ hc').2 hq)
    exact Language.append_mem_mul (cons_mem_languageFrom hc' hu) hv

theorem mem_language_concatOf_of_mem_mul (h : text ∈ a.language * b.language) :
    text ∈ (concatOf a b).language := by
  obtain ⟨u, ⟨p, hp, hu⟩, v, ⟨q, hq, hv⟩, rfl⟩ := Language.mem_mul.mp h
  have hu' : Path (before a b).transitions a.start u p :=
    hu.mono (fun t ht ↦ Std.ExtTreeSet.mem_union_iff.mpr (Or.inl ht))
  have hv' : Path (before a b).transitions b.start v q :=
    hv.mono (fun t ht ↦ Std.ExtTreeSet.mem_union_iff.mpr (Or.inr ht))
  apply mem_language_eliminated.mpr
  exact ⟨q, hq, (Run.of_path hu').append
    (.hop (leads_concatSeeds.mpr ⟨hp, rfl⟩) (.of_path hv'))⟩

theorem language_concatOf (ha : a.WellFormed) (hb : b.WellFormed) (hab : Apart a b) :
    (concatOf a b).language = a.language * b.language := by
  refine le_antisymm (fun text h ↦ ?_) (fun _ ↦ mem_language_concatOf_of_mem_mul)
  obtain ⟨q, hq, h⟩ := mem_language_eliminated.mp h
  exact mem_mul_of_run_before ha hb hab h ha.start_mem hq

/-- A run that goes back from final states to the start reads the rest of a text of the automaton,
then more texts of it. -/
theorem mem_mul_kstar_of_run (ha : a.WellFormed)
    (hback : ∀ p ∈ a.states, ∀ q, hops p q → p ∈ a.finals ∧ q = a.start)
    (h : Run a.transitions hops p text q) (hp : p ∈ a.states) (hq : q ∈ a.states → q ∈ a.finals) :
    text ∈ a.languageFrom p * a.language∗ := by
  induction h with
  | nil p =>
    exact Language.append_mem_mul (nil_mem_languageFrom (hq hp)) (Language.nil_mem_kstar _)
  | hop hh _ ih =>
    obtain ⟨hfinal, rfl⟩ := hback _ hp _ hh
    have htext := mul_kstar_le_kstar (a := a.language) (ih ha.start_mem hq)
    exact Language.append_mem_mul (nil_mem_languageFrom hfinal) htext
  | read hc _ ih =>
    obtain ⟨u, hu, v, hv, rfl⟩ := Language.mem_mul.mp (ih (ha.joins _ hc).2 hq)
    exact Language.append_mem_mul (cons_mem_languageFrom hc hu) hv

theorem run_flatten {S : State → Prop} (hback : ∀ p, S p → hops p a.start)
    (hfinals : ∀ p ∈ a.finals, S p) (texts : List (List Char))
    (ht : ∀ u ∈ texts, u ∈ a.language) (hp : S p) :
    ∃ q, S q ∧ Run a.transitions hops p texts.flatten q := by
  induction texts generalizing p with
  | nil => exact ⟨p, hp, .nil p⟩
  | cons u texts ih =>
    obtain ⟨r, hr, hu⟩ := ht u List.mem_cons_self
    obtain ⟨q, hq, h⟩ := ih (fun v hv ↦ ht v (List.mem_cons_of_mem u hv)) (hfinals r hr)
    exact ⟨q, hq, .hop (hback p hp) ((Run.of_path hu).append h)⟩

theorem language_starFrom (ha : a.WellFormed) (hhead : head ∉ a.states) :
    (starFrom head a).language = a.language∗ := by
  have hback (p : State) (hp : p ∈ a.states) (q : State)
      (hh : (moves (starSeeds head a)).Leads p q) : p ∈ a.finals ∧ q = a.start := by
    obtain ⟨rfl | hfinal, hq⟩ := leads_starSeeds.mp hh
    · exact absurd hp hhead
    · exact ⟨hfinal, hq⟩
  ext text
  rw [starFrom, mem_language_eliminated]
  constructor
  · intro h
    obtain ⟨q, hq, h⟩ := h
    cases h with
    | nil => exact Language.nil_mem_kstar _
    | hop hh h =>
      obtain ⟨_, rfl⟩ := leads_starSeeds.mp hh
      refine mul_kstar_le_kstar (a := a.language)
        (mem_mul_kstar_of_run ha hback h ha.start_mem (fun hqa ↦ ?_))
      exact (mem_finals_under.mp hq).resolve_left (fun heq ↦ hhead (heq ▸ hqa))
    | read hc _ => exact absurd (ha.joins _ hc).1 hhead
  · intro h
    obtain ⟨texts, rfl, ht⟩ := Language.mem_kstar.mp h
    obtain ⟨q, hq, h⟩ := run_flatten (S := fun p ↦ p = head ∨ p ∈ a.finals)
      (fun p hp ↦ leads_starSeeds.mpr ⟨hp, rfl⟩) (fun p ↦ Or.inr) texts ht (Or.inl (Eq.refl head))
    exact ⟨q, mem_finals_under.mpr hq, h⟩

end Laws

end LineSearch.Automaton
