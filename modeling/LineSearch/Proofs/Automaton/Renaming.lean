import LineSearch.Automaton.Duplicate
import LineSearch.Proofs.Automaton.Ownership

namespace LineSearch

namespace Renaming

variable {names : Renaming} {listing : List State} {low high : Nat} {p q r : State}

theorem values_eq (names : Renaming) : names.values = names.toList.map Prod.snd := by
  obtain ⟨⟨m⟩⟩ := names
  induction m using Quotient.ind with
  | _ m =>
    obtain ⟨m, _⟩ := m
    change m.values = (Std.DTreeMap.Internal.Impl.Const.toList m).map Prod.snd
    rw [Std.DTreeMap.Internal.Impl.values_eq_map_snd,
      Std.DTreeMap.Internal.Impl.Const.toList_eq_toListModel_map, List.map_map]
    rfl

theorem mem_values : r ∈ names.values ↔ ∃ q : State, names[q]? = some r := by
  simp only [values_eq, List.mem_map, Prod.exists, exists_eq_right,
    Std.ExtTreeMap.mem_toList_iff_getElem?_eq_some]

/-- The listed states, and no others, have names, each its own and with a number in the range. -/
structure Covers (names : Renaming) (listing : List State) (low high : Nat) : Prop where
  named : ∀ q ∈ listing, ∃ r, names[q]? = some r
  listed : ∀ q r : State, names[q]? = some r → q ∈ listing ∧ low ≤ r.number ∧ r.number < high
  injective : ∀ p q r : State, names[p]? = some r → names[q]? = some r → p = q

theorem getElem?_insert_name (later : Renaming) (q name p : State) :
    (later.insert q name)[p]? = if p = q then some name else later[p]? := by
  simp only [Std.ExtTreeMap.getElem?_insert, Std.LawfulEqOrd.compare_eq_iff_eq, @eq_comm _ p q]

theorem fresh_eq_ok (listing : List State) (w : Workshop) :
    ∃ names, fresh listing w = .ok (names, { w with next := w.next + listing.length }) ∧
      Covers names listing w.next (w.next + listing.length) := by
  induction listing generalizing w with
  | nil => exact ⟨∅, rfl, by simp, by simp, by simp⟩
  | cons q listing ih =>
    obtain ⟨later, hlater, hcovers⟩ := ih { w with next := w.next + 1 }
    refine ⟨later.insert q ⟨w.next⟩, ?_, fun p hp ↦ ?_, fun p r hp ↦ ?_, fun p₁ p₂ r h₁ h₂ ↦ ?_⟩
    · rw [fresh, Build.fresh_bind, Build.bind_eq hlater]
      simp only [List.length_cons, Nat.add_comm listing.length 1, ← Nat.add_assoc]
      rfl
    · rw [getElem?_insert_name]
      split
      · exact ⟨_, rfl⟩
      · next hne => exact hcovers.named p ((List.mem_cons.mp hp).resolve_left hne)
    · rw [getElem?_insert_name] at hp
      split at hp
      · next heq =>
        obtain rfl := Option.some.inj hp
        simp [heq]
      · obtain ⟨hmem, hlow, hhigh⟩ := hcovers.listed p r hp
        refine ⟨List.mem_cons_of_mem q hmem, ?_, ?_⟩
        · exact Nat.le_of_succ_le hlow
        · simp only [List.length_cons] at hhigh ⊢
          omega
    · rw [getElem?_insert_name] at h₁ h₂
      -- the new name is older than all later ones
      have hnew {p : State} (h : later[p]? = some r) (hr : r.number = w.next) : False := by
        have := (hcovers.listed p r h).2.1
        simp only at this
        omega
      split at h₁ <;> split at h₂
      · simp_all
      · exact (hnew h₂ (by rw [← Option.some.inj h₁])).elim
      · exact (hnew h₁ (by rw [← Option.some.inj h₂])).elim
      · exact hcovers.injective p₁ p₂ r h₁ h₂

def apply (names : Renaming) (q : State) : State := names[q]?.getD q

theorem Covers.getElem?_eq (h : Covers names listing low high) (hq : q ∈ listing) :
    names[q]? = some (names.apply q) := by
  obtain ⟨r, hr⟩ := h.named q hq
  rw [apply, hr]
  rfl

end Renaming

theorem mapM_eq_ok {α β ε : Type} {f : α → Except ε β} {g : α → β} {xs : List α}
    (h : ∀ x ∈ xs, f x = .ok (g x)) : xs.mapM f = .ok (xs.map g) := by
  induction xs with
  | nil => rfl
  | cons x xs ih =>
    rw [List.mapM_cons, h x List.mem_cons_self, ih (fun y hy ↦ h y (List.mem_cons_of_mem x hy))]
    rfl

namespace Automaton

def renamedTransition (f : State → State) (t : Transition) : Transition :=
  ⟨t.label, f t.source, f t.destination⟩

def renamed (f : State → State) (a : Automaton) : Automaton :=
  ⟨.ofList (a.states.toList.map f), f a.start, .ofList (a.finals.toList.map f),
    .ofList (a.transitions.toList.map (renamedTransition f))⟩

section Renamed

variable {a : Automaton} {f : State → State} {p q : State} {t : Transition} {text : List Char}

theorem mem_states_renamed : q ∈ (a.renamed f).states ↔ ∃ p ∈ a.states, f p = q := by
  simp [renamed, Std.ExtTreeSet.mem_ofList]

theorem mem_finals_renamed : q ∈ (a.renamed f).finals ↔ ∃ p ∈ a.finals, f p = q := by
  simp [renamed, Std.ExtTreeSet.mem_ofList]

theorem mem_transitions_renamed :
    t ∈ (a.renamed f).transitions ↔ ∃ u ∈ a.transitions, renamedTransition f u = t := by
  simp [renamed, Std.ExtTreeSet.mem_ofList]

theorem wellFormed_renamed (ha : a.WellFormed) : (a.renamed f).WellFormed := by
  refine ⟨mem_states_renamed.mpr ⟨_, ha.start_mem, rfl⟩, fun q hq ↦ ?_, fun t ht ↦ ?_⟩
  · obtain ⟨p, hp, rfl⟩ := mem_finals_renamed.mp hq
    exact mem_states_renamed.mpr ⟨p, ha.mem_of_final p hp, rfl⟩
  · obtain ⟨u, hu, rfl⟩ := mem_transitions_renamed.mp ht
    have h := ha.joins u hu
    exact ⟨mem_states_renamed.mpr ⟨_, h.1, rfl⟩, mem_states_renamed.mpr ⟨_, h.2, rfl⟩⟩

theorem isEpsilonFree_renamed : (a.renamed f).isEpsilonFree = a.isEpsilonFree := by
  rw [Bool.eq_iff_iff, isEpsilonFree_iff, isEpsilonFree_iff]
  constructor
  · intro h t ht
    exact h (renamedTransition f t) (mem_transitions_renamed.mpr ⟨t, ht, rfl⟩)
  · intro h t ht
    obtain ⟨u, hu, rfl⟩ := mem_transitions_renamed.mp ht
    exact h u hu

theorem Path.renamed (h : Path a.transitions p text q) :
    Path (a.renamed f).transitions (f p) text (f q) := by
  induction h with
  | nil p => exact .nil (f p)
  | cons hc _ ih => exact .cons (mem_transitions_renamed.mpr ⟨_, hc, rfl⟩) ih

theorem exists_path_of_renamed (ha : a.WellFormed)
    (hf : ∀ p ∈ a.states, ∀ q ∈ a.states, f p = f q → p = q) (hp : p ∈ a.states)
    (h : Path (a.renamed f).transitions (f p) text q) :
    ∃ r ∈ a.states, f r = q ∧ Path a.transitions p text r := by
  induction text generalizing p with
  | nil =>
    obtain rfl := Path.nil_iff.mp h
    exact ⟨p, hp, rfl, .nil p⟩
  | cons c text ih =>
    obtain ⟨m, hc, htail⟩ := Path.cons_iff.mp h
    obtain ⟨⟨label, source, destination⟩, hu, heq⟩ := mem_transitions_renamed.mp hc
    obtain ⟨rfl, hsource, rfl⟩ := Transition.mk.inj heq
    have hends := ha.joins _ hu
    obtain rfl := hf source hends.1 p hp hsource
    obtain ⟨r, hr, hfr, hpath⟩ := ih hends.2 htail
    exact ⟨r, hr, hfr, .cons hu hpath⟩

theorem language_renamed (ha : a.WellFormed)
    (hf : ∀ p ∈ a.states, ∀ q ∈ a.states, f p = f q → p = q) :
    (a.renamed f).language = a.language := by
  ext text
  constructor
  · intro h
    obtain ⟨q, hq, h⟩ := h
    obtain ⟨p, hp, rfl⟩ := mem_finals_renamed.mp hq
    obtain ⟨r, hr, heq, hpath⟩ := exists_path_of_renamed ha hf ha.start_mem h
    obtain rfl := hf r hr p (ha.mem_of_final p hp) heq
    exact ⟨r, hp, hpath⟩
  · intro h
    obtain ⟨q, hq, h⟩ := h
    exact ⟨f q, mem_finals_renamed.mpr ⟨q, hq, rfl⟩, h.renamed⟩

end Renamed

theorem automaton_eq_ok {names : Renaming} {listing : List State} {low high : Nat} {a : Automaton}
    (h : names.Covers listing low high) (ha : a.WellFormed)
    (hlisting : ∀ q, q ∈ listing ↔ q ∈ a.states) :
    names.automaton a = .ok (a.renamed names.apply) := by
  have hname (q : State) (hq : q ∈ a.states) : names[q]? = some (names.apply q) :=
    h.getElem?_eq ((hlisting q).mpr hq)
  have hfinals : a.finals.toList.mapM
      (fun q ↦ names[q]?.elim (.error (.strayFinal q)) .ok) =
        (.ok (a.finals.toList.map names.apply) : Except AutomatonError _) := by
    refine mapM_eq_ok (fun q hq ↦ ?_)
    rw [hname q (ha.mem_of_final q (Std.ExtTreeSet.mem_toList.mp hq))]
    rfl
  have htransitions : a.transitions.toList.mapM names.transition =
      .ok (a.transitions.toList.map (renamedTransition names.apply)) := by
    refine mapM_eq_ok (fun t ht ↦ ?_)
    have hends := ha.joins t (Std.ExtTreeSet.mem_toList.mp ht)
    rw [Renaming.transition, hname _ hends.1, hname _ hends.2]
    rfl
  have hstates : Std.ExtTreeSet.ofList names.values =
      (Std.ExtTreeSet.ofList (a.states.toList.map names.apply) : States) := by
    refine Std.ExtTreeSet.ext_mem (fun r ↦ ?_)
    simp only [Std.ExtTreeSet.mem_ofList, List.contains_iff_mem, Renaming.mem_values,
      List.mem_map, Std.ExtTreeSet.mem_toList]
    constructor
    · intro hr
      obtain ⟨q, hq⟩ := hr
      have hmem := (hlisting q).mp (h.listed q r hq).1
      exact ⟨q, hmem, Option.some.inj ((hname q hmem).symm.trans hq)⟩
    · intro hr
      obtain ⟨q, hq, rfl⟩ := hr
      exact ⟨q, hname q hq⟩
  rw [Renaming.automaton, hname _ ha.start_mem, hfinals, htransitions, hstates]
  rfl

/-- A copy is the automaton under new names, one for each state and none given out before. -/
theorem duplicateAlong_eq_ok {a : Automaton} (ha : a.WellFormed) {listing : List State}
    (hlisting : ∀ q, q ∈ listing ↔ q ∈ a.states) (w : Workshop) :
    ∃ f, a.duplicateAlong listing w =
        .ok (a.renamed f, { w with next := w.next + listing.length }) ∧
      (∀ p ∈ a.states, ∀ q ∈ a.states, f p = f q → p = q) ∧
      ∀ q ∈ a.states, w.next ≤ (f q).number ∧ (f q).number < w.next + listing.length := by
  obtain ⟨names, hnames, hcovers⟩ := Renaming.fresh_eq_ok listing w
  have hname (q : State) (hq : q ∈ a.states) : names[q]? = some (names.apply q) :=
    hcovers.getElem?_eq ((hlisting q).mpr hq)
  refine ⟨names.apply, ?_, fun p hp q hq heq ↦ ?_, fun q hq ↦ ?_⟩
  · exact (Build.bind_eq hnames).trans (Build.lift_eq (automaton_eq_ok hcovers ha hlisting))
  · exact hcovers.injective p q _ (hname p hp) (heq ▸ hname q hq)
  · exact (hcovers.listed q _ (hname q hq)).2

theorem duplicate_held {a : Automaton} {rest : List Automaton} {w : Workshop}
    (hw : Held (a :: rest) w) :
    ∃ b w', a.duplicate w = .ok (b, w') ∧ Held (b :: a :: rest) w' ∧ b.language = a.language := by
  have ha := hw.wellFormed a List.mem_cons_self
  obtain ⟨f, hcopy, hinjective, hnew⟩ :=
    duplicateAlong_eq_ok ha (fun q ↦ Std.ExtTreeSet.mem_toList) w
  have hw' : Held ([] ++ a :: rest) w := hw
  refine ⟨a.renamed f, _, hcopy, hw'.replace (wellFormed_renamed ha) ?_
    (Nat.le_add_right _ _) (fun q hq ↦ Or.inr ?_), language_renamed ha hinjective⟩
  · rw [isEpsilonFree_renamed, hw.epsilonFree a List.mem_cons_self]
  · obtain ⟨p, hp, rfl⟩ := mem_states_renamed.mp hq
    exact hnew p hp

end Automaton

end LineSearch
