import LineSearch.Proofs.Automaton.Laws
import LineSearch.Proofs.Automaton.Renaming
import Mathlib.Data.Set.Function

namespace LineSearch.Automaton

section Correspondence

variable {α β : Type} [Ord α] [Std.TransOrd α] [Std.LawfulEqOrd α] [Ord β] [Std.TransOrd β]
  [Std.LawfulEqOrd β] {s : Std.ExtTreeSet α} {t : Std.ExtTreeSet β} {f : α → β}

theorem toList_perm_of_bijOn (h : Set.BijOn f {a | a ∈ s} {b | b ∈ t}) :
    t.toList.Perm (s.toList.map f) := by
  have hmaps := h.mapsTo
  have hnodup : (s.toList.map f).Nodup := by
    refine (nodup_toList s).map_on (fun a ha b hb hab ↦ h.injOn ?_ ?_ hab)
    · exact Std.ExtTreeSet.mem_toList.mp ha
    · exact Std.ExtTreeSet.mem_toList.mp hb
  apply toList_perm_of_mem_iff hnodup
  intro b
  rw [List.mem_map]
  constructor
  · intro hb
    obtain ⟨a, ha, hab⟩ := h.surjOn hb
    exact ⟨a, Std.ExtTreeSet.mem_toList.mpr ha, hab⟩
  · intro hb
    obtain ⟨a, ha, rfl⟩ := hb
    exact hmaps (Std.ExtTreeSet.mem_toList.mp ha)

theorem size_eq_of_bijOn (h : Set.BijOn f {a | a ∈ s} {b | b ∈ t}) : t.size = s.size := by
  simpa only [List.length_map, Std.ExtTreeSet.length_toList]
    using (toList_perm_of_bijOn h).length_eq

end Correspondence

/-- The states correspond one to one, and the rest exactly as they do. -/
structure Isomorphic (f : State → State) (a b : Automaton) : Prop where
  states : Set.BijOn f {q | q ∈ a.states} {q | q ∈ b.states}
  start : f a.start = b.start
  finals : Set.BijOn f {q | q ∈ a.finals} {q | q ∈ b.finals}
  transitions : Set.BijOn (renamedTransition f) {t | t ∈ a.transitions} {t | t ∈ b.transitions}

section Isomorphic

variable {a b : Automaton} {f : State → State}

theorem isomorphic_renamed (ha : a.WellFormed)
    (hf : ∀ p ∈ a.states, ∀ q ∈ a.states, f p = f q → p = q) : Isomorphic f a (a.renamed f) where
  states := by
    refine ⟨fun p hp ↦ mem_states_renamed.mpr ⟨p, hp, rfl⟩, fun p hp q hq ↦ hf p hp q hq, ?_⟩
    exact fun q hq ↦ mem_states_renamed.mp hq
  start := rfl
  finals := by
    refine ⟨fun p hp ↦ mem_finals_renamed.mpr ⟨p, hp, rfl⟩, fun p hp q hq ↦ ?_, ?_⟩
    · exact hf p (ha.mem_of_final p hp) q (ha.mem_of_final q hq)
    · exact fun q hq ↦ mem_finals_renamed.mp hq
  transitions := by
    refine ⟨fun t ht ↦ mem_transitions_renamed.mpr ⟨t, ht, rfl⟩, fun t ht u hu htu ↦ ?_, ?_⟩
    · obtain ⟨hlabel, hsource, hdestination⟩ := Transition.mk.inj htu
      cases t
      cases u
      have hends := ha.joins _ ht
      have hends' := ha.joins _ hu
      exact (Transition.mk.injEq ..).mpr ⟨hlabel, hf _ hends.1 _ hends'.1 hsource,
        hf _ hends.2 _ hends'.2 hdestination⟩
    · exact fun t ht ↦ mem_transitions_renamed.mp ht

theorem Isomorphic.size_eq (h : Isomorphic f a b) : b.size = a.size := by
  rw [size, size_eq_of_bijOn h.states, size_eq_of_bijOn h.transitions, size_eq_of_bijOn h.finals,
    size]

end Isomorphic

structure CombineLawfully (a b : Automaton) (w : Workshop) : Prop where
  concat : ∃ c w', a.concat b w = .ok (c, w') ∧ ∀ text, c.accepts text = true ↔
    ∃ u v, u ++ v = text ∧ a.accepts u = true ∧ b.accepts v = true
  union : ∃ c w', a.union b w = .ok (c, w') ∧ ∀ text, c.accepts text = true ↔
    a.accepts text = true ∨ b.accepts text = true

section Copies

variable {a b : Automaton} {listing : List State} {w : Workshop}

theorem combineLawfully (ha : a.WellFormed) (hb : b.WellFormed) (hab : Apart a b)
    (hmadea : ∀ q ∈ a.states, q.number < w.next) (hmadeb : ∀ q ∈ b.states, q.number < w.next) :
    CombineLawfully a b w where
  concat := ⟨_, _, concat_eq_ok ha hb w, accepts_concatOf_iff ha hb hab⟩
  union := ⟨_, _, union_eq_ok ha hb w,
    accepts_unionFrom_iff ha hb hab (fresh_not_mem hmadea) (fresh_not_mem hmadeb)⟩

theorem exists_isomorphic_copy (ha : a.WellFormed) (hlisting : listing.Perm a.states.toList)
    (w : Workshop) :
    ∃ f, a.duplicateAlong listing w =
        .ok (a.renamed f, { w with next := w.next + a.states.size }) ∧
      Isomorphic f a (a.renamed f) ∧
      ∀ q ∈ (a.renamed f).states, w.next ≤ q.number ∧ q.number < w.next + a.states.size := by
  have hlength : listing.length = a.states.size := by
    rw [hlisting.length_eq, Std.ExtTreeSet.length_toList]
  have hmem (q : State) : q ∈ listing ↔ q ∈ a.states := by
    rw [hlisting.mem_iff, Std.ExtTreeSet.mem_toList]
  obtain ⟨f, hcopy, hinjective, hnew⟩ := duplicateAlong_eq_ok ha hmem w
  rw [hlength] at hcopy hnew
  refine ⟨f, hcopy, isomorphic_renamed ha hinjective, fun q hq ↦ ?_⟩
  obtain ⟨p, hp, rfl⟩ := mem_states_renamed.mp hq
  exact hnew p hp

/-- A copy of an automaton over states that are handed out from the workshop on. It shares none with
an earlier automaton, and in any later workshop it can be combined with its original. -/
structure CopiedFrom (f : State → State) (a b : Automaton) (w : Workshop) : Prop where
  isomorphic : Isomorphic f a b
  fresh : ∀ q ∈ b.states, w.next ≤ q.number ∧ q.number < w.next + a.states.size
  apart : ∀ c : Automaton, (∀ q ∈ c.states, q.number < w.next) → Apart b c
  accepts_eq : b.accepts = a.accepts
  lawful : ∀ later : Workshop, w.next + a.states.size ≤ later.next →
    CombineLawfully b a later ∧ CombineLawfully a b later

theorem exists_copiedFrom (ha : a.WellFormed) (hlisting : listing.Perm a.states.toList)
    (hmade : ∀ q ∈ a.states, q.number < w.next) :
    ∃ f b, a.duplicateAlong listing w = .ok (b, { w with next := w.next + a.states.size }) ∧
      CopiedFrom f a b w := by
  obtain ⟨f, hcopy, hisomorphic, hfresh⟩ := exists_isomorphic_copy ha hlisting w
  have hlanguage := language_renamed ha
    (fun p hp q hq heq ↦ hisomorphic.states.injOn hp hq heq)
  have hapart (c : Automaton) (hc : ∀ q ∈ c.states, q.number < w.next) : Apart (a.renamed f) c :=
    apart_of_le_of_lt (fun q hq ↦ (hfresh q hq).1) hc
  refine ⟨f, a.renamed f, hcopy, hisomorphic, hfresh, hapart, accepts_eq_of_language_eq hlanguage,
    fun later hlater ↦ ?_⟩
  have hmadeb : ∀ q ∈ (a.renamed f).states, q.number < later.next :=
    fun q hq ↦ (hfresh q hq).2.trans_le hlater
  have hmadea : ∀ q ∈ a.states, q.number < later.next :=
    fun q hq ↦ (hmade q hq).trans_le ((Nat.le_add_right _ _).trans hlater)
  have hwellb := wellFormed_renamed (f := f) ha
  have hab := hapart a hmade
  exact ⟨combineLawfully hwellb ha hab hmadeb hmadea,
    combineLawfully ha hwellb hab.symm hmadea hmadeb⟩

/-- In whatever order the states are listed, a copy succeeds and is isomorphic to its original, over
states of which none was handed out before. So it shares none with an earlier automaton, accepts the
same texts, and in any later workshop obeys the laws when it is combined with its original. -/
theorem duplicateAlong_isomorphic (ha : a.validated = .ok a)
    (hlisting : listing.Perm a.states.toList) (hmade : ∀ q ∈ a.states, q.number < w.next) :
    let next := w.next + a.states.size
    ∃ f b, a.duplicateAlong listing w = .ok (b, { w with next }) ∧ Isomorphic f a b ∧
      (∀ q ∈ b.states, w.next ≤ q.number ∧ q.number < next) ∧
      (∀ c : Automaton, (∀ q ∈ c.states, q.number < w.next) → Apart b c) ∧
      b.size = a.size ∧ (∀ text, b.accepts text = a.accepts text) ∧
      ∀ later : Workshop, next ≤ later.next →
        CombineLawfully b a later ∧ CombineLawfully a b later := by
  intro next
  obtain ⟨f, b, hcopy, hcopied⟩ :=
    exists_copiedFrom (wellFormed_of_validated ha).1 hlisting hmade
  exact ⟨f, b, hcopy, hcopied.isomorphic, hcopied.fresh, hcopied.apart,
    hcopied.isomorphic.size_eq, congrFun hcopied.accepts_eq, hcopied.lawful⟩

theorem duplicateAlong_isomorphic_reentered :
    let listing : List State := [⟨2⟩, ⟨0⟩, ⟨1⟩]
    reentered.validated = .ok reentered ∧ listing.Perm reentered.states.toList ∧
    (∀ q ∈ reentered.states, q.number < 5) ∧
    ∃ f b, reentered.duplicateAlong listing ⟨5, #[]⟩ = .ok (b, ⟨8, #[]⟩) ∧
      Isomorphic f reentered b ∧ (∀ q ∈ b.states, 5 ≤ q.number ∧ q.number < 8) ∧
      (∀ c : Automaton, (∀ q ∈ c.states, q.number < 5) → Apart b c) ∧
      b.size = reentered.size ∧ (∀ text, b.accepts text = reentered.accepts text) ∧
      ∀ later : Workshop, 8 ≤ later.next →
        CombineLawfully b reentered later ∧ CombineLawfully reentered b later := by
  intro listing
  have hlisting : listing.Perm reentered.states.toList := by decide
  exact ⟨validated_reentered, hlisting, made_reentered,
    duplicateAlong_isomorphic validated_reentered hlisting made_reentered⟩

theorem duplicate_isomorphic (ha : a.validated = .ok a)
    (hmade : ∀ q ∈ a.states, q.number < w.next) :
    ∃ f b, a.duplicate w = .ok (b, { w with next := w.next + a.states.size }) ∧
      CopiedFrom f a b w ∧ b.size = a.size := by
  have hwell := (wellFormed_of_validated ha).1
  obtain ⟨f, b, hcopy, hcopied⟩ := exists_copiedFrom hwell (.refl a.states.toList) hmade
  exact ⟨f, b, hcopy, hcopied, hcopied.isomorphic.size_eq⟩

end Copies

end LineSearch.Automaton
