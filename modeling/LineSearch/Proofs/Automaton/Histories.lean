import LineSearch.Proofs.Automaton.Laws
import LineSearch.Proofs.Occurrence

namespace LineSearch

open Automaton

/-- An operation on automata. The parts to assemble are any that there are, those into which an
automaton was taken apart among them. -/
inductive Operation
  | assemble (parts : Automaton)
  | literal (c : Char)
  | anySymbol
  | compile (t : Tree)
  | union (a b : Automaton)
  | concat (a b : Automaton)
  | star (a : Automaton)
  | somewhere (a : Automaton)
  | eliminate (a : Automaton) (seeds : List Transition)
  | duplicate (a : Automaton)

namespace Automaton

variable {a b : Automaton} {seeds : List Transition} {w : Workshop}

def seedFault (a : Automaton) (t : Transition) : Option AutomatonError :=
  if t.isEpsilon = false then some (.nonEmptySeed t)
  else if a.Joins t then none
  else some (.strayTransition t)

theorem seedFault_eq_none_iff {t : Transition} :
    a.seedFault t = none ↔ t.isEpsilon = true ∧ a.Joins t := by
  unfold seedFault
  split <;> simp_all

theorem seedHops_eq_error {e : AutomatonError} (h : seeds.findSome? a.seedFault = some e) :
    a.seedHops seeds = .error e := by
  induction seeds with
  | nil => cases h
  | cons t seeds ih =>
    rw [List.findSome?_cons] at h
    rw [seedHops]
    cases ht : a.seedFault t with
    | some f =>
      rw [ht] at h
      cases h
      unfold seedFault at ht
      split at ht
      · next hlabel =>
        cases ht
        rw [if_pos (by simp [hlabel])]
      · next hlabel =>
        split at ht
        · cases ht
        · next hjoins =>
          cases ht
          rw [if_neg (by simpa using hlabel), if_pos hjoins]
    | none =>
      rw [ht] at h
      obtain ⟨hlabel, hjoins⟩ := seedFault_eq_none_iff.mp ht
      rw [if_neg (by simp [hlabel]), if_neg (not_not_intro hjoins), ih h]
      rfl

theorem eliminate_eq_error_iff (ha : a.WellFormed) (w : Workshop) (e : AutomatonError) :
    a.eliminate seeds w = .error e ↔ seeds.findSome? a.seedFault = some e := by
  cases hseeds : seeds.findSome? a.seedFault with
  | none =>
    have hfine : ∀ t ∈ seeds, t.isEpsilon = true ∧ a.Joins t := by
      intro t ht
      exact seedFault_eq_none_iff.mp (List.findSome?_eq_none_iff.mp hseeds t ht)
    rw [eliminate_eq_ok ha hfine]
    simp
  | some f =>
    have helim : a.eliminate seeds w = .error f := by
      rw [eliminate, seedHops_eq_error hseeds]
      rfl
    rw [helim]
    simp

end Automaton

namespace Operation

def operands : Operation → List Automaton
  | assemble _ | literal _ | anySymbol | compile _ => []
  | star a | somewhere a | eliminate a _ | duplicate a => [a]
  | union a b | concat a b => [a, b]

def perform : Operation → Build Automaton
  | assemble parts => liftM parts.validated
  | literal c => Automaton.literal c
  | anySymbol => Automaton.anySymbol
  | compile t => t.compile
  | union a b => a.union b
  | concat a b => a.concat b
  | star a => a.star
  | somewhere a => a.somewhere
  | eliminate a seeds => a.eliminate seeds
  | duplicate a => a.duplicate

/-- Parts have to fit together, and seeds to be empty transitions of the automaton. Nothing else is
asked for. -/
def Refused : Operation → Prop
  | assemble parts => ¬parts.WellFormed
  | eliminate a seeds => ∃ t ∈ seeds, ¬(t.isEpsilon = true ∧ a.Joins t)
  | _ => False

end Operation

structure History where
  workshop : Workshop
  made : List Automaton

namespace History

def after (h : History) (op : Operation) : History :=
  if op.operands ⊆ h.made then
    match op.perform h.workshop with
    | .ok (a, workshop) => ⟨workshop, a :: h.made⟩
    | .error _ => h
  else h

/-- The history of some operations, in a workshop that may have handed out any states before. An
operation without its operands is passed over, and one that fails leaves everything as it was. -/
def ofOperations (w : Workshop) (ops : List Operation) : History := ops.foldl after ⟨w, []⟩

end History

namespace Operation

variable {op : Operation} {w : Workshop}

theorem perform_eq_ok (hop : ∀ a ∈ op.operands, a.WellFormed) (hok : ¬op.Refused) (w : Workshop) :
    ∃ a w', op.perform w = .ok (a, w') ∧ a.WellFormed ∧ ((∀ parts, op ≠ assemble parts) →
      (a.isEpsilonFree = true ↔ ∀ b ∈ op.operands, b.isEpsilonFree = true)) := by
  cases op with
  | assemble parts =>
    have hwell : parts.WellFormed := Classical.not_not.mp hok
    refine ⟨_, _, Build.lift_eq (validated_of_wellFormed hwell), hwell, fun hne ↦ ?_⟩
    exact absurd rfl (hne parts)
  | literal c =>
    refine ⟨_, _, literal_eq_ok c w, wellFormed_literalBetween c _ _, fun _ ↦ ?_⟩
    simp [isEpsilonFree_literalBetween, operands]
  | anySymbol =>
    refine ⟨_, _, anySymbol_eq_ok w, wellFormed_anySymbolBetween _ _, fun _ ↦ ?_⟩
    simp [isEpsilonFree_anySymbolBetween, operands]
  | compile t =>
    obtain ⟨a, w', ha, hheld, _⟩ := t.makes_compile [] w (Held.nil w)
    refine ⟨a, w', ha, hheld.wellFormed a List.mem_cons_self, fun _ ↦ ?_⟩
    simp [hheld.epsilonFree a List.mem_cons_self, operands]
  | union a b =>
    obtain ⟨ha, hb⟩ : a.WellFormed ∧ b.WellFormed := by simpa [operands] using hop
    refine ⟨_, _, union_eq_ok ha hb w, wellFormed_unionFrom ha hb, fun _ ↦ ?_⟩
    simp [isEpsilonFree_unionFrom, operands]
  | concat a b =>
    obtain ⟨ha, hb⟩ : a.WellFormed ∧ b.WellFormed := by simpa [operands] using hop
    refine ⟨_, _, concat_eq_ok ha hb w, wellFormed_concatOf ha hb, fun _ ↦ ?_⟩
    simp [isEpsilonFree_concatOf, operands]
  | star a =>
    have ha : a.WellFormed := by simpa [operands] using hop
    refine ⟨_, _, star_eq_ok ha w, wellFormed_starFrom ha, fun _ ↦ ?_⟩
    simp [isEpsilonFree_starFrom, operands]
  | somewhere a =>
    have ha : a.WellFormed := by simpa [operands] using hop
    refine ⟨_, _, somewhere_eq_ok ha w, wellFormed_somewhereFrom ha _, fun _ ↦ ?_⟩
    simp [isEpsilonFree_somewhereFrom, operands]
  | eliminate a seeds =>
    have ha : a.WellFormed := by simpa [operands] using hop
    have hseeds : ∀ t ∈ seeds, t.isEpsilon = true ∧ a.Joins t := by simpa [Refused] using hok
    refine ⟨_, _, eliminate_eq_ok ha hseeds w, wellFormed_eliminated_moves ha hseeds, fun _ ↦ ?_⟩
    simp [isEpsilonFree_eliminated, operands]
  | duplicate a =>
    have ha : a.WellFormed := by simpa [operands] using hop
    obtain ⟨f, hcopy, _, _⟩ := duplicateAlong_eq_ok ha (fun q ↦ Std.ExtTreeSet.mem_toList) w
    refine ⟨_, _, hcopy, wellFormed_renamed ha, fun _ ↦ ?_⟩
    simp [isEpsilonFree_renamed, operands]

theorem perform_eq_error_of_refused (hop : ∀ a ∈ op.operands, a.WellFormed) (h : op.Refused)
    (w : Workshop) : ∃ e, op.perform w = .error e := by
  cases op with
  | assemble parts =>
    cases hparts : parts.validated with
    | ok a => exact absurd (wellFormed_of_validated hparts).1 h
    | error e =>
      refine ⟨e, ?_⟩
      rw [perform, hparts]
      rfl
  | eliminate a seeds =>
    have ha : a.WellFormed := by simpa [operands] using hop
    obtain ⟨t, ht, hfault⟩ := h
    cases hseeds : seeds.findSome? a.seedFault with
    | none =>
      have hnone := List.findSome?_eq_none_iff.mp hseeds t ht
      exact absurd (seedFault_eq_none_iff.mp hnone) hfault
    | some e => exact ⟨e, (eliminate_eq_error_iff ha w e).mpr hseeds⟩
  | _ => exact h.elim

theorem perform_fails_iff (hop : ∀ a ∈ op.operands, a.WellFormed) (w : Workshop) :
    (∃ e, op.perform w = .error e) ↔ op.Refused := by
  constructor
  · intro hfail
    obtain ⟨e, he⟩ := hfail
    by_contra hok
    obtain ⟨a, w', ha, _⟩ := perform_eq_ok hop hok w
    rw [ha] at he
    cases he
  · exact fun h ↦ perform_eq_error_of_refused hop h w

theorem made_of_perform (hop : ∀ a ∈ op.operands, a.WellFormed) {a : Automaton} {w' : Workshop}
    (h : op.perform w = .ok (a, w')) :
    a.WellFormed ∧ ((∀ parts, op ≠ assemble parts) →
      (a.isEpsilonFree = true ↔ ∀ b ∈ op.operands, b.isEpsilonFree = true)) := by
  have hok : ¬op.Refused := by
    intro hrefused
    obtain ⟨e, he⟩ := perform_eq_error_of_refused hop hrefused w
    rw [he] at h
    cases h
  obtain ⟨b, w'', hb, hmade⟩ := perform_eq_ok hop hok w
  obtain ⟨rfl, _⟩ := Prod.mk.inj (Except.ok.inj (h.symm.trans hb))
  exact hmade

end Operation

namespace History

theorem wellFormed_after {h : History} (hmade : ∀ a ∈ h.made, a.WellFormed) (op : Operation) :
    ∀ a ∈ (h.after op).made, a.WellFormed := by
  unfold after
  split
  · next hsub =>
    have hop : ∀ a ∈ op.operands, a.WellFormed := fun a ha ↦ hmade a (hsub ha)
    split
    · next a workshop hperform =>
      exact List.forall_mem_cons.mpr ⟨(Operation.made_of_perform hop hperform).1, hmade⟩
    · exact hmade
  · exact hmade

theorem wellFormed_ofOperations (w : Workshop) (ops : List Operation) :
    ∀ a ∈ (ofOperations w ops).made, a.WellFormed := by
  have hrun (h : History) (hmade : ∀ a ∈ h.made, a.WellFormed) :
      ∀ a ∈ (ops.foldl after h).made, a.WellFormed := by
    induction ops generalizing h with
    | nil => exact hmade
    | cons op ops ih => exact ih (h.after op) (wellFormed_after hmade op)
  exact hrun ⟨w, []⟩ (by simp)

/-- After any operations, on operands that may share states, all that was made is well-formed. An
operation then fails exactly if it is refused, which can happen to an assembly and an elimination
alone; what it makes is without empty transitions exactly if its operands are, an assembly apart;
and an elimination tells of the first seed with a fault. So trees are compiled and made into
patterns without an error, and a text fails to make one only because of its syntax. -/
theorem ofOperations_sound (w : Workshop) (ops : List Operation) :
    let h := ofOperations w ops
    (∀ a ∈ h.made, a.WellFormed) ∧
    (∀ op : Operation, op.operands ⊆ h.made →
      ((∃ e, op.perform h.workshop = .error e) ↔ op.Refused) ∧
      ∀ a w', op.perform h.workshop = .ok (a, w') → (∀ parts, op ≠ .assemble parts) →
        (a.isEpsilonFree = true ↔ ∀ b ∈ op.operands, b.isEpsilonFree = true)) ∧
    (∀ a ∈ h.made, ∀ seeds e, a.eliminate seeds h.workshop = .error e ↔
      ∃ earlier t later, seeds = earlier ++ t :: later ∧ a.seedFault t = some e ∧
        ∀ u ∈ earlier, a.seedFault u = none) ∧
    (∀ t : Tree, ∃ a w', t.compile h.workshop = .ok (a, w')) ∧
    (∀ t, ∃ p w', Pattern.ofTree t h.workshop = .ok (p, w')) ∧
    ∀ source e, Pattern.ofString source ≠ .error (.automaton e) := by
  intro h
  have hmade : ∀ a ∈ h.made, a.WellFormed := wellFormed_ofOperations w ops
  refine ⟨hmade, fun op hsub ↦ ?_, fun a ha seeds e ↦ ?_, fun t ↦ ?_, fun t ↦ ?_, fun source e ↦ ?_⟩
  · have hop : ∀ a ∈ op.operands, a.WellFormed := fun a ha ↦ hmade a (hsub ha)
    exact ⟨Operation.perform_fails_iff hop h.workshop,
      fun a w' ha ↦ (Operation.made_of_perform hop ha).2⟩
  · rw [eliminate_eq_error_iff (hmade a ha), List.findSome?_eq_some_iff]
  · obtain ⟨a, w', ha, _⟩ := t.makes_compile [] h.workshop (Held.nil _)
    exact ⟨a, w', ha⟩
  · obtain ⟨p, w', hp, _⟩ := Pattern.ofTree_finds t h.workshop
    exact ⟨p, w', hp⟩
  · intro hfail
    cases hparse : Tree.parse source with
    | error f => simp [Pattern.ofString, hparse] at hfail
    | ok t =>
      obtain ⟨p, events, hp, _⟩ := Pattern.ofString_finds hparse
      rw [hp] at hfail
      cases hfail

theorem ofOperations_sound_shared :
    let h := ofOperations ⟨5, #[]⟩ [.assemble reentered]
    let seeds : List Transition := [.epsilon ⟨1⟩ ⟨0⟩, .symbol 'a' ⟨1⟩ ⟨9⟩, .epsilon ⟨1⟩ ⟨9⟩]
    (Operation.concat reentered reentered).operands ⊆ h.made ∧ reentered ∈ h.made ∧
    ¬(∃ e, reentered.concat reentered h.workshop = .error e) ∧
    reentered.eliminate seeds h.workshop = .error (.nonEmptySeed (.symbol 'a' ⟨1⟩ ⟨9⟩)) := by
  intro h seeds
  have hperform : (Operation.assemble reentered).perform ⟨5, #[]⟩ = .ok (reentered, ⟨5, #[]⟩) :=
    Build.lift_eq validated_reentered
  have hmem : reentered ∈ h.made := by
    simp [h, ofOperations, after, Operation.operands, hperform]
  have hsub : (Operation.concat reentered reentered).operands ⊆ h.made := by
    simp [Operation.operands, hmem]
  obtain ⟨_, hoperations, heliminate, _⟩ := ofOperations_sound ⟨5, #[]⟩ [.assemble reentered]
  refine ⟨hsub, hmem, fun hfail ↦ (hoperations _ hsub).1.mp hfail, ?_⟩
  exact (heliminate reentered hmem seeds _).mpr
    ⟨[.epsilon ⟨1⟩ ⟨0⟩], _, [.epsilon ⟨1⟩ ⟨9⟩], rfl, by decide, by decide⟩

end History

end LineSearch
