import LineSearch.Automaton.Closure
import Mathlib.Logic.Relation
import Mathlib.Tactic.ByContra

namespace LineSearch.Hops

open Relation (TransGen)

def Leads (r : Hops) (p q : State) : Prop := ⟨p, q⟩ ∈ r

theorem transGen_extended {r : Hops} {p q : State} :
    TransGen r.extended.Leads p q ↔ TransGen r.Leads p q := by
  constructor
  · intro h
    refine TransGen.trans_induction_on h ?_ (fun _ _ h h' ↦ h.trans h')
    intro p q h
    rcases mem_extended.mp h with h | h
    · exact .single h
    · obtain ⟨m, hp, hq⟩ := mem_joined.mp h
      exact .tail (.single hp) hq
  · intro h
    exact TransGen.mono (fun p q h ↦ mem_extended.mpr (Or.inl h)) _ _ h

theorem transGen_of_derived_isEmpty {r : Hops} (hr : r.derived.isEmpty) {p q : State} :
    TransGen r.Leads p q ↔ r.Leads p q := by
  refine ⟨fun h ↦ ?_, .single⟩
  induction h with
  | single h => exact h
  | @tail m q _ h ih =>
    by_contra hq
    have hnew : ⟨p, q⟩ ∈ r.derived := mem_derived.mpr ⟨mem_joined.mpr ⟨m, ih, h⟩, hq⟩
    rw [List.isEmpty_iff.mp hr] at hnew
    exact List.not_mem_nil hnew

theorem mem_close {r : Hops} {p q : State} (n : Nat) :
    ⟨p, q⟩ ∈ (r.close n).1 ↔ TransGen r.Leads p q := by
  fun_induction close r n with
  | case1 r n h => exact (transGen_of_derived_isEmpty h).symm
  | case2 r n h ih => exact ih.trans transGen_extended

theorem mem_closure {r : Hops} {p q : State} : ⟨p, q⟩ ∈ r.closure ↔ TransGen r.Leads p q :=
  mem_close 0

/-- A transitive relation is left as it is, by one pass that finds nothing. -/
theorem close_of_isTrans {r : Hops} (h : IsTrans State r.Leads) (n : Nat) :
    r.close n = (r, n + 1) := by
  have hempty : r.derived.isEmpty = true := by
    rw [List.isEmpty_iff, List.eq_nil_iff_forall_not_mem]
    intro hop hhop
    obtain ⟨hjoined, hnew⟩ := mem_derived.mp hhop
    obtain ⟨m, hp, hq⟩ := mem_joined.mp hjoined
    exact hnew (h.trans _ _ _ hp hq)
  rw [close, if_pos hempty]

end LineSearch.Hops
