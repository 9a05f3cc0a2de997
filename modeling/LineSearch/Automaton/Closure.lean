import LineSearch.Automaton.Basic
import LineSearch.Index

namespace LineSearch

structure Hop where
  source : State
  destination : State
  deriving DecidableEq

namespace Hop

instance : Ord Hop := ⟨compareLex (compareOn source) (compareOn destination)⟩

instance : Std.TransOrd Hop :=
  inferInstanceAs (Std.TransCmp (compareLex (compareOn source) (compareOn destination)))

instance : Std.LawfulEqOrd Hop where
  eq_of_compare {g h} e := by
    cases g; cases h
    obtain ⟨hs, hd⟩ := compareLex_eq_eq.mp e
    simp only [mk.injEq]
    exact ⟨Std.LawfulEqOrd.eq_of_compare hs, Std.LawfulEqOrd.eq_of_compare hd⟩

end Hop

abbrev Hops := Std.ExtTreeSet Hop

namespace Hops

def joined (r : Hops) : List Hop :=
  let leaving := Index.ofList Hop.source r.toList
  r.toList.flatMap (fun h ↦
    (leaving.find h.destination).map (fun next ↦ ⟨h.source, next.destination⟩))

def derived (r : Hops) : List Hop := r.joined.filter (· ∉ r)

theorem mem_joined {r : Hops} {h : Hop} :
    h ∈ r.joined ↔ ∃ m, ⟨h.source, m⟩ ∈ r ∧ ⟨m, h.destination⟩ ∈ r := by
  simp only [joined, List.mem_flatMap, List.mem_map, Index.mem_find_ofList,
    Std.ExtTreeSet.mem_toList]
  constructor
  · rintro ⟨⟨p, m⟩, hfirst, ⟨_, q⟩, ⟨hnext, rfl⟩, rfl⟩
    exact ⟨_, hfirst, hnext⟩
  · rintro ⟨m, hfirst, hnext⟩
    exact ⟨⟨_, m⟩, hfirst, ⟨m, _⟩, ⟨hnext, rfl⟩, rfl⟩

theorem mem_derived {r : Hops} {h : Hop} : h ∈ r.derived ↔ h ∈ r.joined ∧ h ∉ r := by
  simp [derived]

/-- One pass: the relation with all that it finds. -/
def extended (r : Hops) : Hops := r.insertMany r.derived

theorem mem_extended {r : Hops} {h : Hop} : h ∈ r.extended ↔ h ∈ r ∨ h ∈ r.joined := by
  by_cases hr : h ∈ r <;> simp [extended, Std.ExtTreeSet.mem_insertMany_list, mem_derived, hr]

def sources (r : Hops) : States := .ofList (r.toList.map Hop.source)

def targets (r : Hops) : States := .ofList (r.toList.map Hop.destination)

theorem sources_extended (r : Hops) : r.extended.sources = r.sources := by
  apply Std.ExtTreeSet.ext_mem
  intro p
  simp only [sources, Std.ExtTreeSet.mem_ofList, List.contains_iff_mem, List.mem_map,
    Std.ExtTreeSet.mem_toList]
  constructor
  · rintro ⟨⟨_, q⟩, hq, rfl⟩
    rcases mem_extended.mp hq with hq | hq
    · exact ⟨⟨_, q⟩, hq, rfl⟩
    · obtain ⟨m, hm, _⟩ := mem_joined.mp hq
      exact ⟨⟨_, m⟩, hm, rfl⟩
  · rintro ⟨h, hh, rfl⟩
    exact ⟨h, mem_extended.mpr (Or.inl hh), rfl⟩

theorem targets_extended (r : Hops) : r.extended.targets = r.targets := by
  apply Std.ExtTreeSet.ext_mem
  intro q
  simp only [targets, Std.ExtTreeSet.mem_ofList, List.contains_iff_mem, List.mem_map,
    Std.ExtTreeSet.mem_toList]
  constructor
  · rintro ⟨⟨p, _⟩, hp, rfl⟩
    rcases mem_extended.mp hp with hp | hp
    · exact ⟨⟨p, _⟩, hp, rfl⟩
    · obtain ⟨m, _, hm⟩ := mem_joined.mp hp
      exact ⟨⟨m, _⟩, hm, rfl⟩
  · rintro ⟨h, hh, rfl⟩
    exact ⟨h, mem_extended.mpr (Or.inl hh), rfl⟩

def span (r : Hops) : List Hop :=
  r.sources.toList.flatMap (fun p ↦ r.targets.toList.map (fun q ↦ ⟨p, q⟩))

theorem mem_span_of_mem_joined {r : Hops} {h : Hop} (hh : h ∈ r.joined) : h ∈ r.span := by
  obtain ⟨m, hp, hq⟩ := mem_joined.mp hh
  simp only [span, sources, targets, List.mem_flatMap, List.mem_map, Std.ExtTreeSet.mem_toList,
    Std.ExtTreeSet.mem_ofList, List.contains_iff_mem]
  exact ⟨_, ⟨_, hp, rfl⟩, _, ⟨_, hq, rfl⟩, rfl⟩

def missing (r : Hops) : Nat := (r.span.filter (· ∉ r)).length

theorem missing_extended_lt {r : Hops} (h : r.derived ≠ []) : r.extended.missing < r.missing := by
  obtain ⟨new, hnew⟩ := List.exists_mem_of_ne_nil _ h
  obtain ⟨hjoined, hold⟩ := mem_derived.mp hnew
  have hspan : r.extended.span = r.span := by
    rw [span, span, sources_extended, targets_extended]
  have hsub (g : Hop) : decide (g ∉ r.extended) = (decide (g ∉ r.extended) && decide (g ∉ r)) := by
    by_cases hg : g ∈ r <;> simp [mem_extended, hg]
  rw [missing, missing, hspan, List.filter_congr (fun g _ ↦ hsub g), ← List.filter_filter]
  apply List.length_filter_lt_length_iff_exists.mpr
  exact ⟨new, List.mem_filter.mpr ⟨mem_span_of_mem_joined hjoined, by simpa using hold⟩,
    by simp [mem_extended, hjoined]⟩

/-- The closure, and the number of passes to it, the last one included. -/
def close (r : Hops) (passes : Nat) : Hops × Nat :=
  if r.derived.isEmpty then (r, passes + 1) else close r.extended (passes + 1)
termination_by r.missing
decreasing_by
  exact missing_extended_lt (fun h ↦ ‹¬_› (by simp [h]))

def closure (r : Hops) : Hops := (r.close 0).1

def passes (r : Hops) : Nat := (r.close 0).2

end Hops

end LineSearch
