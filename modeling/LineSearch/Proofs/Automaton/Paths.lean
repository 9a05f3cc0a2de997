import LineSearch.Automaton.Simulation
import Mathlib.Computability.Language

namespace LineSearch

section Members

variable {α : Type} [Ord α] [Std.TransOrd α] [Std.LawfulEqOrd α] {a b : α} {s : Std.ExtTreeSet α}

theorem mem_insert_iff : a ∈ s.insert b ↔ a = b ∨ a ∈ s := by
  simp [@eq_comm _ a b]

theorem mem_singleton_iff : a ∈ ({b} : Std.ExtTreeSet α) ↔ a = b := by
  simp [@eq_comm _ a b]

theorem mem_pair_iff {c : α} : a ∈ ({b, c} : Std.ExtTreeSet α) ↔ a = b ∨ a = c :=
  mem_insert_iff.trans (or_congr_right mem_singleton_iff)

theorem nodup_toList (s : Std.ExtTreeSet α) : s.toList.Nodup :=
  Std.ExtTreeSet.distinct_toList.imp fun hne heq ↦ hne (by simp [heq])

theorem toList_perm_of_mem_iff {members : List α} (hnodup : members.Nodup)
    (h : ∀ a, a ∈ s ↔ a ∈ members) : s.toList.Perm members := by
  apply (List.perm_ext_iff_of_nodup (nodup_toList s) hnodup).mpr
  intro a
  rw [Std.ExtTreeSet.mem_toList, h]

theorem size_eq_length_of_mem_iff {members : List α} (hnodup : members.Nodup)
    (h : ∀ a, a ∈ s ↔ a ∈ members) : s.size = members.length := by
  rw [← Std.ExtTreeSet.length_toList]
  exact (toList_perm_of_mem_iff hnodup h).length_eq

end Members

namespace Automaton

/-- Transitions that read the text one after the other. Empty transitions are not followed. -/
inductive Path (ts : Transitions) : State → List Char → State → Prop
  | nil (p : State) : Path ts p [] p
  | cons {c : Char} {p q r : State} {text : List Char} :
      Transition.symbol c p q ∈ ts → Path ts q text r → Path ts p (c :: text) r

namespace Path

variable {ts us : Transitions} {p q r : State} {c : Char} {text more : List Char}

theorem nil_iff : Path ts p [] q ↔ p = q := by
  constructor
  · intro h
    cases h
    rfl
  · intro h
    exact h ▸ .nil p

theorem cons_iff :
    Path ts p (c :: text) r ↔ ∃ q, Transition.symbol c p q ∈ ts ∧ Path ts q text r := by
  constructor
  · intro h
    cases h with
    | cons hc h => exact ⟨_, hc, h⟩
  · intro h
    obtain ⟨q, hc, h⟩ := h
    exact .cons hc h

theorem append (h : Path ts p text q) (h' : Path ts q more r) : Path ts p (text ++ more) r := by
  induction h with
  | nil => exact h'
  | cons hc _ ih => exact .cons hc (ih h')

theorem append_iff :
    Path ts p (text ++ more) q ↔ ∃ m, Path ts p text m ∧ Path ts m more q := by
  constructor
  · intro h
    induction text generalizing p with
    | nil => exact ⟨p, .nil p, h⟩
    | cons c text ih =>
      obtain ⟨r, hc, h⟩ := Path.cons_iff.mp h
      obtain ⟨m, hm, hq⟩ := ih h
      exact ⟨m, .cons hc hm, hq⟩
  · intro h
    obtain ⟨m, hm, hq⟩ := h
    exact hm.append hq

theorem mono (h : Path ts p text q) (hsub : ∀ t ∈ ts, t ∈ us) : Path us p text q := by
  induction h with
  | nil p => exact .nil p
  | cons hc _ ih => exact .cons (hsub _ hc) ih

theorem mem_states {a : Automaton} (ha : a.WellFormed) (h : Path a.transitions p text q)
    (hp : p ∈ a.states) : q ∈ a.states := by
  induction h with
  | nil => exact hp
  | cons hc _ ih => exact ih (ha.joins _ hc).2

end Path

def languageFrom (a : Automaton) (p : State) : Language Char :=
  {text | ∃ q ∈ a.finals, Path a.transitions p text q}

def language (a : Automaton) : Language Char := a.languageFrom a.start

theorem mem_languageFrom {a : Automaton} {p : State} {text : List Char} :
    text ∈ a.languageFrom p ↔ ∃ q ∈ a.finals, Path a.transitions p text q := Iff.rfl

theorem nil_mem_languageFrom {a : Automaton} {p : State} (hp : p ∈ a.finals) :
    [] ∈ a.languageFrom p := ⟨p, hp, .nil p⟩

theorem cons_mem_languageFrom {a : Automaton} {c : Char} {p q : State} {text : List Char}
    (hc : Transition.symbol c p q ∈ a.transitions) (h : text ∈ a.languageFrom q) :
    c :: text ∈ a.languageFrom p := by
  obtain ⟨r, hr, h⟩ := h
  exact ⟨r, hr, .cons hc h⟩

theorem simulateCounting_step_iff (a : Automaton) (read : Nat) (active : States)
    (text : List Char) :
    (simulateCounting a.step a.finals read active text).1 = true ↔
      ∃ p ∈ active, ∃ q ∈ a.finals, Path a.transitions p text q := by
  induction text generalizing active read with
  | nil =>
    simp only [simulateCounting, List.any_eq_true, Std.ExtTreeSet.mem_toList, decide_eq_true_eq,
      Path.nil_iff]
    constructor
    · intro h
      obtain ⟨q, hq, hfinal⟩ := h
      exact ⟨q, hq, q, hfinal, rfl⟩
    · intro h
      obtain ⟨p, hp, q, hfinal, rfl⟩ := h
      exact ⟨p, hp, hfinal⟩
  | cons c text ih =>
    have hnext : (∃ p ∈ active, ∃ q ∈ a.finals, Path a.transitions p (c :: text) q) ↔
        ∃ p ∈ a.step active c, ∃ q ∈ a.finals, Path a.transitions p text q := by
      constructor
      · intro h
        obtain ⟨p, hp, q, hfinal, h⟩ := h
        obtain ⟨r, hc, h⟩ := Path.cons_iff.mp h
        exact ⟨r, mem_step.mpr ⟨p, hp, hc⟩, q, hfinal, h⟩
      · intro h
        obtain ⟨r, hr, q, hfinal, h⟩ := h
        obtain ⟨p, hp, hc⟩ := mem_step.mp hr
        exact ⟨p, hp, q, hfinal, .cons hc h⟩
    rw [hnext, simulateCounting]
    split
    · next hempty =>
      rw [Std.ExtTreeSet.isEmpty_iff.mp hempty]
      simp
    · exact ih _ _

theorem mem_language_iff_accepts {a : Automaton} {text : List Char} :
    text ∈ a.language ↔ a.accepts text = true := by
  rw [accepts, simulate, simulateCounting_step_iff, language, mem_languageFrom]
  simp

theorem accepts_eq_of_language_eq {a b : Automaton} (h : a.language = b.language) :
    a.accepts = b.accepts := by
  funext text
  rw [Bool.eq_iff_iff, ← mem_language_iff_accepts, ← mem_language_iff_accepts, h]

end Automaton

end LineSearch
