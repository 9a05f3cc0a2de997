import LineSearch.Proofs.Automaton.Elimination
import Mathlib.Data.Nat.Log
import Mathlib.Data.Nat.SuccPred
import Mathlib.Order.SuccPred.Archimedean

namespace LineSearch.Hops

open Relation (TransGen)

inductive Walk (r : Hops) : Nat → State → State → Prop
  | single {p q : State} (h : r.Leads p q) : Walk r 1 p q
  | cons {n : Nat} {p m q : State} (h : r.Leads p m) (rest : Walk r n m q) : Walk r (n + 1) p q

variable {r s : Hops} {p q m : State} {k n : Nat}

namespace Walk

theorem pos (h : r.Walk n p q) : 0 < n := by
  cases h <;> omega

theorem append (h : r.Walk k p m) (h' : r.Walk n m q) : r.Walk (k + n) p q := by
  induction h with
  | single h => simpa only [Nat.add_comm 1] using Walk.cons h h'
  | cons h _ ih => simpa only [Nat.add_right_comm] using Walk.cons h (ih h')

theorem exists_rest (h : r.Walk (n + 1) p q) (hn : 0 < n) : ∃ m, r.Leads p m ∧ r.Walk n m q := by
  cases h with
  | single h => omega
  | cons h rest => exact ⟨_, h, rest⟩

theorem exists_middle (h : r.Walk (k + n) p q) (hk : 0 < k) (hn : 0 < n) :
    ∃ m, r.Walk k p m ∧ r.Walk n m q := by
  induction k, hk using Nat.le_induction generalizing p with
  | base =>
    rw [Nat.add_comm] at h
    obtain ⟨m, hp, hq⟩ := h.exists_rest hn
    exact ⟨m, .single hp, hq⟩
  | succ k hk ih =>
    rw [Nat.add_right_comm] at h
    obtain ⟨m, hp, hrest⟩ := h.exists_rest (by omega)
    obtain ⟨m', hm, hq⟩ := ih hrest
    exact ⟨m', .cons hp hm, hq⟩

end Walk

theorem exists_walk_iff : (∃ n, r.Walk n p q) ↔ TransGen r.Leads p q := by
  constructor
  · intro h
    obtain ⟨n, h⟩ := h
    induction h with
    | single h => exact .single h
    | cons h _ ih => exact .head h ih
  · intro h
    induction h with
    | single h => exact ⟨1, .single h⟩
    | tail _ h ih =>
      obtain ⟨n, hn⟩ := ih
      exact ⟨n + 1, hn.append (.single h)⟩

/-- A relation of the pairs between which `r` has a path of at most `n` hops. -/
def Covers (r : Hops) (n : Nat) (s : Hops) : Prop :=
  ∀ p q, s.Leads p q ↔ ∃ k ≤ n, r.Walk k p q

theorem covers_self (r : Hops) : r.Covers 1 r := by
  intro p q
  constructor
  · intro h
    exact ⟨1, le_rfl, .single h⟩
  · intro h
    obtain ⟨k, hk, h⟩ := h
    cases h with
    | single h => exact h
    | cons h rest =>
      have := rest.pos
      omega

theorem Covers.extended (h : r.Covers n s) (hn : 0 < n) : r.Covers (2 * n) s.extended := by
  intro p q
  constructor
  · intro hpq
    rcases mem_extended.mp hpq with hpq | hpq
    · obtain ⟨k, hk, hwalk⟩ := (h p q).mp hpq
      exact ⟨k, by omega, hwalk⟩
    · obtain ⟨m, hp, hq⟩ := mem_joined.mp hpq
      obtain ⟨k, hk, hfirst⟩ := (h p m).mp hp
      obtain ⟨l, hl, hnext⟩ := (h m q).mp hq
      exact ⟨k + l, by omega, hfirst.append hnext⟩
  · intro hwalk
    obtain ⟨k, hk, hwalk⟩ := hwalk
    apply mem_extended.mpr
    by_cases hle : k ≤ n
    · exact Or.inl ((h p q).mpr ⟨k, hle, hwalk⟩)
    · obtain ⟨l, rfl⟩ := Nat.exists_eq_add_of_le (Nat.le_of_not_le hle)
      obtain ⟨m, hp, hq⟩ := hwalk.exists_middle hn (by omega)
      exact Or.inr (mem_joined.mpr ⟨m, (h p m).mpr ⟨n, le_rfl, hp⟩, (h m q).mpr ⟨l, by omega, hq⟩⟩)

def IsDistance (r : Hops) (n : Nat) : Prop := ∃ p q, IsLeast {k | r.Walk k p q} n

theorem exists_isLeast_walk (h : r.Walk n p q) : ∃ k, IsLeast {k | r.Walk k p q} k :=
  (OrderBot.bddBelow _).exists_isLeast_of_nonempty ⟨n, h⟩

/-- What a pass finds is further apart than what was covered before. -/
theorem Covers.exists_isDistance_lt (h : r.Covers n s) (hs : ¬s.derived.isEmpty = true) :
    ∃ k, r.IsDistance k ∧ n < k := by
  obtain ⟨⟨p, q⟩, hpq⟩ := List.exists_mem_of_ne_nil s.derived (by simpa using hs)
  obtain ⟨hjoined, hnew⟩ := mem_derived.mp hpq
  obtain ⟨m, hp, hq⟩ := mem_joined.mp hjoined
  obtain ⟨_, _, hfirst⟩ := (h p m).mp hp
  obtain ⟨_, _, hnext⟩ := (h m q).mp hq
  obtain ⟨k, hk⟩ := exists_isLeast_walk (hfirst.append hnext)
  refine ⟨k, ⟨p, q, hk⟩, ?_⟩
  by_contra hle
  exact hnew ((h p q).mpr ⟨k, Nat.le_of_not_lt hle, hk.1⟩)

/-- Where the passes from the one after `k` on end, and that each before the last was needed. -/
theorem close_of_covers (h : r.Covers (2 ^ k) s) :
    ∃ last, (s.close k).2 = last + 1 ∧ r.Covers (2 ^ last) (s.close k).1 ∧
      ∀ i, k ≤ i → i < last → ∃ n, r.IsDistance n ∧ 2 ^ i < n := by
  fun_induction close s k with
  | case1 s k hs =>
    refine ⟨k, rfl, h, fun i hi hlt ↦ ?_⟩
    omega
  | case2 s k hs ih =>
    have hnext : r.Covers (2 ^ (k + 1)) s.extended := by
      simpa only [Nat.pow_succ'] using h.extended (Nat.two_pow_pos k)
    obtain ⟨last, hpasses, hcovers, hneeded⟩ := ih hnext
    refine ⟨last, hpasses, hcovers, fun i hi hlt ↦ ?_⟩
    rcases Nat.eq_or_lt_of_le hi with rfl | hi
    · exact h.exists_isDistance_lt hs
    · exact hneeded i hi hlt

theorem close_empty (n : Nat) : close ∅ n = (∅, n + 1) :=
  close_of_isTrans ⟨fun _ _ _ h _ ↦ absurd h Std.ExtTreeSet.not_mem_empty⟩ n

theorem exists_isDistance (h : r ≠ ∅) : ∃ n, r.IsDistance n := by
  by_contra hnone
  refine h (Std.ExtTreeSet.ext_mem fun ⟨p, q⟩ ↦ iff_of_false (fun hpq ↦ ?_) ?_)
  · obtain ⟨n, hn⟩ := exists_isLeast_walk (.single hpq)
    exact hnone ⟨n, p, q, hn⟩
  · exact Std.ExtTreeSet.not_mem_empty

theorem exists_passes_eq (h : r ≠ ∅) :
    ∃ d, IsGreatest {n | r.IsDistance n} d ∧ r.passes = 1 + Nat.clog 2 d := by
  obtain ⟨last, hpasses, hcovers, hneeded⟩ := close_of_covers (k := 0) r.covers_self
  have hbound (n : Nat) (hn : r.IsDistance n) : n ≤ 2 ^ last := by
    obtain ⟨p, q, hwalk, hleast⟩ := hn
    have hpq : (r.close 0).1.Leads p q := (mem_close 0).mpr (exists_walk_iff.mp ⟨n, hwalk⟩)
    obtain ⟨k, hk, hshort⟩ := (hcovers p q).mp hpq
    exact (hleast hshort).trans hk
  obtain ⟨d, hd⟩ :=
    BddAbove.exists_isGreatest_of_nonempty ⟨2 ^ last, hbound⟩ (exists_isDistance h)
  have hlast : last = Nat.clog 2 d := by
    apply le_antisymm
    · by_contra hlt
      obtain ⟨n, hn, hfar⟩ := hneeded (Nat.clog 2 d) (Nat.zero_le _) (Nat.lt_of_not_le hlt)
      have hd' := Nat.le_pow_clog Nat.one_lt_two d
      have hn' := hd.2 hn
      omega
    · exact Nat.clog_le_of_le_pow (hbound d hd.1)
  exact ⟨d, hd, by rw [passes, hpasses, hlast, Nat.add_comm]⟩

/-- The passes end, at the least transitive relation that holds the seeds. An empty relation takes
one pass, and any other one as many more as it takes doublings to reach the longest of the shortest
paths. Elimination notes how many they were, with the numbers of pairs before and after. -/
theorem closure_by_doubling (r : Hops) :
    (∀ p q, r.closure.Leads p q ↔ ∃ n, r.Walk n p q) ∧
    IsLeast {S | r.Leads ≤ S ∧ IsTrans State S} r.closure.Leads ∧
    (r = ∅ ∧ r.passes = 1 ∨
      ∃ d, IsGreatest {n | r.IsDistance n} d ∧ r.passes = 1 + Nat.clog 2 d) ∧
    ∀ (a : Automaton) (seeds : List Transition) (w : Workshop), a.validated = .ok a →
      (∀ t ∈ seeds, t.isEpsilon = true ∧ a.Joins t) → Automaton.moves seeds = r →
      ∃ b, a.eliminate seeds w =
        .ok (b, { w with events := w.events.push (.closed r.size r.closure.size r.passes) }) := by
  have hclosure : r.closure.Leads = TransGen r.Leads := by
    ext p q
    exact mem_close 0
  rw [hclosure]
  refine ⟨fun p q ↦ exists_walk_iff.symm, ⟨⟨fun p q h ↦ .single h, inferInstance⟩, ?_⟩, ?_, ?_⟩
  · intro S hS
    obtain ⟨hr, htrans⟩ := hS
    rw [← Relation.transGen_eq_self (r := S)]
    exact TransGen.mono hr
  · rcases eq_or_ne r ∅ with rfl | hne
    · exact Or.inl ⟨rfl, by rw [passes, close_empty]⟩
    · exact Or.inr (exists_passes_eq hne)
  · rintro a seeds w ha hseeds rfl
    have hwell := (Automaton.wellFormed_of_validated ha).1
    exact ⟨_, Automaton.eliminate_eq_ok hwell hseeds w⟩

end LineSearch.Hops
