import LineSearch.Proofs.Automaton.Combinators

namespace LineSearch

/-- Wherever the action succeeds it has taken so many new states. -/
def Spends {α : Type} (x : Build α) (n : Nat) : Prop :=
  ∀ w a w', x w = .ok (a, w') → w'.next = w.next + n

namespace Spends

variable {α β : Type} {x : Build α} {f : α → Build β} {m n : Nat}

theorem pure (a : α) : Spends (pure a) 0 := by
  intro w b w' h
  cases h
  rfl

theorem bind (hx : Spends x m) (hf : ∀ a, Spends (f a) n) : Spends (x >>= f) (m + n) := by
  intro w b w' h
  obtain ⟨a, v, ha, hb⟩ := Build.of_bind_eq_ok h
  rw [hf a v b w' hb, hx w a v ha, Nat.add_assoc]

theorem fresh : Spends Build.fresh 1 := by
  intro w q w' h
  cases h
  rfl

theorem note (e : Event) : Spends (Build.note e) 0 := by
  intro w _ w' h
  cases h
  rfl

theorem lift (e : Except AutomatonError α) : Spends (liftM e : Build α) 0 := by
  intro w a w' h
  cases e with
  | error e => cases h
  | ok a =>
    cases h
    rfl

end Spends

namespace Automaton

theorem spends_literal (c : Char) :
    Spends (literal c) (if c = Alphabet.emptySign then 1 else 2) := by
  intro w a w' h
  rw [literal_eq_ok] at h
  cases h
  rfl

variable (a b : Automaton)

theorem spends_eliminate (seeds : List Transition) : Spends (a.eliminate seeds) 0 :=
  (Spends.lift _).bind fun _ ↦ (Spends.note _).bind fun _ ↦ .lift _

theorem spends_union : Spends (a.union b) 1 :=
  Spends.fresh.bind fun _ ↦ (Spends.lift _).bind fun merged ↦ spends_eliminate merged _

theorem spends_concat : Spends (a.concat b) 0 :=
  (Spends.lift _).bind fun merged ↦ spends_eliminate merged _

theorem spends_star : Spends a.star 1 :=
  Spends.fresh.bind fun _ ↦ (Spends.lift _).bind fun merged ↦ spends_eliminate merged _

end Automaton

end LineSearch
