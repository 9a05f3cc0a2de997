import LineSearch.Proofs.Compile.Valuation

namespace LineSearch

open Automaton
open scoped Computability

namespace Tree

def language : Tree → Language Char
  | terminal c => if c = Alphabet.emptySign then 1 else ({[c]} : Language Char)
  | paren t | unstarred t | factor t | alternative t => t.language
  | star t => t.language∗
  | concat l r => l.language * r.language
  | union l r => l.language + r.language

end Tree

def Valuation.language : Valuation (Language Char) where
  terminal c := if c = Alphabet.emptySign then 1 else ({[c]} : Language Char)
  star := KStar.kstar
  concat := (· * ·)
  union := (· + ·)
  concat_assoc := mul_assoc
  union_assoc := add_assoc

theorem Tree.value_language (t : Tree) : t.value Valuation.language = t.language := by
  induction t with
  | terminal c => rfl
  | paren t ih | unstarred t ih | factor t ih | alternative t ih => exact ih
  | star t ih => exact congrArg KStar.kstar ih
  | concat l r ihl ihr => exact congrArg₂ (· * ·) ihl ihr
  | union l r ihl ihr => exact congrArg₂ (· + ·) ihl ihr

theorem Valuation.describes_language :
    Valuation.language.Describes (fun L a ↦ a.language = L) where
  literal c start accept h := by
    by_cases hc : c = Alphabet.emptySign
    · subst hc
      rw [language_literalBetween_sign]
      rfl
    · rw [language_literalBetween h hc]
      exact (if_neg hc).symm
  star _ a head ha hhead h := by
    rw [language_starFrom ha hhead, h]
    rfl
  concat _ _ a b ha hb hab hl hr := by
    rw [language_concatOf ha hb hab, hl, hr]
    rfl
  union _ _ a b head ha hb hab hha hhb hl hr := by
    rw [language_unionFrom ha hb hab hha hhb, hl, hr]
    rfl

namespace Tree

theorem makes_compile (t : Tree) : Makes t.compile [] (·.language = t.language) := by
  refine Makes.mono ((makes_build Valuation.describes_language t).noted _) (fun a ha ↦ ?_)
  exact ha.trans t.value_language

/-- Compilation succeeds in every workshop and keeps the language of the tree. -/
theorem compile_language (t : Tree) (w : Workshop) :
    ∃ a w', t.compile w = .ok (a, w') ∧ a.isEpsilonFree = true ∧
      ∀ text, a.accepts text = true ↔ text ∈ t.language := by
  obtain ⟨a, w', ha, hheld, hlang⟩ := makes_compile t [] w (Held.nil w)
  refine ⟨a, w', ha, hheld.epsilonFree a List.mem_cons_self, fun text ↦ ?_⟩
  rw [← mem_language_iff_accepts, hlang]

end Tree

end LineSearch
