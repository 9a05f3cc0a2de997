import LineSearch.Proofs.Compile.Numbering
import LineSearch.Proofs.Occurrence
import LineSearch.Proofs.Syntax.Parsing

namespace LineSearch

open Automaton

namespace Tree

/-- The rule of the first node that does not pass its child through. -/
def level : Tree → Rule
  | terminal _ | paren _ => .atom
  | star _ => .star
  | concat _ _ => .concat
  | union _ _ => .union
  | unstarred t | factor t | alternative t => t.level

/-- No operand would have to be put in parentheses. -/
def PrecedenceSafe : Tree → Prop
  | terminal _ => True
  | paren t | unstarred t | factor t | alternative t => t.PrecedenceSafe
  | star t => (t.level = .atom ∨ t.level = .star) ∧ t.PrecedenceSafe
  | concat l r => (l.level ≠ .union ∧ r.level ≠ .union) ∧ l.PrecedenceSafe ∧ r.PrecedenceSafe
  | union l r => l.PrecedenceSafe ∧ r.PrecedenceSafe

def terminals : Tree → List Char
  | terminal c => [c]
  | paren t | unstarred t | star t | factor t | alternative t => t.terminals
  | concat l r | union l r => l.terminals ++ r.terminals

/-- The trees are written, nested and flattened alike. They may differ in how their chains are
bracketed and in nodes that pass their child through. -/
structure Alike (t u : Tree) : Prop where
  chars_eq : t.chars = u.chars
  nesting_eq : t.nesting = u.nesting
  flat_eq : t.flat = u.flat

namespace Alike

variable {t u v l l' m r r' : Tree}

theorem refl (t : Tree) : Alike t t := ⟨rfl, rfl, rfl⟩

theorem trans (h : Alike t u) (h' : Alike u v) : Alike t v :=
  ⟨h.chars_eq.trans h'.chars_eq, h.nesting_eq.trans h'.nesting_eq, h.flat_eq.trans h'.flat_eq⟩

theorem paren (h : Alike t u) : Alike (paren t) (paren u) := by
  refine ⟨?_, ?_, h.flat_eq⟩
  · rw [chars, chars, h.chars_eq]
  · rw [nesting, nesting, h.nesting_eq]

theorem star (h : Alike t u) : Alike (star t) (star u) := by
  refine ⟨?_, h.nesting_eq, ?_⟩
  · rw [chars, chars, h.chars_eq]
  · rw [flat, flat, h.flat_eq]

theorem concat (hl : Alike l l') (hr : Alike r r') : Alike (concat l r) (concat l' r') := by
  constructor
  · rw [chars, chars, hl.chars_eq, hr.chars_eq]
  · rw [nesting, nesting, hl.nesting_eq, hr.nesting_eq]
  · rw [flat, flat, hl.flat_eq, hr.flat_eq]

theorem union (hl : Alike l l') (hr : Alike r r') : Alike (union l r) (union l' r') := by
  constructor
  · rw [chars, chars, hl.chars_eq, hr.chars_eq]
  · rw [nesting, nesting, hl.nesting_eq, hr.nesting_eq]
  · rw [flat, flat, hl.flat_eq, hr.flat_eq]

theorem concat_assoc (l m r : Tree) :
    Alike (.concat l (.concat m r)) (.concat (.concat l m) r) := by
  refine ⟨?_, ?_, (flat_concat_assoc l m r).symm⟩
  · simp only [chars, List.append_assoc]
  · simp only [nesting, max_assoc]

theorem union_assoc (l m r : Tree) : Alike (.union l (.union m r)) (.union (.union l m) r) := by
  refine ⟨?_, ?_, (flat_union_assoc l m r).symm⟩
  · simp only [chars, List.append_assoc, List.cons_append]
  · simp only [nesting, max_assoc]

end Alike

def Restatable (rule : Rule) (t : Tree) : Prop := ∃ u, Derivable rule u ∧ Alike t u

namespace Restatable

variable {l r t : Tree}

theorem unstarred (h : Restatable .atom t) : Restatable .star t := by
  obtain ⟨u, hu, hlike⟩ := h
  exact ⟨_, hu.unstarred, hlike.trans ⟨rfl, rfl, rfl⟩⟩

theorem factor (h : Restatable .star t) : Restatable .concat t := by
  obtain ⟨u, hu, hlike⟩ := h
  exact ⟨_, hu.factor, hlike.trans ⟨rfl, rfl, rfl⟩⟩

theorem alternative (h : Restatable .concat t) : Restatable .union t := by
  obtain ⟨u, hu, hlike⟩ := h
  exact ⟨_, hu.alternative, hlike.trans ⟨rfl, rfl, rfl⟩⟩

theorem star_of_level (h : Restatable t.level t) (hlevel : t.level = .atom ∨ t.level = .star) :
    Restatable .star t := by
  rcases hlevel with hlevel | hlevel
  · exact (hlevel ▸ h).unstarred
  · exact hlevel ▸ h

theorem concat_of_level (h : Restatable t.level t) (hlevel : t.level ≠ .union) :
    Restatable .concat t := by
  cases hrule : t.level with
  | atom => exact (h.star_of_level (Or.inl hrule)).factor
  | star => exact (h.star_of_level (Or.inr hrule)).factor
  | concat => exact hrule ▸ h
  | union => exact absurd hrule hlevel

theorem union_of_level (h : Restatable t.level t) : Restatable .union t := by
  by_cases hlevel : t.level = .union
  · exact hlevel ▸ h
  · exact (h.concat_of_level hlevel).alternative

theorem concat_of_derivable (hl : Derivable .concat l) (hr : Derivable .concat r) :
    Restatable .concat (concat l r) := by
  generalize hrule : Rule.concat = rule at hr
  induction hr with
  | factor h => exact ⟨_, hl.concat h, rfl, rfl, rfl⟩
  | @concat m s _ hs ih =>
    obtain ⟨u, hu, hlike⟩ := ih hrule
    exact ⟨_, hu.concat hs, (Alike.concat_assoc l m s).trans (hlike.concat (.refl s))⟩
  | _ => cases hrule

theorem union_of_derivable (hl : Derivable .union l) (hr : Derivable .union r) :
    Restatable .union (union l r) := by
  generalize hrule : Rule.union = rule at hr
  induction hr with
  | alternative h => exact ⟨_, hl.union h, rfl, rfl, rfl⟩
  | @union m s _ hs ih =>
    obtain ⟨u, hu, hlike⟩ := ih hrule
    exact ⟨_, hu.union hs, (Alike.union_assoc l m s).trans (hlike.union (.refl s))⟩
  | _ => cases hrule

theorem concat (hl : Restatable .concat l) (hr : Restatable .concat r) :
    Restatable .concat (concat l r) := by
  obtain ⟨l', hl', hlikel⟩ := hl
  obtain ⟨r', hr', hliker⟩ := hr
  obtain ⟨u, hu, hlike⟩ := concat_of_derivable hl' hr'
  exact ⟨u, hu, (hlikel.concat hliker).trans hlike⟩

theorem union (hl : Restatable .union l) (hr : Restatable .union r) :
    Restatable .union (union l r) := by
  obtain ⟨l', hl', hlikel⟩ := hl
  obtain ⟨r', hr', hliker⟩ := hr
  obtain ⟨u, hu, hlike⟩ := union_of_derivable hl' hr'
  exact ⟨u, hu, (hlikel.union hliker).trans hlike⟩

theorem star (h : Restatable .star t) : Restatable .star (star t) := by
  obtain ⟨u, hu, hlike⟩ := h
  exact ⟨_, hu.star, hlike.star⟩

theorem paren (h : Restatable .union t) : Restatable .atom (paren t) := by
  obtain ⟨u, hu, hlike⟩ := h
  exact ⟨_, hu.paren, hlike.paren⟩

end Restatable

theorem restatable {t : Tree} (hsafe : t.PrecedenceSafe)
    (hterminals : ∀ c ∈ t.terminals, IsTerminal c) : Restatable t.level t := by
  induction t with
  | terminal c => exact ⟨_, .terminal (hterminals c (List.mem_singleton_self c)), .refl _⟩
  | paren t ih => exact (ih hsafe hterminals).union_of_level.paren
  | star t ih => exact ((ih hsafe.2 hterminals).star_of_level hsafe.1).star
  | concat l r ihl ihr =>
    obtain ⟨⟨hl, hr⟩, hsafel, hsafer⟩ := hsafe
    obtain ⟨htl, htr⟩ := List.forall_mem_append.mp hterminals
    exact ((ihl hsafel htl).concat_of_level hl).concat ((ihr hsafer htr).concat_of_level hr)
  | union l r ihl ihr =>
    obtain ⟨htl, htr⟩ := List.forall_mem_append.mp hterminals
    exact (ihl hsafe.1 htl).union_of_level.union (ihr hsafe.2 htr).union_of_level
  | unstarred t ih | factor t ih | alternative t ih =>
    obtain ⟨u, hu, hlike⟩ := ih hsafe hterminals
    exact ⟨u, hu, ⟨hlike.chars_eq, hlike.nesting_eq, hlike.flat_eq⟩⟩

theorem parse_text {t : Tree} (hd : Derivable .union t) (hn : t.nesting ≤ 256) :
    Tree.parse t.text = .ok t := by
  rw [parse_eq_read, toList_text, if_neg t.chars_ne_nil]
  exact (read_finish_eq_ok_iff (Nat.zero_le _) 0 _ t).mpr ⟨⟨hd, hn⟩, rfl⟩

theorem language_draft (t : Tree) (k : Nat) : (t.flat.draft k).automaton.language = t.language := by
  obtain ⟨w, ht, _⟩ := t.madeFlat [] ⟨k, #[]⟩ (Held.nil _)
  obtain ⟨a, w', ha, _, hlanguage⟩ := t.makes_compile [] ⟨k, #[]⟩ (Held.nil _)
  obtain ⟨rfl, _⟩ := Prod.mk.inj (Except.ok.inj (ha.symm.trans (Build.bind_eq ht)))
  exact hlanguage

theorem language_eq_of_flat_eq {t u : Tree} (h : t.flat = u.flat) : t.language = u.language := by
  rw [← t.language_draft 0, h, u.language_draft]

end Tree

namespace Pattern

variable {p p' : Pattern} {t u : Tree}

theorem source_of_ofTree {w w' : Workshop} (h : ofTree t w = .ok (p, w')) : p.source = t.text := by
  obtain ⟨bare, w₁, _, h⟩ := Build.of_bind_eq_ok h
  obtain ⟨copy, w₂, _, h⟩ := Build.of_bind_eq_ok h
  obtain ⟨search, w₃, _, h⟩ := Build.of_bind_eq_ok h
  obtain ⟨_, w₄, _, h⟩ := Build.of_bind_eq_ok h
  obtain ⟨rfl, _⟩ := Prod.mk.inj (Except.ok.inj h)
  rfl

theorem Finds.eq_of_language_eq (h : p.Finds t) (h' : p'.Finds u) (heq : t.language = u.language)
    (s : String) : p'.occursIn s = p.occursIn s ∧ p'.describes s = p.describes s := by
  constructor
  · rw [Bool.eq_iff_iff, h.occursIn_iff, h'.occursIn_iff, heq]
  · rw [Bool.eq_iff_iff, h.describes_iff, h'.describes_iff, heq]

end Pattern

namespace Tree

/-- The pattern of a tree in which no operand lacks parentheses is parsed, and what is parsed is
compiled like the tree, but for the numbers of the states, and matches as the tree does. -/
theorem reparse_text {t : Tree} (hsafe : t.PrecedenceSafe)
    (hterminals : ∀ c ∈ t.terminals, IsTerminal c) (hnesting : t.nesting ≤ 256) :
    (∃ u, Tree.parse t.text = .ok u ∧ ∀ w w', ∃ a b v v',
      t.compile w = .ok (a, v) ∧ u.compile w' = .ok (b, v') ∧ a.Matches b ∧ b.graph = a.graph) ∧
    ∀ w, ∃ p w' p' events,
      Pattern.ofTree t w = .ok (p, w') ∧ Pattern.ofString p.source = .ok (p', events) ∧
      ∀ s, p'.occursIn s = p.occursIn s ∧ p'.describes s = p.describes s := by
  obtain ⟨u, hu, hlike⟩ := (restatable hsafe hterminals).union_of_level
  have htext : t.text = u.text := by
    rw [text_eq_iff, toList_text, hlike.chars_eq]
  have hparse : Tree.parse t.text = .ok u := by
    rw [htext]
    exact parse_text hu (hlike.nesting_eq ▸ hnesting)
  refine ⟨⟨u, hparse, compile_matches hlike.flat_eq⟩, fun w ↦ ?_⟩
  obtain ⟨p, w', hp, hfinds⟩ := Pattern.ofTree_finds t w
  rw [← Pattern.source_of_ofTree hp] at hparse
  obtain ⟨p', events, hp', hfinds'⟩ := Pattern.ofString_finds hparse
  exact ⟨p, w', p', events, hp, hp',
    hfinds.eq_of_language_eq hfinds' (language_eq_of_flat_eq hlike.flat_eq)⟩

theorem reparse_text_rightmost :
    let inner := union (terminal 'c') (union (factor (star (terminal 'd'))) epsilon)
    let t := concat (terminal 'a') (concat (star (unstarred (terminal 'b'))) (paren inner))
    (t.PrecedenceSafe ∧ (∀ c ∈ t.terminals, IsTerminal c) ∧ t.nesting ≤ 256) ∧
    t.text = "ab*(c|d*|-)" ∧
    (∃ u, Tree.parse t.text = .ok u ∧ ∀ w w', ∃ a b v v',
      t.compile w = .ok (a, v) ∧ u.compile w' = .ok (b, v') ∧ a.Matches b ∧ b.graph = a.graph) ∧
    ∀ w, ∃ p w' p' events,
      Pattern.ofTree t w = .ok (p, w') ∧ Pattern.ofString p.source = .ok (p', events) ∧
      ∀ s, p'.occursIn s = p.occursIn s ∧ p'.describes s = p.describes s := by
  intro inner t
  have hsafe : t.PrecedenceSafe := by simp [t, inner, PrecedenceSafe, level, epsilon]
  have hterminals : ∀ c ∈ t.terminals, IsTerminal c := by
    simp [t, inner, terminals, epsilon, IsTerminal, Alphabet.emptySign, Alphabet.isSupported]
  have hnesting : t.nesting ≤ 256 := by decide
  have htext : t.text = "ab*(c|d*|-)" := by
    rw [text_eq_iff]
    rfl
  exact ⟨⟨hsafe, hterminals, hnesting⟩, htext, reparse_text hsafe hterminals hnesting⟩

end Tree

end LineSearch
