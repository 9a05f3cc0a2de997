import LineSearch.Pattern
import LineSearch.Proofs.Automaton.Renaming
import LineSearch.Proofs.Compile.Language

namespace LineSearch

open Automaton
open scoped Computability

def padding : Language Char := {text | ∀ c ∈ text, Alphabet.isSupported c = true}

theorem mem_padding {text : List Char} :
    text ∈ padding ↔ ∀ c ∈ text, Alphabet.isSupported c = true := Iff.rfl

theorem kstar_singleSymbols : singleSymbols∗ = padding := by
  ext text
  rw [Language.mem_kstar, mem_padding]
  constructor
  · intro h c hc
    obtain ⟨texts, rfl, htexts⟩ := h
    obtain ⟨u, hu, hc⟩ := List.mem_flatten.mp hc
    obtain ⟨d, hd, rfl⟩ := htexts u hu
    exact List.mem_singleton.mp hc ▸ hd
  · intro h
    refine ⟨text.map ([·]), ?_, fun u hu ↦ ?_⟩
    · induction text with
      | nil => rfl
      | cons c text ih =>
        rw [List.map_cons, List.flatten_cons, ← ih (fun d hd ↦ h d (List.mem_cons_of_mem c hd))]
        rfl
    · obtain ⟨c, hc, rfl⟩ := List.mem_map.mp hu
      exact ⟨c, h c hc, rfl⟩

theorem makes_padding : Makes (anySymbol >>= star) [] (·.language = padding) := by
  have hany : Makes anySymbol [] (·.language = singleSymbols) :=
    makes_anySymbol (fun start accept h ↦ language_anySymbolBetween h)
  have hstar (a : Automaton) (ha : a.language = singleSymbols) :
      Makes a.star [a] (·.language = padding) := by
    refine makes_star (fun head hwell hhead ↦ ?_)
    rw [language_starFrom hwell hhead, ha, kstar_singleSymbols]
  exact hany.bind hstar

theorem makes_concat_language (a b : Automaton) :
    Makes (a.concat b) [a, b] (·.language = a.language * b.language) :=
  makes_concat (fun ha hb hab ↦ language_concatOf ha hb hab)

theorem makes_somewhere (a : Automaton) :
    Makes a.somewhere [a] (·.language = padding * a.language * padding) := by
  have hop (b c : Automaton) (K L : Language Char) (hb : b.language = K) (hc : c.language = L) :
      Makes (b.concat c) [b, c] (·.language = K * L) := by
    rw [← hb, ← hc]
    exact makes_concat_language b c
  exact makes_somewhere_of (D := fun L b ↦ b.language = L) (· * ·) padding a.language
    makes_padding hop rfl

namespace Pattern

structure Finds (p : Pattern) (t : Tree) : Prop where
  tree_eq : p.tree = t
  describes_iff : ∀ text, p.describes text = true ↔ text.toList ∈ t.language
  occursIn_iff : ∀ line, p.occursIn line = true ↔ line.toList ∈ padding * t.language * padding

theorem ofTree_finds (t : Tree) (w : Workshop) :
    ∃ p w', ofTree t w = .ok (p, w') ∧ p.Finds t := by
  obtain ⟨bare, w₁, hbare, hheld₁, hlang⟩ := t.makes_compile [] w (Held.nil w)
  obtain ⟨copy, w₂, hcopy, hheld₂, hsame⟩ := duplicate_held hheld₁
  obtain ⟨search, w₃, hsearch, hheld₃, hfound⟩ := makes_somewhere copy [bare] w₂ hheld₂
  refine ⟨⟨t.text, t, bare, .ofAutomaton search, search.size⟩,
    { w₃ with events := w₃.events.push (.readyToSearch search.size) }, ?_, rfl, fun text ↦ ?_,
    fun line ↦ ?_⟩
  · exact (Build.bind_eq hbare).trans ((Build.bind_eq hcopy).trans (Build.bind_eq hsearch))
  · rw [← hlang, mem_language_iff_accepts]
    rfl
  · rw [← hlang, ← hsame, ← hfound, mem_language_iff_accepts, occursIn,
      TransitionTable.accepts_ofAutomaton]

theorem ofString_finds {source : String} {t : Tree} (h : Tree.parse source = .ok t) :
    ∃ p events, ofString source = .ok (p, events) ∧ p.Finds t := by
  obtain ⟨p, w, hp, hfinds⟩ := ofTree_finds t .empty
  refine ⟨{ p with source }, w.events.toList, ?_, ?_⟩
  · simp only [ofString, h, make, hp, Except.map]
  · exact ⟨hfinds.tree_eq, hfinds.describes_iff, hfinds.occursIn_iff⟩

/-- The line has a part that the pattern describes, with supported characters alone around it. -/
def HasPart (p : Pattern) (line : String) : Prop :=
  ∃ before middle after, line = before ++ middle ++ after ∧
    (∀ c ∈ before.toList, Alphabet.isSupported c = true) ∧
    (∀ c ∈ after.toList, Alphabet.isSupported c = true) ∧ p.describes middle = true

theorem Finds.hasPart_iff {p : Pattern} {t : Tree} (h : p.Finds t) (line : String) :
    p.HasPart line ↔ p.occursIn line = true := by
  rw [h.occursIn_iff]
  constructor
  · intro hpart
    obtain ⟨before, middle, after, rfl, hbefore, hafter, hmiddle⟩ := hpart
    rw [String.toList_append, String.toList_append]
    exact Language.append_mem_mul
      (Language.append_mem_mul hbefore ((h.describes_iff middle).mp hmiddle)) hafter
  · intro hline
    obtain ⟨opened, hopened, after, hafter, heq⟩ := Language.mem_mul.mp hline
    obtain ⟨before, hbefore, middle, hmiddle, rfl⟩ := Language.mem_mul.mp hopened
    refine ⟨.ofList before, .ofList middle, .ofList after, ?_, ?_, ?_, ?_⟩
    · rw [← String.toList_inj]
      simp only [String.toList_append, String.toList_ofList, heq]
    · rwa [String.toList_ofList]
    · rwa [String.toList_ofList]
    · rw [h.describes_iff, String.toList_ofList]
      exact hmiddle

/-- A pattern made from a tree, in whatever workshop, or from a text that parses occurs in a line
exactly if a part of the line with supported characters alone around it is described, that is, in
the language of the tree. -/
theorem occursIn_iff_hasPart :
    (∀ t w, ∃ p w', ofTree t w = .ok (p, w') ∧
      (∀ line, p.occursIn line = true ↔ p.HasPart line) ∧
      ∀ text, p.describes text = true ↔ text.toList ∈ t.language) ∧
    ∀ source t, Tree.parse source = .ok t → ∃ p events, ofString source = .ok (p, events) ∧
      (∀ line, p.occursIn line = true ↔ p.HasPart line) ∧
      ∀ text, p.describes text = true ↔ text.toList ∈ t.language := by
  constructor
  · intro t w
    obtain ⟨p, w', hp, hfinds⟩ := ofTree_finds t w
    exact ⟨p, w', hp, fun line ↦ (hfinds.hasPart_iff line).symm, hfinds.describes_iff⟩
  · intro source t h
    obtain ⟨p, events, hp, hfinds⟩ := ofString_finds h
    exact ⟨p, events, hp, fun line ↦ (hfinds.hasPart_iff line).symm, hfinds.describes_iff⟩

theorem occursIn_iff_hasPart_star :
    Tree.parse "a*" = .ok (.alternative (.factor (.star (.unstarred (.terminal 'a'))))) ∧
    ∃ p events, ofString "a*" = .ok (p, events) ∧
      (∀ line, p.occursIn line = true ↔ p.HasPart line) ∧
      ∀ text, p.describes text = true ↔
        text.toList ∈
          (Tree.alternative (.factor (.star (.unstarred (.terminal 'a'))))).language := by
  have h : Tree.parse "a*" = .ok (.alternative (.factor (.star (.unstarred (.terminal 'a'))))) := by
    rfl
  exact ⟨h, occursIn_iff_hasPart.2 _ _ h⟩

end Pattern

end LineSearch
