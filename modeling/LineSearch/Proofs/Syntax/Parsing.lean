import LineSearch.Proofs.Syntax.Grammar

namespace LineSearch

/-- A tree that a rule derives and that may stand inside `depth` pairs of parentheses. -/
def Tree.Fits (rule : Rule) (depth : Nat) (t : Tree) : Prop :=
  Derivable rule t ∧ t.nesting + depth ≤ 256

namespace Hole

def chars (h : Hole) : List Char :=
  h.alternatives.elim [] (·.chars ++ ['|']) ++ h.factors.elim [] (·.chars)

structure Fits (depth : Nat) (h : Hole) : Prop where
  alternatives : ∀ t ∈ h.alternatives, t.Fits .union depth
  factors : ∀ t ∈ h.factors, t.Fits .concat depth

variable {h : Hole} {t : Tree} {depth : Nat}

theorem Fits.concatWith (hh : h.Fits depth) (ht : t.Fits .star depth) :
    (h.concatWith t).Fits .concat depth := by
  unfold Hole.concatWith
  split
  · exact ⟨.factor ht.1, ht.2⟩
  · next before hb =>
    obtain ⟨hd, hn⟩ := hh.factors before hb
    refine ⟨.concat hd ht.1, ?_⟩
    have := ht.2
    simp only [Tree.nesting]
    omega

theorem Fits.unionWith (hh : h.Fits depth) (ht : t.Fits .star depth) :
    (h.unionWith t).Fits .union depth := by
  obtain ⟨hc, hcn⟩ := hh.concatWith ht
  unfold Hole.unionWith
  split
  · exact ⟨.alternative hc, hcn⟩
  · next before hb =>
    obtain ⟨hd, hn⟩ := hh.alternatives before hb
    refine ⟨.union hd hc, ?_⟩
    simp only [Tree.nesting]
    omega

theorem chars_concatWith (h : Hole) (t : Tree) :
    (h.concatWith t).chars = h.factors.elim [] (·.chars) ++ t.chars := by
  cases hf : h.factors <;> simp [concatWith, hf, Tree.chars]

theorem chars_unionWith (h : Hole) (t : Tree) : (h.unionWith t).chars = h.chars ++ t.chars := by
  cases ha : h.alternatives <;> simp [unionWith, chars, ha, Tree.chars, chars_concatWith]

end Hole

namespace Reading

def openChars : List Hole → List Char
  | [] => []
  | outer :: enclosing => openChars enclosing ++ outer.chars ++ ['(']

def OpenFits (base : Nat) : List Hole → Prop
  | [] => base ≤ 256
  | outer :: enclosing =>
    OpenFits base enclosing ∧ outer.Fits (base + enclosing.length) ∧ base + enclosing.length < 256

def chars (r : Reading) : List Char :=
  openChars r.enclosing ++ r.hole.chars ++ r.factor.elim [] (·.chars)

/-- A reading whose partial trees the grammar derives. -/
structure Fits (r : Reading) : Prop where
  enclosing : OpenFits r.base r.enclosing
  hole : r.hole.Fits r.depth
  factor : ∀ t ∈ r.factor, t.Fits .star r.depth

variable {r fed : Reading} {token : Token}

theorem chars_eq_nextHole (r : Reading) : r.chars = openChars r.enclosing ++ r.nextHole.chars := by
  cases hf : r.factor with
  | none => simp [chars, nextHole_of_none hf, hf]
  | some t => simp [chars, nextHole_of_some hf, hf, Hole.chars, Hole.chars_concatWith]

theorem chars_of_factor {t : Tree} (h : r.factor = some t) :
    r.chars = openChars r.enclosing ++ (r.hole.unionWith t).chars := by
  simp [chars, h, Hole.chars_unionWith]

theorem Takes.chars_eq (h : r.Takes token fed) : fed.chars = r.chars ++ token.chars := by
  cases h with
  | literal c =>
    rw [chars_eq_nextHole r]
    rfl
  | leftParen h =>
    rw [chars_eq_nextHole r]
    simp [chars, opened, openChars, Hole.chars, Hole.empty, Token.chars]
  | @star t h => simp [chars, h, Tree.chars, Token.chars]
  | @bar t h =>
    rw [chars_of_factor h]
    simp [chars, Hole.chars, Token.chars]
  | @rightParen t outer enclosing h he =>
    rw [chars_of_factor h]
    simp [chars, he, openChars, Tree.chars, Token.chars]

theorem OpenFits.depth_le {base : Nat} {enclosing : List Hole} (h : OpenFits base enclosing) :
    base + enclosing.length ≤ 256 := by
  cases enclosing with
  | nil => exact h
  | cons outer enclosing => exact h.2.2

theorem Fits.depth_le (h : r.Fits) : r.depth ≤ 256 := h.enclosing.depth_le

theorem fits_start {base : Nat} (h : base ≤ 256) : (start base).Fits := by
  refine ⟨h, ⟨fun t ht ↦ ?_, fun t ht ↦ ?_⟩, fun t ht ↦ ?_⟩ <;> cases ht

theorem Fits.nextHole (h : r.Fits) : r.nextHole.Fits r.depth := by
  cases hf : r.factor with
  | none =>
    rw [nextHole_of_none hf]
    exact h.hole
  | some t =>
    rw [nextHole_of_some hf]
    refine ⟨h.hole.alternatives, fun u hu ↦ ?_⟩
    cases hu
    exact h.hole.concatWith (h.factor t hf)

theorem Fits.takes (h : r.Fits) (ht : r.Takes token fed)
    (hc : ∀ c, token = .literal c → IsTerminal c) : fed.Fits := by
  cases ht with
  | literal c =>
    refine ⟨h.enclosing, h.nextHole, fun u hu ↦ ?_⟩
    cases hu
    refine ⟨.unstarred (.terminal (hc c rfl)), ?_⟩
    rw [Tree.nesting, Tree.nesting, Nat.zero_add]
    exact h.depth_le
  | leftParen hd =>
    have hlt : r.depth < 256 := Nat.lt_of_le_of_ne h.depth_le hd
    refine ⟨⟨h.enclosing, h.nextHole, hlt⟩, ⟨fun t ht ↦ ?_, fun t ht ↦ ?_⟩, fun t ht ↦ ?_⟩
    all_goals cases ht
  | @star t hf =>
    obtain ⟨hd, hn⟩ := h.factor t hf
    refine ⟨h.enclosing, h.hole, fun u hu ↦ ?_⟩
    cases hu
    exact ⟨.star hd, hn⟩
  | @bar t hf =>
    have hu := h.hole.unionWith (h.factor t hf)
    refine ⟨h.enclosing, ⟨fun u hu' ↦ ?_, fun u hu' ↦ ?_⟩, fun u hu' ↦ ?_⟩
    all_goals cases hu'
    exact hu
  | @rightParen t outer enclosing hf he =>
    obtain ⟨hd, hn⟩ := h.hole.unionWith (h.factor t hf)
    have hopen : OpenFits r.base (outer :: enclosing) := he ▸ h.enclosing
    obtain ⟨hrest, houter, hlt⟩ := hopen
    refine ⟨hrest, houter, fun u hu ↦ ?_⟩
    cases hu
    refine ⟨.unstarred (.paren hd), ?_⟩
    simp only [Tree.nesting, depth, he, List.length_cons] at hn ⊢
    omega

theorem Fits.readChar {position : Nat} {c : Char} (h : r.Fits)
    (hread : r.readChar position c = .ok fed) :
    fed.Fits ∧ fed.base = r.base ∧ fed.chars = r.chars ++ [c] := by
  obtain ⟨token, hc, ht⟩ := readChar_eq_ok_iff.mp hread
  refine ⟨h.takes ht fun d hd ↦ ?_, ht.base_eq, ?_⟩
  · subst hd
    obtain ⟨rfl, hterminal⟩ := Token.ofChar?_eq_literal_iff.mp hc
    exact hterminal
  · rw [ht.chars_eq, Token.chars_of_ofChar? hc]

theorem Fits.read {position : Nat} {text : List Char} {last : Reading} (h : r.Fits)
    (hread : r.read position text = .ok last) :
    last.Fits ∧ last.base = r.base ∧ last.chars = r.chars ++ text := by
  induction text generalizing position r with
  | nil =>
    cases hread
    exact ⟨h, rfl, (List.append_nil _).symm⟩
  | cons c text ih =>
    rw [Reading.read] at hread
    cases hc : r.readChar position c with
    | error e => simp [hc, bind, Except.bind] at hread
    | ok fed =>
      rw [hc] at hread
      obtain ⟨hfed, hbase, hchars⟩ := h.readChar hc
      obtain ⟨hlast, hsame, heq⟩ := ih hfed hread
      refine ⟨hlast, hsame.trans hbase, ?_⟩
      rw [heq, hchars, List.append_assoc]
      rfl

theorem finish_eq_ok_iff {t : Tree} :
    r.finish.1 = .ok t ↔
      r.enclosing = [] ∧ ∃ factor, r.factor = some factor ∧ r.hole.unionWith factor = t := by
  unfold finish
  split <;> simp_all

end Reading

theorem read_finish_eq_ok_iff {base : Nat} (h : base ≤ 256) (position : Nat) (text : List Char)
    (t : Tree) :
    ((Reading.start base).read position text >>= fun last ↦ last.finish.1) = .ok t ↔
      t.Fits .union base ∧ t.chars = text := by
  constructor
  · intro hparse
    cases hread : (Reading.start base).read position text with
    | error e => simp [hread, bind, Except.bind] at hparse
    | ok last =>
      rw [hread] at hparse
      obtain ⟨hfits, hbase, hchars⟩ := (Reading.fits_start h).read hread
      obtain ⟨he, factor, hf, rfl⟩ := Reading.finish_eq_ok_iff.mp hparse
      have hdepth : last.depth = base := by
        rw [Reading.depth, he, hbase]
        rfl
      refine ⟨hdepth ▸ hfits.hole.unionWith (hfits.factor factor hf), ?_⟩
      rw [Reading.chars_of_factor hf, he] at hchars
      exact hchars
  · intro ht
    obtain ⟨⟨hd, hn⟩, rfl⟩ := ht
    obtain ⟨hole, factor, hread, rfl⟩ :=
      Reading.isRead_of_derivable hd position (Reading.start base) hn rfl rfl
    rw [hread]
    rfl

/-- The parser gives a tree for the pattern of that tree, for each canonical tree, and otherwise
gives none. -/
theorem Tree.parse_eq_ok_iff (s : String) (t : Tree) :
    Tree.parse s = .ok t ↔ t.Canonical ∧ t.text = s := by
  rw [parse_eq_read, text_eq_iff, Canonical]
  split
  · next hs =>
    rw [hs]
    constructor
    · intro h
      cases h
    · intro h
      exact absurd h.2 t.chars_ne_nil
  · exact read_finish_eq_ok_iff (Nat.zero_le _) 0 s.toList t

end LineSearch
