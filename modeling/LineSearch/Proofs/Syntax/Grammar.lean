import LineSearch.Proofs.Syntax.Reading
import LineSearch.Proofs.Syntax.Text

namespace LineSearch

inductive Rule
  | union
  | concat
  | star
  | atom

inductive Derivable : Rule → Tree → Prop
  | alternative {t : Tree} (h : Derivable .concat t) : Derivable .union (.alternative t)
  | union {l r : Tree} (hl : Derivable .union l) (hr : Derivable .concat r) :
      Derivable .union (.union l r)
  | factor {t : Tree} (h : Derivable .star t) : Derivable .concat (.factor t)
  | concat {l r : Tree} (hl : Derivable .concat l) (hr : Derivable .star r) :
      Derivable .concat (.concat l r)
  | unstarred {t : Tree} (h : Derivable .atom t) : Derivable .star (.unstarred t)
  | star {t : Tree} (h : Derivable .star t) : Derivable .star (.star t)
  | paren {t : Tree} (h : Derivable .union t) : Derivable .atom (.paren t)
  | terminal {c : Char} (h : IsTerminal c) : Derivable .atom (.terminal c)

def Tree.nesting : Tree → Nat
  | terminal _ => 0
  | paren t => t.nesting + 1
  | unstarred t | star t | factor t | alternative t => t.nesting
  | concat l r | union l r => max l.nesting r.nesting

/-- The trees that patterns stand for. -/
def Tree.Canonical (t : Tree) : Prop := Derivable .union t ∧ t.nesting ≤ 256

namespace Reading

/-- What reading the pattern of a tree comes to, by the rule that derives the tree. -/
def Completes (position : Nat) (r : Reading) : Rule → Tree → Prop
  | .atom, t => r.read position t.chars = .ok (r.followedBy (.unstarred t))
  | .star, t => r.read position t.chars = .ok (r.followedBy t)
  | .concat, t => r.factor = none → r.hole.factors = none → ∃ factors factor,
      r.read position t.chars =
        .ok { r with hole := ⟨r.hole.alternatives, factors⟩, factor := some factor } ∧
      Hole.concatWith ⟨r.hole.alternatives, factors⟩ factor = t
  | .union, t => r.factor = none → r.hole = .empty → ∃ hole factor,
      r.read position t.chars = .ok { r with hole, factor := some factor } ∧
      hole.unionWith factor = t

def IsRead (rule : Rule) (t : Tree) : Prop :=
  ∀ position r, t.nesting + r.depth ≤ 256 → Completes position r rule t

variable {l r t : Tree}

theorem IsRead.alternative (h : IsRead .concat t) : IsRead .union (.alternative t) := by
  intro position s hd hf he
  obtain ⟨factors, factor, hread, rfl⟩ := h position s hd hf (by rw [he]; rfl)
  rw [he] at hread ⊢
  exact ⟨⟨none, factors⟩, factor, hread, rfl⟩

theorem IsRead.union (hl : IsRead .union l) (hr : IsRead .concat r) :
    IsRead .union (.union l r) := by
  intro position s hd hf he
  obtain ⟨hdl, hdr⟩ : l.nesting + s.depth ≤ 256 ∧ r.nesting + s.depth ≤ 256 := by
    simp only [Tree.nesting] at hd
    omega
  obtain ⟨hole, last, hreadl, rfl⟩ := hl position s hdl hf he
  have hbar := Takes.bar (r := { s with hole, factor := some last }) rfl
  obtain ⟨factors, factor, hreadr, rfl⟩ := hr _
    { s with hole := ⟨some (hole.unionWith last), none⟩, factor := none } hdr rfl rfl
  refine ⟨⟨some (hole.unionWith last), factors⟩, factor, ?_, rfl⟩
  rw [Tree.chars, read_append_of_eq_ok hreadl, read_cons_of_takes rfl hbar]
  exact hreadr

theorem IsRead.factor (h : IsRead .star t) : IsRead .concat (.factor t) := by
  intro position s hd hf he
  have hread : s.read position t.chars = .ok (s.followedBy t) := h position s hd
  have hhole : s.nextHole = ⟨s.hole.alternatives, none⟩ := by
    rw [nextHole_of_none hf, ← he]
  rw [followedBy, hhole] at hread
  exact ⟨none, t, hread, rfl⟩

theorem IsRead.concat (hl : IsRead .concat l) (hr : IsRead .star r) :
    IsRead .concat (.concat l r) := by
  intro position s hd hf he
  obtain ⟨hdl, hdr⟩ : l.nesting + s.depth ≤ 256 ∧ r.nesting + s.depth ≤ 256 := by
    simp only [Tree.nesting] at hd
    omega
  obtain ⟨factors, last, hreadl, rfl⟩ := hl position s hdl hf he
  refine ⟨some (Hole.concatWith ⟨s.hole.alternatives, factors⟩ last), r, ?_, rfl⟩
  rw [Tree.chars, read_append_of_eq_ok hreadl]
  exact hr _ _ hdr

theorem IsRead.star (h : IsRead .star t) : IsRead .star (.star t) := by
  intro position s hd
  have hread : s.read position t.chars = .ok (s.followedBy t) := h position s hd
  have hstar := Takes.star (r := s.followedBy t) rfl
  rw [Completes, Tree.chars, read_append_of_eq_ok hread, read_cons_of_takes rfl hstar]
  rfl

theorem IsRead.paren (h : IsRead .union t) : IsRead .atom (.paren t) := by
  intro position s hd
  have hdt : t.nesting + s.opened.depth ≤ 256 := by
    simp only [Tree.nesting, depth, opened, List.length_cons] at hd ⊢
    omega
  have hopen : s.Takes .leftParen s.opened := by
    refine .leftParen ?_
    simp only [Tree.nesting, maxNesting] at hd ⊢
    omega
  obtain ⟨hole, factor, hread, rfl⟩ := h (position + 1) s.opened hdt rfl rfl
  have hclose := takes_rightParen_opened s hole factor
  rw [Completes, Tree.chars, List.cons_append, read_cons_of_takes rfl hopen,
    read_append_of_eq_ok hread, read_cons_of_takes rfl hclose]
  rfl

theorem isRead_terminal {c : Char} (h : IsTerminal c) : IsRead .atom (.terminal c) := by
  intro position s _
  have hc : Token.ofChar? c = some (.literal c) := Token.ofChar?_eq_literal_iff.mpr ⟨rfl, h⟩
  rw [Completes, Tree.chars, read_cons_of_takes hc (.literal c)]
  rfl

theorem isRead_of_derivable {rule : Rule} (h : Derivable rule t) : IsRead rule t := by
  induction h with
  | alternative _ ih => exact ih.alternative
  | union _ _ ihl ihr => exact ihl.union ihr
  | factor _ ih => exact ih.factor
  | concat _ _ ihl ihr => exact ihl.concat ihr
  | unstarred _ ih => exact ih
  | star _ ih => exact ih.star
  | paren _ ih => exact ih.paren
  | terminal h => exact isRead_terminal h

end Reading

end LineSearch
