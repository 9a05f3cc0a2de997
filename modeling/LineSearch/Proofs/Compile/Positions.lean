import LineSearch.Proofs.Compile.Valuation
import Mathlib.Data.Finset.Image
import Mathlib.Algebra.Group.Embedding

namespace LineSearch

/-- The literals of a tree, counted from zero from left to right. The empty sign is none of them. -/
@[ext]
structure Positions where
  symbols : List Char
  nullable : Bool
  first : Finset Nat
  last : Finset Nat
  /-- What can come directly after a position. -/
  follow : Nat → Finset Nat
  lt_of_first : ∀ i ∈ first, i < symbols.length
  lt_of_last : ∀ i ∈ last, i < symbols.length
  lt_of_follow : ∀ i, ∀ j ∈ follow i, j < symbols.length

namespace Positions

def shift (n : Nat) (s : Finset Nat) : Finset Nat := s.map (addRightEmbedding n)

@[simp]
theorem mem_shift {n i : Nat} {s : Finset Nat} : i ∈ shift n s ↔ n ≤ i ∧ i - n ∈ s := by
  simp only [shift, Finset.mem_map, addRightEmbedding_apply]
  constructor
  · rintro ⟨j, hj, rfl⟩
    simpa using hj
  · rintro ⟨hle, hi⟩
    exact ⟨i - n, hi, Nat.sub_add_cancel hle⟩

def empty : Positions where
  symbols := []
  nullable := true
  first := ∅
  last := ∅
  follow _ := ∅
  lt_of_first := by simp
  lt_of_last := by simp
  lt_of_follow := by simp

def single (c : Char) : Positions where
  symbols := [c]
  nullable := false
  first := {0}
  last := {0}
  follow _ := ∅
  lt_of_first := by simp
  lt_of_last := by simp
  lt_of_follow := by simp

def star (x : Positions) : Positions where
  symbols := x.symbols
  nullable := true
  first := x.first
  last := x.last
  follow i := x.follow i ∪ if i ∈ x.last then x.first else ∅
  lt_of_first := x.lt_of_first
  lt_of_last := x.lt_of_last
  lt_of_follow := by
    have hfirst := x.lt_of_first
    have hfollow := x.lt_of_follow
    grind

def concat (x y : Positions) : Positions where
  symbols := x.symbols ++ y.symbols
  nullable := x.nullable && y.nullable
  first := x.first ∪ if x.nullable then shift x.symbols.length y.first else ∅
  last := shift x.symbols.length y.last ∪ if y.nullable then x.last else ∅
  follow i :=
    if i < x.symbols.length then
      x.follow i ∪ if i ∈ x.last then shift x.symbols.length y.first else ∅
    else shift x.symbols.length (y.follow (i - x.symbols.length))
  lt_of_first := by
    have hx := x.lt_of_first
    have hy := y.lt_of_first
    grind [mem_shift]
  lt_of_last := by
    have hx := x.lt_of_last
    have hy := y.lt_of_last
    grind [mem_shift]
  lt_of_follow := by
    have hx := x.lt_of_follow
    have hfirst := y.lt_of_first
    have hy := y.lt_of_follow
    grind [mem_shift]

def union (x y : Positions) : Positions where
  symbols := x.symbols ++ y.symbols
  nullable := x.nullable || y.nullable
  first := x.first ∪ shift x.symbols.length y.first
  last := x.last ∪ shift x.symbols.length y.last
  follow i :=
    if i < x.symbols.length then x.follow i
    else shift x.symbols.length (y.follow (i - x.symbols.length))
  lt_of_first := by
    have hx := x.lt_of_first
    have hy := y.lt_of_first
    grind [mem_shift]
  lt_of_last := by
    have hx := x.lt_of_last
    have hy := y.lt_of_last
    grind [mem_shift]
  lt_of_follow := by
    have hx := x.lt_of_follow
    have hy := y.lt_of_follow
    grind [mem_shift]

theorem concat_assoc (x y z : Positions) : (x.concat y).concat z = x.concat (y.concat z) := by
  refine Positions.ext (List.append_assoc ..) (Bool.and_assoc ..) ?_ ?_ ?_
  · ext i
    simp only [concat]
    grind [mem_shift]
  · ext i
    simp only [concat]
    grind [mem_shift]
  · funext i
    ext j
    have hlast := x.lt_of_last
    simp only [concat]
    grind [mem_shift]

theorem union_assoc (x y z : Positions) : (x.union y).union z = x.union (y.union z) := by
  refine Positions.ext (List.append_assoc ..) (Bool.or_assoc ..) ?_ ?_ ?_
  · ext i
    simp only [union]
    grind [mem_shift]
  · ext i
    simp only [union]
    grind [mem_shift]
  · funext i
    ext j
    simp only [union]
    grind [mem_shift]

end Positions

def Tree.positions : Tree → Positions
  | terminal c => if c = Alphabet.emptySign then .empty else .single c
  | paren t | unstarred t | factor t | alternative t => t.positions
  | star t => t.positions.star
  | concat l r => l.positions.concat r.positions
  | union l r => l.positions.union r.positions

def Valuation.positions : Valuation Positions where
  terminal c := if c = Alphabet.emptySign then .empty else .single c
  star := Positions.star
  concat := Positions.concat
  union := Positions.union
  concat_assoc := Positions.concat_assoc
  union_assoc := Positions.union_assoc

theorem Tree.value_positions (t : Tree) : t.value Valuation.positions = t.positions := by
  induction t with
  | terminal c => rfl
  | paren t ih | unstarred t ih | factor t ih | alternative t ih => exact ih
  | star t ih => exact congrArg Positions.star ih
  | concat l r ihl ihr => exact congrArg₂ Positions.concat ihl ihr
  | union l r ihl ihr => exact congrArg₂ Positions.union ihl ihr

-- The empty sign has no position, and after a nullable tree both go on.
example :
    let x := (Tree.concat (.star (.terminal 'a')) (.union (.terminal 'b') .epsilon)).positions
    x.symbols = ['a', 'b'] ∧ x.nullable = true ∧ x.first = {0, 1} ∧ x.last = {0, 1} ∧
      x.follow 0 = {0, 1} ∧ x.follow 1 = ∅ := by
  decide

end LineSearch
