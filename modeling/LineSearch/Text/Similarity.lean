namespace LineSearch.Text

structure Place where
  char : Char
  isPaired : Bool
  deriving DecidableEq

/-- The first place that can be the partner of a character: it is free, holds the same character,
and is at most `reach` places away from the character's own. -/
def findPartner (reach : Nat) (c : Char) (i : Nat) (places : List Place) : Option Nat :=
  (List.range places.length).find? (fun j ↦
    i ≤ j + reach && j ≤ i + reach && places[j]? == some ⟨c, false⟩)

/-- Pairs characters, of which the first stands at place `i`, with places of another text. Gives the
characters that found a partner, and the places after that. -/
def pairUp (reach : Nat) : Nat → List Char → List Place → List Char × List Place
  | _, [], places => ([], places)
  | i, c :: rest, places =>
    match findPartner reach c i places with
    | none => pairUp reach (i + 1) rest places
    | some j =>
      let (paired, places) := pairUp reach (i + 1) rest (places.set j ⟨c, true⟩)
      (c :: paired, places)

def pairs (a b : List Char) : List Char × List Char :=
  let (paired, places) := pairUp (max a.length b.length / 2 - 1) 0 a (b.map (⟨·, false⟩))
  (paired, (places.filter Place.isPaired).map Place.char)

/-- From 0, for texts that share nothing, to 1, for equal ones. It grows with the number of paired
characters, and shrinks with the number of pairs that cross. -/
def similarity (s t : String) : Float :=
  let a := s.toList
  let b := t.toList
  let (p, q) := pairs a b
  let crossings := ((p.zip q).filter (fun (c, d) ↦ c ≠ d)).length / 2
  let count := p.length.toFloat
  if a.isEmpty && b.isEmpty then 1
  else if p.isEmpty then 0
  else (count / a.length.toFloat + count / b.length.toFloat +
    (p.length - crossings).toFloat / count) / 3

def leastSimilarity : Float := 0.7

/-- The candidate that is most like the text, the last one of several, if one is alike at all. -/
def mostSimilar? (s : String) (candidates : List String) : Option String :=
  (candidates.foldl (fun (best : Option (Float × String)) t ↦
    let score := similarity s t
    if score > leastSimilarity && best.all (fun b ↦ b.1 ≤ score) then some (score, t)
    else best) none).map Prod.snd

end LineSearch.Text
