namespace LineSearch

variable {m : Type → Type} [Monad m] {α : Type}

/-- One round. It at least halves the list, a left-over item aside. -/
def mergeNeighbours (combine : α → α → m α) :
    (items : List α) → m { merged : List α // 2 * merged.length ≤ items.length + 1 }
  | [] => pure ⟨[], by simp⟩
  | [a] => pure ⟨[a], by simp⟩
  | a :: b :: rest => do
    let c ← combine a b
    let ⟨merged, h⟩ ← mergeNeighbours combine rest
    pure ⟨c :: merged, by simp only [List.length_cons]; omega⟩

/-- Rounds until one item is left; `empty` stands in where there is none to begin with. -/
def mergeRounds (combine : α → α → m α) (empty : m α) : List α → m α
  | [] => empty
  | [a] => pure a
  | a :: b :: rest => do
    let ⟨merged, _⟩ ← mergeNeighbours combine (a :: b :: rest)
    mergeRounds combine empty merged
termination_by items => items.length
decreasing_by
  simp only [List.length_cons] at *
  omega

end LineSearch
