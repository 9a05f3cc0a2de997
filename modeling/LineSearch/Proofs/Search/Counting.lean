import LineSearch.Proofs.Search.Output
import LineSearch.Proofs.Text.Lines

namespace LineSearch.Pattern

open Text (Bytes)

variable {p : Pattern} {o : SearchOptions} {name : String} {input : Bytes} {s : Progress}

theorem searchLines_append (earlier later : List (String × Nat)) (s : Progress) :
    p.searchLines o name (earlier ++ later) s =
      match p.searchLines o name earlier s with
      | (.ok _, s') => p.searchLines o name later s'
      | failed => failed := by
  induction earlier generalizing s with
  | nil => rfl
  | cons entry earlier ih =>
    obtain ⟨line, number⟩ := entry
    rw [List.cons_append, searchLines, searchLines]
    split
    · split
      · exact ih _
      · dsimp only
        split
        · exact ih _
        · next hfailed =>
          split
          · next hok => exact absurd hok (hfailed _ _)
          · rfl
    · exact ih s

theorem searchLines_cons (entry : String × Nat) (later : List (String × Nat)) (s : Progress) :
    p.searchLines o name (entry :: later) s =
      match p.searchLines o name [entry] s with
      | (.ok _, s') => p.searchLines o name later s'
      | failed => failed :=
  searchLines_append [entry] later s

theorem found_print (s : Progress) (fields : List String) :
    (s.print fields).2.found = s.found := rfl

theorem found_searchLines_one (p : Pattern) (o : SearchOptions) (name line : String) (number : Nat)
    (s : Progress) :
    (p.searchLines o name [(line, number)] s).2.found =
      s.found + if p.occursIn line = true then 1 else 0 := by
  rw [searchLines]
  split
  · split
    · rfl
    · have hkept := found_print ⟨s.writer, s.found + 1⟩ (o.matchFields name ⟨number, line⟩)
      dsimp only
      split
      · next h =>
        rw [h] at hkept
        exact hkept
      · exact hkept
  · rfl

theorem found_le_searchLines (lines : List (String × Nat)) (s : Progress) :
    s.found ≤ (p.searchLines o name lines s).2.found := by
  induction lines generalizing s with
  | nil => exact Nat.le_refl _
  | cons entry lines ih =>
    obtain ⟨line, number⟩ := entry
    have hone : s.found ≤ (p.searchLines o name [(line, number)] s).2.found := by
      rw [found_searchLines_one]
      exact Nat.le_add_right _ _
    rw [searchLines_cons]
    split
    · next s' hs =>
      rw [hs] at hone
      exact hone.trans (ih s')
    · exact hone

theorem found_le_searchLines_append (p : Pattern) (o : SearchOptions) (name : String)
    (earlier later : List (String × Nat)) (s : Progress) :
    (p.searchLines o name earlier s).2.found ≤
      (p.searchLines o name (earlier ++ later) s).2.found := by
  rw [searchLines_append]
  split
  · next s' hs =>
    rw [hs]
    exact found_le_searchLines later s'
  · exact Nat.le_refl _

theorem lt_found_searchLines {line : String} (h : p.occursIn line = true) (number : Nat)
    (lines : List (String × Nat)) (s : Progress) :
    s.found < (p.searchLines o name ((line, number) :: lines) s).2.found := by
  have hle := p.found_le_searchLines_append o name [(line, number)] lines s
  rw [found_searchLines_one, if_pos h] at hle
  exact Nat.lt_of_succ_le hle

theorem exists_last_of_limit_le {limit : Nat} {lines : List (String × Nat)} (h : s.found < limit)
    (hreached : limit ≤ (p.searchLines o name lines s).2.found) :
    ∃ earlier line number later s', lines = earlier ++ (line, number) :: later ∧
      p.searchLines o name earlier s = (.ok (), s') ∧ p.occursIn line = true ∧
      s'.found + 1 = limit := by
  induction lines generalizing s with
  | nil => exact absurd h (Nat.not_lt_of_le hreached)
  | cons entry lines ih =>
    obtain ⟨line, number⟩ := entry
    by_cases hlast : p.occursIn line = true ∧ s.found + 1 = limit
    · exact ⟨[], line, number, lines, s, rfl, rfl, hlast⟩
    · have hone : (p.searchLines o name [(line, number)] s).2.found < limit := by
        rw [found_searchLines_one]
        split
        · next hoccurs => exact lt_of_le_of_ne h (fun hlimit ↦ hlast ⟨hoccurs, hlimit⟩)
        · exact h
      rw [searchLines_cons] at hreached
      split at hreached
      · next s₁ hfirst =>
        rw [hfirst] at hone
        obtain ⟨earlier, last, k, later, s', rfl, hsearch, hfound⟩ := ih hone hreached
        refine ⟨(line, number) :: earlier, last, k, later, s', rfl, ?_, hfound⟩
        rw [searchLines_cons, hfirst]
        exact hsearch
      · exact absurd hone (Nat.not_lt_of_le hreached)

/-- A search breaks down where a matching line is come to with the greatest count there is, and
nowhere else. -/
theorem searchInput?_eq_none_iff (h : s.found < UInt64.size) :
    p.searchInput? o name input s = none ↔
      ∃ earlier line number later s', numberedLines input = earlier ++ (line, number) :: later ∧
        p.searchLines o name earlier s = (.ok (), s') ∧ p.occursIn line = true ∧
        s'.found + 1 = UInt64.size := by
  have hfound : (p.searchInput o name input s).2.found =
      (p.searchLines o name (numberedLines input) s).2.found := by
    rw [searchInput]
    split
    · next s' hs =>
      rw [hs]
      split <;> rfl
    · rfl
  have hnone : p.searchInput? o name input s = none ↔
      UInt64.size ≤ (p.searchLines o name (numberedLines input) s).2.found := by
    rw [← hfound]
    simp [searchInput?]
  rw [hnone]
  refine ⟨exists_last_of_limit_le h, fun hlast ↦ ?_⟩
  obtain ⟨earlier, line, number, later, s', hlines, hsearch, hoccurs, hlimit⟩ := hlast
  rw [← hlimit, hlines, searchLines_append, hsearch]
  exact lt_found_searchLines hoccurs number later s'

/-- No more lines match than there are bytes, so where these can be counted no search breaks
down. -/
theorem searchInput?_of_length_lt (h : s.found + input.length < UInt64.size) :
    p.searchInput? o name input s = some (p.searchInput o name input s) := by
  have hlength : (p.matchesIn input).length ≤ input.length :=
    calc (p.matchesIn input).length
      _ ≤ (((Text.byteLines input).map Text.decode).zipIdx 1).length := List.length_filterMap_le _ _
      _ = (Text.bytePieces input).length := by
        rw [List.length_zipIdx, List.length_map, Text.byteLines, List.length_map]
      _ ≤ input.length := Text.length_bytePieces_le input
  exact searchInput?_eq_some (lt_of_le_of_lt (Nat.add_le_add_left hlength _) h)

end LineSearch.Pattern
