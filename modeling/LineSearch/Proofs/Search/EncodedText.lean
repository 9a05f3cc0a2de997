import LineSearch.Proofs.Search.Output
import LineSearch.Proofs.Text.EncodedLines

namespace LineSearch

namespace Pattern

variable {o : SearchOptions}

theorem matchesIn_encode (p : Pattern) (text : String) :
    p.matchesIn (Text.encode text) = p.matchingLines (Text.lines (Text.closed text)) := by
  rw [matchesIn, Text.map_decode_byteLines]

/-- A search of the bytes of a text prints the matching lines of the text, which is taken to end
with a line feed. That is no different from the text as it is unless it ends with a carriage
return. -/
theorem searchInput_encode (p : Pattern) (h : o.count = false) (name text : String)
    (written : Array UInt8) (fault : Fault) (found : Nat) :
    let ms := p.matchingLines (Text.lines (Text.closed text))
    p.searchInput o name (Text.encode text) ⟨⟨written, none, fault⟩, found⟩ =
      (.ok (), ⟨⟨written ++ o.printed name ms, none, fault⟩, found + ms.length⟩) ∧
    (text.toList.getLast? ≠ some '\r' → ms = p.matchingLines (Text.lines text)) ∧
    (Text.lines (Text.closed text) = Text.lines text ↔ text.toList.getLast? ≠ some '\r') := by
  intro ms
  refine ⟨?_, fun hlast ↦ ?_, Text.lines_closed_eq_iff text⟩
  · rw [searchInput_of_room_none p h, matchesIn_encode]
  · exact congrArg p.matchingLines ((Text.lines_closed_eq_iff text).mpr hlast)

theorem searchInput_encode_unterminated :
    ∃ p events, ofString "a" = .ok (p, events) ∧
      p.searchInput ⟨true, false, false, false⟩ "" (Text.encode "a") ⟨.unlimited, 0⟩ =
        (.ok (), ⟨⟨(Text.encode "1:a\n").toArray, none, .other⟩, 1⟩) ∧
      p.matchingLines (Text.lines "a") = [⟨1, "a"⟩] := by
  obtain ⟨p, events, hp, hmatches⟩ := exists_matchesIn_eq
  rw [matchesIn_encode] at hmatches
  obtain ⟨hsearch, hlines, _⟩ :=
    p.searchInput_encode (o := ⟨true, false, false, false⟩) rfl "" "a" #[] .other 0
  have hclosed : Text.closed "a" = "a\n" := by decide
  have hclosed' : Text.closed "a\n" = "a\n" := by decide
  rw [hclosed'] at hmatches
  rw [hclosed, hmatches] at hsearch hlines
  refine ⟨p, events, hp, hsearch.trans ?_, (hlines (by decide)).symm⟩
  decide

end Pattern

end LineSearch
