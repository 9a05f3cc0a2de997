import LineSearch.Proofs.Occurrence
import LineSearch.Proofs.Search.Writer
import LineSearch.Search.Input

namespace LineSearch

open Text (Bytes)

namespace Text

theorem encode_append (s t : String) : encode (s ++ t) = encode s ++ encode t := by
  simp [encode]

theorem flatten_map_encode (fields : List String) :
    (fields.map encode).flatten = encode (String.join fields) := by
  induction fields with
  | nil => rfl
  | cons field fields ih =>
    rw [List.map_cons, List.flatten_cons, ih, String.join_cons, encode_append]

end Text

namespace SearchOptions

def nameText (o : SearchOptions) (name : String) : String :=
  if o.withFilename then Text.Style.magenta.paint o.isColored name ++ o.separator else ""

def numberText (o : SearchOptions) (number : Nat) : String :=
  if o.lineNumber then Text.Style.green.paint o.isColored (toString number) ++ o.separator else ""

def lineText (o : SearchOptions) (name : String) (m : MatchingLine) : String :=
  o.nameText name ++ o.numberText m.number ++ m.line ++ "\n"

def countText (o : SearchOptions) (name : String) (count : Nat) : String :=
  o.nameText name ++ toString count ++ "\n"

def chunks (o : SearchOptions) (name : String) (ms : List MatchingLine) : List Bytes :=
  ms.map (fun m ↦ Text.encode (o.lineText name m))

def printed (o : SearchOptions) (name : String) (ms : List MatchingLine) : Bytes :=
  (o.chunks name ms).flatten

example : lineText ⟨true, false, true, false⟩ "f" ⟨3, "ab"⟩ = "f:3:ab\n" := by decide

theorem printed_cons (o : SearchOptions) (name : String) (m : MatchingLine)
    (ms : List MatchingLine) :
    o.printed name (m :: ms) = Text.encode (o.lineText name m) ++ o.printed name ms := rfl

theorem join_matchFields (o : SearchOptions) (name : String) (m : MatchingLine) :
    String.join (o.matchFields name m) = o.lineText name m := by
  obtain ⟨lineNumber, count, withFilename, isColored⟩ := o
  cases lineNumber <;> cases withFilename <;>
    simp [matchFields, nameFields, numberFields, lineText, nameText, numberText, String.append_assoc]

theorem join_countFields (o : SearchOptions) (name : String) (count : Nat) :
    String.join (o.countFields name count) = o.countText name count := by
  obtain ⟨lineNumber, count, withFilename, isColored⟩ := o
  cases withFilename <;> simp [countFields, nameFields, countText, nameText, String.append_assoc]

end SearchOptions

theorem Progress.print_eq (s : Progress) (fields : List String) :
    s.print fields =
      (if s.writer.Fits (Text.encode (String.join fields)) then .ok () else .error s.writer.fault,
        { s with writer := s.writer.after (Text.encode (String.join fields)) }) := by
  rw [print, Writer.writeEach_eq, Text.flatten_map_encode, Writer.write_eq]

namespace Pattern

variable {o : SearchOptions}

def matching (p : Pattern) (lines : List (String × Nat)) : List MatchingLine :=
  lines.filterMap (fun (line, number) ↦ if p.occursIn line then some ⟨number, line⟩ else none)

def matchesIn (p : Pattern) (input : Bytes) : List MatchingLine :=
  p.matchingLines ((Text.byteLines input).map Text.decode)

/-- What a search prints where there is room for it: the matching lines, or how many they are with
those found before. -/
def output (p : Pattern) (o : SearchOptions) (name : String) (input : Bytes) (found : Nat) :
    Bytes :=
  if o.count then
    Text.encode (o.countText name (found + (p.matchesIn input).length))
  else o.printed name (p.matchesIn input)

theorem output_of_print {p : Pattern} (h : o.count = false) (name : String) (input : Bytes)
    (found : Nat) : p.output o name input found = o.printed name (p.matchesIn input) := by
  simp [output, h]

theorem matching_numberedLines (p : Pattern) (input : Bytes) :
    p.matching (numberedLines input) = p.matchesIn input := rfl

theorem matching_cons_of_occursIn {p : Pattern} {line : String} (h : p.occursIn line = true)
    (number : Nat) (lines : List (String × Nat)) :
    p.matching ((line, number) :: lines) = ⟨number, line⟩ :: p.matching lines := by
  simp [matching, h]

theorem matching_cons_of_not_occursIn {p : Pattern} {line : String}
    (h : ¬p.occursIn line = true) (number : Nat) (lines : List (String × Nat)) :
    p.matching ((line, number) :: lines) = p.matching lines := by
  simp [matching, h]

theorem searchLines_count (p : Pattern) (h : o.count = true) (name : String)
    (lines : List (String × Nat)) (s : Progress) :
    p.searchLines o name lines s =
      (.ok (), { s with found := s.found + (p.matching lines).length }) := by
  induction lines generalizing s with
  | nil => rfl
  | cons entry lines ih =>
    obtain ⟨line, number⟩ := entry
    rw [searchLines]
    split
    · next hoccurs =>
      simp only [ih, matching_cons_of_occursIn hoccurs, List.length_cons, Nat.add_assoc,
        Nat.add_comm 1]
    · next hoccurs => rw [ih, matching_cons_of_not_occursIn hoccurs]

theorem searchLines_print (p : Pattern) (h : o.count = false) (name : String)
    (lines : List (String × Nat)) (s : Progress) :
    let ms := p.matching lines
    ∃ begun, s.writer.Begins (o.chunks name ms) begun ∧ p.searchLines o name lines s =
      (if s.writer.Fits (o.printed name ms) then .ok () else .error s.writer.fault,
        ⟨s.writer.after (o.printed name ms), s.found + begun⟩) := by
  induction lines generalizing s with
  | nil =>
    refine ⟨0, .nil _, ?_⟩
    simp [searchLines, matching, SearchOptions.printed, SearchOptions.chunks, Writer.Fits,
      Writer.after_nil]
  | cons entry lines ih =>
    obtain ⟨line, number⟩ := entry
    rw [searchLines]
    split
    · next hoccurs =>
      rw [matching_cons_of_occursIn hoccurs]
      simp only [h, Bool.false_eq_true, if_false, Progress.print_eq,
        SearchOptions.join_matchFields, SearchOptions.printed_cons]
      by_cases hfits : s.writer.Fits (Text.encode (o.lineText name ⟨number, line⟩))
      · obtain ⟨begun, hbegun, heq⟩ :=
          ih ⟨s.writer.after (Text.encode (o.lineText name ⟨number, line⟩)), s.found + 1⟩
        refine ⟨begun + 1, .cons hfits hbegun, ?_⟩
        simp only [hfits, if_true, heq, Writer.fits_append_iff, true_and,
          Writer.after_append, Nat.add_assoc, Nat.add_comm 1]
        rfl
      · refine ⟨1, .last hfits _, ?_⟩
        simp only [hfits, if_false, Writer.fits_append_iff, false_and,
          Writer.after_append_of_not_fits hfits]
    · next hoccurs =>
      rw [matching_cons_of_not_occursIn hoccurs]
      exact ih s

/-- A search writes what there is room for of its output. The lines counted are all that match, or,
where they are printed, those begun. -/
theorem searchInput_eq (p : Pattern) (o : SearchOptions) (name : String) (input : Bytes)
    (s : Progress) :
    ∃ begun, p.searchInput o name input s =
        (if s.writer.Fits (p.output o name input s.found) then .ok () else .error s.writer.fault,
          ⟨s.writer.after (p.output o name input s.found), s.found + begun⟩) ∧
      (o.count = true → begun = (p.matchesIn input).length) ∧
      (o.count = false → s.writer.Begins (o.chunks name (p.matchesIn input)) begun) := by
  cases hcount : o.count with
  | true =>
    refine ⟨(p.matchesIn input).length, ?_, fun _ ↦ rfl, nofun⟩
    rw [searchInput, searchLines_count p hcount]
    simp only [hcount, if_true, Progress.print_eq, SearchOptions.join_countFields, output]
    rfl
  | false =>
    obtain ⟨begun, hbegun, heq⟩ := searchLines_print p hcount name (numberedLines input) s
    rw [matching_numberedLines] at hbegun heq
    refine ⟨begun, ?_, nofun, fun _ ↦ hbegun⟩
    rw [searchInput, heq, output_of_print hcount]
    by_cases hfits : s.writer.Fits (o.printed name (p.matchesIn input))
    · simp only [hfits, if_true, hcount, Bool.false_eq_true, if_false]
    · simp only [hfits, if_false]

theorem searchInput_of_room_none (p : Pattern) (h : o.count = false) (name : String) (input : Bytes)
    (written : Array UInt8) (fault : Fault) (found : Nat) :
    p.searchInput o name input ⟨⟨written, none, fault⟩, found⟩ =
      (.ok (), ⟨⟨written ++ o.printed name (p.matchesIn input), none, fault⟩,
        found + (p.matchesIn input).length⟩) := by
  have hfits (bytes : Bytes) : (⟨written, none, fault⟩ : Writer).Fits bytes := by
    simp [Writer.Fits]
  obtain ⟨begun, heq, _, hbegins⟩ := p.searchInput_eq o name input ⟨⟨written, none, fault⟩, found⟩
  have hbegun : begun = (p.matchesIn input).length := by
    rw [(hbegins h).eq_length (hfits _), SearchOptions.chunks, List.length_map]
  rw [heq, if_pos (hfits _), output_of_print h, hbegun]
  rfl

theorem exists_occursIn :
    ∃ p events, ofString "a" = .ok (p, events) ∧ p.occursIn "a" = true := by
  have hparse : Tree.parse "a" = .ok (.alternative (.factor (.unstarred (.terminal 'a')))) := rfl
  obtain ⟨p, events, hp, hfinds⟩ := ofString_finds hparse
  have hmem : ['a'] ∈ (Tree.terminal 'a').language := by
    rw [Tree.language, if_neg (by decide)]
    rfl
  have hempty : [] ∈ padding := by simp [mem_padding]
  refine ⟨p, events, hp, (hfinds.occursIn_iff "a").mpr ?_⟩
  exact Language.append_mem_mul (Language.append_mem_mul hempty hmem) hempty

theorem exists_matchesIn_eq :
    ∃ p events, ofString "a" = .ok (p, events) ∧
      p.matchesIn (Text.encode "a\n") = [⟨1, "a"⟩] := by
  obtain ⟨p, events, hp, hoccurs⟩ := exists_occursIn
  have hlines : (Text.byteLines (Text.encode "a\n")).map Text.decode = ["a"] := by decide
  exact ⟨p, events, hp, by simp [matchesIn, matchingLines, hlines, hoccurs]⟩

theorem searchInput?_eq_some {p : Pattern} {name : String} {input : Bytes} {s : Progress}
    (h : s.found + (p.matchesIn input).length < UInt64.size) :
    p.searchInput? o name input s = some (p.searchInput o name input s) := by
  refine if_pos (lt_of_le_of_lt ?_ h)
  obtain ⟨begun, heq, hcount, hbegins⟩ := p.searchInput_eq o name input s
  rw [heq]
  apply Nat.add_le_add_left
  cases hoption : o.count with
  | true => exact (hcount hoption).le
  | false =>
    have hle := (hbegins hoption).le_length
    rwa [SearchOptions.chunks, List.length_map] at hle

/-- As long as the matching lines can be counted, of the output of a search that is written for
which there is room, and the search fails exactly if that is not all. The count is of all matching
lines, except where lines are printed and the output gives out: there it is of those before the line
at which that happens, and of this one. -/
theorem searchInput_room (p : Pattern) (o : SearchOptions) (name : String) (input : Bytes)
    (written : Array UInt8) (room : Nat) (fault : Fault) (found : Nat)
    (h : found + (p.matchesIn input).length < UInt64.size) :
    let full := p.output o name input found
    ∃ result after, p.searchInput? o name input ⟨⟨written, some room, fault⟩, found⟩ =
        some (result, after) ∧
      after.writer.written = written ++ full.take room ∧
      (result = if full.length ≤ room then .ok () else .error fault) ∧
      (full.length ≤ room ∨ o.count = true →
        after.found = found + (p.matchesIn input).length) ∧
      (room < full.length → o.count = false →
        ∃ earlier m later, p.matchesIn input = earlier ++ m :: later ∧
          (o.printed name earlier).length ≤ room ∧
          room < (o.printed name (earlier ++ [m])).length ∧
          after.found = found + (earlier.length + 1)) := by
  intro full
  obtain ⟨begun, heq, hcount, hbegins⟩ :=
    p.searchInput_eq o name input ⟨⟨written, some room, fault⟩, found⟩
  have hfits (bytes : Bytes) :
      (⟨written, some room, fault⟩ : Writer).Fits bytes ↔ bytes.length ≤ room := by
    simp [Writer.Fits]
  simp only [hfits] at heq
  refine ⟨_, _, (searchInput?_eq_some h).trans (congrArg some heq), rfl, rfl, fun hall ↦ ?_,
    fun hcut hprint ↦ ?_⟩
  · have hbegun : begun = (p.matchesIn input).length := by
      cases hoption : o.count with
      | true => exact hcount hoption
      | false =>
        have hroom : (o.printed name (p.matchesIn input)).length ≤ room := by
          rw [← output_of_print hoption name input found]
          exact hall.resolve_right (by simp [hoption])
        rw [(hbegins hoption).eq_length ((hfits _).mpr hroom), SearchOptions.chunks,
          List.length_map]
    rw [hbegun]
  · have hfull : full = o.printed name (p.matchesIn input) := output_of_print hprint ..
    have hchunks : ¬(⟨written, some room, fault⟩ : Writer).Fits
        (o.printed name (p.matchesIn input)) := by
      rwa [hfits, ← hfull, not_le]
    obtain ⟨chunks, _, _, hsplit, rfl, hbefore, hlast⟩ := (hbegins hprint).exists_split hchunks
    obtain ⟨earlier, rest, hms, rfl, hrest⟩ := List.map_eq_append_iff.mp hsplit
    obtain ⟨m, later, rfl, rfl, rfl⟩ := List.map_eq_cons_iff.mp hrest
    refine ⟨earlier, m, later, hms, (hfits _).mp hbefore, ?_, ?_⟩
    · rwa [SearchOptions.printed, SearchOptions.chunks, List.map_append, ← not_le, ← hfits]
    · rw [List.length_map]

theorem searchInput_room_one :
    ∃ p events, ofString "a" = .ok (p, events) ∧
      18446744073709551614 + (p.matchesIn (Text.encode "a\n")).length < UInt64.size ∧
      ∃ after, p.searchInput? ⟨false, false, false, false⟩ "" (Text.encode "a\n")
          ⟨⟨#[], some 1, .brokenPipe⟩, 18446744073709551614⟩ = some (.error .brokenPipe, after) ∧
        after.writer.written.toList = Text.encode "a" ∧ after.found = 18446744073709551615 := by
  obtain ⟨p, events, hp, hmatches⟩ := exists_matchesIn_eq
  have hcounts : 18446744073709551614 + (p.matchesIn (Text.encode "a\n")).length < UInt64.size := by
    rw [hmatches]
    decide
  have houtput : p.output ⟨false, false, false, false⟩ "" (Text.encode "a\n")
      18446744073709551614 = Text.encode "a\n" := by
    rw [output, hmatches]
    rfl
  obtain ⟨result, after, hsearch, hwritten, hresult, _, hcut⟩ :=
    p.searchInput_room ⟨false, false, false, false⟩ "" (Text.encode "a\n") #[] 1 .brokenPipe
      18446744073709551614 hcounts
  rw [houtput] at hwritten hresult hcut
  obtain ⟨earlier, m, later, hsplit, _, _, hcount⟩ := hcut (by decide) rfl
  have hearlier : earlier = [] := by
    have hlength := congrArg List.length (hmatches.symm.trans hsplit)
    simp only [List.length_append, List.length_cons, List.length_nil] at hlength
    exact List.eq_nil_of_length_eq_zero (by omega)
  refine ⟨p, events, hp, hcounts, after, hsearch.trans (congrArg _ ?_), by rw [hwritten]; rfl, ?_⟩
  · rw [hresult]
    rfl
  · rw [hcount, hearlier]
    rfl

end Pattern

end LineSearch
