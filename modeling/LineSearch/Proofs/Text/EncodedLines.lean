import LineSearch.Proofs.Text.Lines
import LineSearch.Proofs.Text.Utf8
import Mathlib.Data.List.Basic

namespace LineSearch.Text

def pieces (text : List Char) : List (List Char) :=
  text.foldr (fun c pieces ↦ if c = '\n' then [] :: pieces else extendFirst c pieces) []

def encodeChars (text : List Char) : Bytes := text.flatMap String.utf8EncodeChar

def dropReturn (line : List Char) : List Char :=
  if line.getLast? = some '\r' then line.dropLast else line

/-- The text with a line feed at its end, unless it has one or is empty. -/
def closed (text : String) : String :=
  if text.toList = [] ∨ text.toList.getLast? = some '\n' then text else text ++ "\n"

section Pieces

variable {text : List Char}

theorem pieces_cons (c : Char) (text : List Char) :
    pieces (c :: text) = if c = '\n' then [] :: pieces text else extendFirst c (pieces text) := rfl

theorem terminatedPieces_cons (c : Char) (text : List Char) :
    terminatedPieces (c :: text) =
      if c = '\n' then [c] :: terminatedPieces text
      else extendFirst c (terminatedPieces text) := rfl

theorem pieces_ne_nil (h : text ≠ []) : pieces text ≠ [] := by
  cases text with
  | nil => exact absurd rfl h
  | cons c text =>
    rw [pieces_cons]
    cases pieces text <;> split <;> simp [extendFirst]

theorem terminatedPieces_of_closed (h : text = [] ∨ text.getLast? = some '\n') :
    terminatedPieces text = (pieces text).map (· ++ ['\n']) := by
  induction text with
  | nil => rfl
  | cons c text ih =>
    rcases eq_or_ne text [] with rfl | hne
    · obtain rfl : c = '\n' := by simpa using h
      rfl
    · rw [List.getLast?_cons_of_ne_nil hne] at h
      have hpieces := ih (Or.inr (h.resolve_left (List.cons_ne_nil c text)))
      obtain ⟨piece, rest, hsplit⟩ := List.exists_cons_of_ne_nil (pieces_ne_nil hne)
      rw [terminatedPieces_cons, pieces_cons, hpieces, hsplit]
      split
      · next hc => simp [hc]
      · rfl

theorem exists_terminatedPieces_of_open (hne : text ≠ []) (h : text.getLast? ≠ some '\n') :
    ∃ init last, pieces text = init ++ [last] ∧ last.getLast? = text.getLast? ∧
      terminatedPieces text = init.map (· ++ ['\n']) ++ [last] ∧
      pieces (text ++ ['\n']) = init ++ [last] := by
  induction text with
  | nil => exact absurd rfl hne
  | cons c text ih =>
    rcases eq_or_ne text [] with rfl | hne
    · have hc : c ≠ '\n' := by simpa using h
      exact ⟨[], [c], by simp [pieces, terminatedPieces, extendFirst, hc]⟩
    · rw [List.getLast?_cons_of_ne_nil hne] at h ⊢
      obtain ⟨init, last, hpieces, hlast, hterminated, hclosed⟩ := ih hne h
      rw [List.cons_append, pieces_cons, pieces_cons, terminatedPieces_cons, hpieces, hterminated,
        hclosed]
      split
      · next hc => exact ⟨[] :: init, last, by simp [hlast, hc]⟩
      · -- The character goes to the first piece, which is the last one if there is no other.
        cases init with
        | nil =>
          have hlastne : last ≠ [] := by
            rintro rfl
            exact hne (List.getLast?_eq_none_iff.mp hlast.symm)
          exact ⟨[], c :: last, rfl, by rw [List.getLast?_cons_of_ne_nil hlastne, hlast], rfl, rfl⟩
        | cons piece init => exact ⟨(c :: piece) :: init, last, rfl, hlast, rfl, rfl⟩

end Pieces

section Bytes

theorem lineFeed_mem_utf8EncodeChar_iff {c : Char} :
    lineFeed ∈ String.utf8EncodeChar c ↔ c = '\n' := by
  refine ⟨fun h ↦ ?_, ?_⟩
  · have hc := toNat_of_mem_utf8EncodeChar h (by decide)
    exact Char.toNat_inj.mp hc.symm
  · rintro rfl
    decide

theorem bytePieces_append {front : Bytes} (hne : front ≠ []) (h : lineFeed ∉ front)
    (bytes : Bytes) :
    bytePieces (front ++ bytes) =
      match bytePieces bytes with
      | [] => [front]
      | piece :: rest => (front ++ piece) :: rest := by
  induction front with
  | nil => exact absurd rfl hne
  | cons b front ih =>
    obtain ⟨hb, hfront⟩ := List.ne_and_not_mem_of_not_mem_cons h
    rw [List.cons_append, bytePieces_cons, if_neg (Ne.symm hb)]
    rcases eq_or_ne front [] with rfl | hne
    · rw [List.nil_append]
      cases bytePieces bytes <;> rfl
    · rw [ih hne hfront]
      cases bytePieces bytes <;> rfl

theorem bytePieces_encodeChars (text : List Char) :
    bytePieces (encodeChars text) = (pieces text).map encodeChars := by
  induction text with
  | nil => rfl
  | cons c text ih =>
    rw [encodeChars, List.flatMap_cons, ← encodeChars, pieces_cons]
    split
    · next hc =>
      rw [hc, List.map_cons, ← ih]
      rfl
    · next hc =>
      rw [bytePieces_append (String.utf8EncodeChar_ne_nil)
        (mt lineFeed_mem_utf8EncodeChar_iff.mp hc), ih]
      cases pieces text <;> simp [extendFirst, encodeChars]

theorem dropFinalReturn_encodeChars (line : List Char) :
    dropFinalReturn (encodeChars line) = encodeChars (dropReturn line) := by
  rcases List.eq_nil_or_concat' line with rfl | ⟨init, c, rfl⟩
  · rfl
  · have hencode : encodeChars (init ++ [c]) = encodeChars init ++ String.utf8EncodeChar c := by
      simp [encodeChars]
    have hlast : (encodeChars init ++ String.utf8EncodeChar c).getLast? =
        (String.utf8EncodeChar c).getLast? := by
      rw [List.getLast?_append,
        Option.or_of_isSome (List.getLast?_isSome.mpr String.utf8EncodeChar_ne_nil)]
    rw [dropReturn, List.getLast?_concat, hencode, dropFinalReturn, hlast]
    by_cases hc : c = '\r'
    · subst hc
      have hbytes : String.utf8EncodeChar '\r' = [carriageReturn] := by decide
      simp [hbytes]
    · have hne : (String.utf8EncodeChar c).getLast? ≠ some carriageReturn := by
        intro h
        have heq := toNat_of_mem_utf8EncodeChar (List.mem_of_getLast? h) (by decide)
        exact hc (Char.toNat_inj.mp heq.symm)
      rw [if_neg hne, if_neg (by simpa using hc), hencode]

end Bytes

theorem dropTerminator_append (line : List Char) :
    dropTerminator (line ++ ['\n']) = dropReturn line := by
  simp [dropTerminator, dropReturn]

theorem dropTerminator_of_open {line : List Char} (h : line.getLast? ≠ some '\n') :
    dropTerminator line = line := by
  rw [dropTerminator, if_neg h]

theorem dropReturn_eq_self_iff {line : List Char} :
    dropReturn line = line ↔ line.getLast? ≠ some '\r' := by
  rcases List.eq_nil_or_concat' line with rfl | ⟨init, c, rfl⟩
  · simp [dropReturn]
  · by_cases hc : c = '\r' <;> simp [dropReturn, hc]

theorem map_dropTerminator (pieces : List (List Char)) :
    (pieces.map (· ++ ['\n'])).map (fun piece ↦ String.ofList (dropTerminator piece)) =
      pieces.map (fun piece ↦ String.ofList (dropReturn piece)) := by
  simp only [List.map_map, Function.comp_def, dropTerminator_append]

theorem lines_closed (text : String) :
    lines (closed text) =
      (pieces text.toList).map (fun piece ↦ String.ofList (dropReturn piece)) := by
  have hlines (s : String) (h : s.toList = [] ∨ s.toList.getLast? = some '\n') :
      lines s = (pieces s.toList).map (fun piece ↦ String.ofList (dropReturn piece)) := by
    rw [lines, terminatedPieces_of_closed h, map_dropTerminator]
  unfold closed
  split
  · next h => exact hlines text h
  · next h =>
    obtain ⟨hne, hopen⟩ := not_or.mp h
    obtain ⟨init, last, hpieces, _, _, hclosed⟩ := exists_terminatedPieces_of_open hne hopen
    have htext : (text ++ "\n").toList = text.toList ++ ['\n'] := by simp
    rw [hlines _ (Or.inr (by simp [htext])), htext, hclosed, hpieces]

theorem map_decode_byteLines (text : String) :
    (byteLines (encode text)).map decode = lines (closed text) := by
  have hpiece (piece : List Char) : decode (dropFinalReturn (encodeChars piece)) =
      String.ofList (dropReturn piece) := by
    rw [dropFinalReturn_encodeChars, ← decode_encode (String.ofList _), encode,
      String.toList_ofList, encodeChars]
  rw [byteLines, encode, ← encodeChars, bytePieces_encodeChars, lines_closed]
  simp only [List.map_map, Function.comp_def, hpiece]

/-- The line feed at the end makes a difference exactly to a carriage return before it. -/
theorem lines_closed_eq_iff (text : String) :
    lines (closed text) = lines text ↔ text.toList.getLast? ≠ some '\r' := by
  by_cases h : text.toList = [] ∨ text.toList.getLast? = some '\n'
  · have hclosed : closed text = text := if_pos h
    rcases h with h | h <;> simp [hclosed, h]
  · obtain ⟨hne, hopen⟩ := not_or.mp h
    obtain ⟨init, last, hpieces, hlast, hterminated, _⟩ :=
      exists_terminatedPieces_of_open hne hopen
    rw [lines_closed, lines, hpieces, hterminated, List.map_append, List.map_append,
      map_dropTerminator, List.append_cancel_left_eq, List.map_singleton, List.map_singleton,
      dropTerminator_of_open (hlast ▸ hopen), List.singleton_inj, String.ofList_inj,
      dropReturn_eq_self_iff, hlast]

end LineSearch.Text
