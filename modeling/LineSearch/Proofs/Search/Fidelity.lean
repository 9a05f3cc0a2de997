import LineSearch.Proofs.Search.Output
import LineSearch.Proofs.Syntax.Parsing
import LineSearch.Proofs.Text.Utf8
import Mathlib.Order.CompletePartialOrder

namespace LineSearch

open Text (Bytes)
open scoped Computability

theorem Alphabet.isSupported_iff {c : Char} :
    isSupported c = true ↔ c.toNat = 0x09 ∨ 0x20 ≤ c.toNat ∧ c.toNat ≤ 0x7e := by
  simp [isSupported, ← Char.toNat_inj, Char.le_def, UInt32.le_iff_toNat_le]

namespace Text

def isPlainByte (b : UInt8) : Bool := b == 0x09 || (0x20 ≤ b && b ≤ 0x7e)

def isPlain (line : Bytes) : Bool := line.all isPlainByte

variable {line : Bytes}

theorem isPlainByte_iff {b : UInt8} :
    isPlainByte b = true ↔ b.toNat = 0x09 ∨ 0x20 ≤ b.toNat ∧ b.toNat ≤ 0x7e := by
  simp [isPlainByte, ← UInt8.toNat_inj, UInt8.le_iff_toNat_le]

theorem lt_of_isPlain (h : isPlain line = true) : ∀ b ∈ line, b.toNat < 0x80 := by
  intro b hb
  have hplain := isPlainByte_iff.mp (List.all_eq_true.mp h b hb)
  omega

theorem encode_decode_of_isPlain (h : isPlain line = true) : encode (decode line) = line :=
  (encode_decode (lt_of_isPlain h)).1

/-- The plain lines are those decoded to supported characters, as a byte beyond ASCII is always
decoded to a character that is not. -/
theorem isPlain_iff :
    isPlain line = true ↔ ∀ c ∈ (decode line).toList, Alphabet.isSupported c = true := by
  by_cases hascii : ∀ b ∈ line, b.toNat < 0x80
  · rw [(encode_decode hascii).2, isPlain, List.all_eq_true, List.forall_mem_map]
    refine forall₂_congr fun b hb ↦ ?_
    have hvalid : b.toNat.isValidChar := by
      have hlt := hascii b hb
      exact .inl (by omega)
    rw [isPlainByte_iff, Alphabet.isSupported_iff, toNat_char_ofNat hvalid]
  · refine iff_of_false (mt lt_of_isPlain hascii) fun h ↦ hascii fun b hb ↦ ?_
    by_contra hbeyond
    obtain ⟨c, hc, hle⟩ := exists_nonAscii hb (by omega)
    have hsupported := Alphabet.isSupported_iff.mp (h c hc)
    omega

end Text

theorem padding_mul_padding : padding * padding = padding := by
  rw [← kstar_singleSymbols, kstar_mul_kstar]

theorem kstar_padding : padding∗ = padding := by
  rw [← kstar_singleSymbols, kstar_idem]

/-- A tree that the grammar derives describes texts of supported characters. -/
theorem Derivable.language_le_padding {rule : Rule} {t : Tree} (h : Derivable rule t) :
    t.language ≤ padding := by
  induction h with
  | alternative _ ih | factor _ ih | unstarred _ ih | paren _ ih => exact ih
  | union _ _ ihl ihr => exact sup_le ihl ihr
  | concat _ _ ihl ihr =>
    rw [← padding_mul_padding]
    exact mul_le_mul' ihl ihr
  | star _ ih =>
    rw [← kstar_padding]
    exact kstar_mono ih
  | @terminal c h =>
    rw [Tree.language]
    intro text htext d hd
    split at htext
    · rw [(Language.mem_one text).mp htext] at hd
      cases hd
    · obtain rfl : text = [c] := htext
      rw [List.mem_singleton.mp hd]
      exact h.1

namespace Pattern

variable {p : Pattern}

theorem Finds.isSupported_of_occursIn {t : Tree} {line : String} (h : p.Finds t)
    (hd : Derivable .union t) (hline : p.occursIn line = true) :
    ∀ c ∈ line.toList, Alphabet.isSupported c = true := by
  have hle : padding * t.language * padding ≤ padding := by
    calc padding * t.language * padding
      _ ≤ padding * padding * padding := by
        exact mul_le_mul' (mul_le_mul' le_rfl hd.language_le_padding) le_rfl
      _ = padding := by rw [padding_mul_padding, padding_mul_padding]
  exact hle ((h.occursIn_iff line).mp hline)

theorem exists_derivable_of_ofString {source : String} {events : List Event}
    (h : ofString source = .ok (p, events)) : ∃ t, Derivable .union t ∧ p.Finds t := by
  cases hparse : Tree.parse source with
  | error e => simp [ofString, hparse] at h
  | ok t =>
    obtain ⟨found, _, hfound, hfinds⟩ := ofString_finds hparse
    obtain ⟨rfl, rfl⟩ := Prod.mk.inj (Except.ok.inj (hfound.symm.trans h))
    refine ⟨t, ?_, hfinds⟩
    rw [Tree.parse_eq_read] at hparse
    split at hparse
    · cases hparse
    · exact ((read_finish_eq_ok_iff (Nat.zero_le _) 0 source.toList t).mp hparse).1.1

def plainLines (input : Bytes) : List (String × Nat) :=
  (((Text.byteLines input).zipIdx 1).filter (Text.isPlain ·.1)).map
    (Prod.map Text.decode id)

def matchingBytes (p : Pattern) (input : Bytes) : List Bytes :=
  (Text.byteLines input).filter (fun line ↦ p.occursIn (Text.decode line))

theorem numberedLines_eq_map (input : Bytes) :
    numberedLines input = ((Text.byteLines input).zipIdx 1).map (Prod.map Text.decode id) := by
  rw [numberedLines, List.zipIdx_map]

theorem searchLines_filter {α : Type} {lines : List α} (read : α → String × Nat)
    (keep : α → Bool) (h : ∀ a ∈ lines, p.occursIn (read a).1 = true → keep a = true)
    (o : SearchOptions) (name : String) (s : Progress) :
    p.searchLines o name (lines.map read) s =
      p.searchLines o name ((lines.filter keep).map read) s := by
  induction lines generalizing s with
  | nil => rfl
  | cons a lines ih =>
    obtain ⟨ha, hlines⟩ := List.forall_mem_cons.mp h
    rw [List.map_cons, searchLines]
    by_cases hoccurs : p.occursIn (read a).1 = true
    · rw [List.filter_cons_of_pos (ha hoccurs), List.map_cons, searchLines]
      simp only [ih hlines]
    · rw [if_neg hoccurs, ih hlines, List.filter_cons]
      split
      · rw [List.map_cons, searchLines, if_neg hoccurs]
      · rfl

theorem map_line_matching (p : Pattern) (lines : List Bytes) (first : Nat) :
    (p.matching ((lines.map Text.decode).zipIdx first)).map MatchingLine.line =
      (lines.filter (fun line ↦ p.occursIn (Text.decode line))).map Text.decode := by
  induction lines generalizing first with
  | nil => rfl
  | cons line lines ih =>
    rw [List.map_cons, List.zipIdx_cons]
    by_cases hoccurs : p.occursIn (Text.decode line) = true
    · rw [matching_cons_of_occursIn hoccurs, List.filter_cons, if_pos hoccurs, List.map_cons,
        List.map_cons, ih]
    · rw [matching_cons_of_not_occursIn hoccurs, List.filter_cons, if_neg hoccurs, ih]

theorem map_line_matchesIn (p : Pattern) (input : Bytes) :
    (p.matchesIn input).map MatchingLine.line = (p.matchingBytes input).map Text.decode :=
  map_line_matching p (Text.byteLines input) 1

theorem exists_byteLine_of_mem {m : MatchingLine} {input : Bytes} (h : m ∈ p.matchesIn input) :
    ∃ line, 0 < m.number ∧ (Text.byteLines input)[m.number - 1]? = some line ∧
      m.line = Text.decode line ∧ p.occursIn m.line = true := by
  obtain ⟨⟨line, number⟩, hmem, hm⟩ := List.mem_filterMap.mp h
  obtain ⟨hpos, hline⟩ := List.mk_mem_zipIdx_iff_le_and_getElem?_sub.mp hmem
  rw [List.getElem?_map, Option.map_eq_some_iff] at hline
  obtain ⟨bytes, hbytes, rfl⟩ := hline
  obtain ⟨hoccurs, hm⟩ := Option.ite_none_right_eq_some.mp hm
  obtain rfl := Option.some.inj hm
  exact ⟨bytes, hpos, hbytes, rfl, hoccurs⟩

theorem printed_without_switches (isColored : Bool) (name : String) (ms : List MatchingLine) :
    SearchOptions.printed ⟨false, false, false, isColored⟩ name ms =
      (ms.map MatchingLine.line).flatMap (Text.encode · ++ [Text.lineFeed]) := by
  induction ms with
  | nil => rfl
  | cons m ms ih =>
    have hline : Text.encode (SearchOptions.lineText ⟨false, false, false, isColored⟩ name m) =
        Text.encode m.line ++ [Text.lineFeed] := by
      simp only [SearchOptions.lineText, SearchOptions.nameText, SearchOptions.numberText,
        Bool.false_eq_true, if_false, String.empty_append, Text.encode_append]
      rfl
    rw [SearchOptions.printed_cons, ih, hline, List.map_cons, List.flatMap_cons]

/-- A pattern made from a text occurs in plain lines alone. A search is no different without the
others, whatever it prints, and prints the lines in which the pattern occurs byte for byte. -/
theorem searchInput_of_ofString {source : String} {events : List Event}
    (h : ofString source = .ok (p, events)) (name : String) (input : Bytes) :
    (∀ line, Text.isPlain line = false → p.occursIn (Text.decode line) = false) ∧
    (∀ line : Bytes, ∀ b ∈ line, 0x80 ≤ b.toNat →
      ∃ c ∈ (Text.decode line).toList, 0x80 ≤ c.toNat) ∧
    (∀ o s, p.searchLines o name (numberedLines input) s =
      p.searchLines o name (plainLines input) s) ∧
    (∀ m ∈ p.matchesIn input, ∃ line, 0 < m.number ∧
      (Text.byteLines input)[m.number - 1]? = some line ∧ Text.isPlain line = true ∧
      Text.encode m.line = line) ∧
    ∀ isColored written fault found,
      p.searchInput ⟨false, false, false, isColored⟩ name input ⟨⟨written, none, fault⟩, found⟩ =
        (.ok (), ⟨⟨written ++ (p.matchingBytes input).flatMap (· ++ [Text.lineFeed]), none, fault⟩,
          found + (p.matchingBytes input).length⟩) := by
  obtain ⟨t, hderivable, hfinds⟩ := exists_derivable_of_ofString h
  have hplain {line : Bytes} (hline : p.occursIn (Text.decode line) = true) :
      Text.isPlain line = true :=
    Text.isPlain_iff.mpr (hfinds.isSupported_of_occursIn hderivable hline)
  refine ⟨fun line hline ↦ ?_, fun line b ↦ Text.exists_nonAscii, fun o s ↦ ?_, fun m hm ↦ ?_,
    fun isColored written fault found ↦ ?_⟩
  · by_contra hoccurs
    rw [hplain (Bool.not_eq_false _ ▸ hoccurs)] at hline
    cases hline
  · rw [numberedLines_eq_map, plainLines]
    apply searchLines_filter (Prod.map Text.decode id) (Text.isPlain ·.1)
    intro line _ hoccurs
    exact hplain hoccurs
  · obtain ⟨line, hpos, hline, hdecode, hoccurs⟩ := exists_byteLine_of_mem hm
    rw [hdecode] at hoccurs ⊢
    exact ⟨line, hpos, hline, hplain hoccurs, Text.encode_decode_of_isPlain (hplain hoccurs)⟩
  · have hlines : ((p.matchesIn input).map MatchingLine.line).flatMap
        (Text.encode · ++ [Text.lineFeed]) =
          (p.matchingBytes input).flatMap (· ++ [Text.lineFeed]) := by
      rw [map_line_matchesIn, List.flatMap_map]
      refine List.flatMap_congr fun line hline ↦ ?_
      have hoccurs := (List.mem_filter.mp hline).2
      rw [Text.encode_decode_of_isPlain (hplain hoccurs)]
    have hcount : (p.matchesIn input).length = (p.matchingBytes input).length := by
      rw [← List.length_map MatchingLine.line, map_line_matchesIn, List.length_map]
    rw [searchInput_of_room_none p rfl, printed_without_switches, hlines, hcount]

theorem searchInput_of_ofString_broken :
    ∃ p events, ofString "a" = .ok (p, events) ∧
      p.searchInput ⟨false, false, false, false⟩ "" [0x61, 0x0a, 0xff, 0x61, 0x0a]
        ⟨.unlimited, 0⟩ = (.ok (), ⟨⟨#[0x61, 0x0a], none, .other⟩, 1⟩) := by
  obtain ⟨p, events, hp, hoccurs⟩ := exists_occursIn
  obtain ⟨hplain, _, _, _, hsearch⟩ :=
    searchInput_of_ofString hp "" [0x61, 0x0a, 0xff, 0x61, 0x0a]
  have hlines : Text.byteLines [0x61, 0x0a, 0xff, 0x61, 0x0a] = [[0x61], [0xff, 0x61]] := by
    decide
  have hfirst : p.occursIn (Text.decode [0x61]) = true := hoccurs
  have hsecond := hplain [0xff, 0x61] (by decide)
  have hmatching : p.matchingBytes [0x61, 0x0a, 0xff, 0x61, 0x0a] = [[0x61]] := by
    simp [matchingBytes, hlines, hfirst, hsecond]
  refine ⟨p, events, hp, (hsearch false #[] .other 0).trans ?_⟩
  rw [hmatching]
  rfl

end Pattern

end LineSearch
