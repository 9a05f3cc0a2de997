import LineSearch.Proofs.Syntax.Reading

namespace LineSearch

/-- What a scan knows of the characters before it. -/
structure Scan where
  depth : Nat
  atomExpected : Bool

namespace Scan

def start : Scan := ⟨0, true⟩

def step (position : Nat) (s : Scan) (c : Char) : Except SyntaxError Scan :=
  if Alphabet.isSupported c = false then .error (.unsupportedChar position c)
  else if c = '(' then
    if s.depth = 256 then .error (.nestingTooDeep 256) else .ok ⟨s.depth + 1, true⟩
  else if c = ')' then
    if s.atomExpected then .error (.unexpectedToken .atom .rightParen)
    else if s.depth = 0 then .error (.unexpectedToken .endOfPattern .rightParen)
    else .ok ⟨s.depth - 1, false⟩
  else if c = '|' then
    if s.atomExpected then .error (.unexpectedToken .atom .bar) else .ok ⟨s.depth, true⟩
  else if c = '*' then
    if s.atomExpected then .error (.unexpectedToken .atom .star) else .ok s
  else .ok ⟨s.depth, false⟩

def verdict (s : Scan) : Except SyntaxError Unit :=
  if s.depth = 0 ∧ s.atomExpected = false then .ok () else .error .unexpectedEnd

def run (position : Nat) (s : Scan) : List Char → Except SyntaxError Unit
  | [] => s.verdict
  | c :: rest =>
    match s.step position c with
    | .ok next => next.run (position + 1) rest
    | .error e => .error e

def outcome (pattern : String) : Except SyntaxError Unit :=
  if pattern.toList = [] then .error .emptyPattern else start.run 0 pattern.toList

end Scan

namespace Reading

def scan (r : Reading) : Scan := ⟨r.depth, r.factor.isNone⟩

theorem map_scan_readChar {r : Reading} (h : r.base = 0) (position : Nat) (c : Char) :
    (r.readChar position c).map scan = r.scan.step position c := by
  rcases Token.unsupported_or_operator_or_terminal c with hc | rfl | rfl | rfl | rfl | hc
  · rw [readChar, Token.ofChar?_eq_none_iff.mpr hc, Scan.step, if_pos hc, Except.map]
  · change (r.feed .leftParen).map scan = if r.depth = 256 then _ else _
    by_cases hd : r.depth = 256
    · simp only [feed, hd, maxNesting, if_true, Except.map]
    · simp only [feed, hd, maxNesting, if_false, Except.map]
      rfl
  · change (r.feed .rightParen).map scan =
      if r.factor.isNone then _ else if r.depth = 0 then _ else _
    cases hf : r.factor <;> cases he : r.enclosing <;>
      simp [feed, scan, depth, h, hf, he, Except.map]
  · change (r.feed .bar).map scan = if r.factor.isNone then _ else _
    cases hf : r.factor <;> simp [feed, scan, depth, hf, Except.map]
  · change (r.feed .star).map scan = if r.factor.isNone then _ else _
    cases hf : r.factor <;> simp [feed, scan, depth, hf, Except.map]
  · obtain ⟨hs, hl, hr, hb, hstar⟩ := hc
    rw [readChar_eq_feed (Token.ofChar?_eq_literal_iff.mpr ⟨rfl, hs, hl, hr, hb, hstar⟩)]
    simp only [Scan.step, hs, hl, hr, hb, hstar, reduceCtorEq, if_false]
    rfl

theorem map_finish {r : Reading} (h : r.base = 0) :
    r.finish.1.map (fun _ ↦ ()) = r.scan.verdict := by
  cases hf : r.factor <;> cases he : r.enclosing <;>
    simp [finish, Scan.verdict, scan, depth, h, hf, he, Except.map]

theorem map_read_finish {r : Reading} (h : r.base = 0) (position : Nat) (text : List Char) :
    (r.read position text >>= fun last ↦ last.finish.1).map (fun _ ↦ ()) =
      r.scan.run position text := by
  induction text generalizing position r with
  | nil => exact map_finish h
  | cons c text ih =>
    have hstep := map_scan_readChar h position c
    rw [read, Scan.run, ← hstep]
    cases hread : r.readChar position c with
    | error e => rfl
    | ok fed =>
      obtain ⟨token, hc, ht⟩ := readChar_eq_ok_iff.mp hread
      exact ih (ht.base_eq.trans h) (position + 1)

theorem feed_ne_unsupportedChar (r : Reading) (token : Token) (i : Nat) (c : Char) :
    r.feed token ≠ .error (.unsupportedChar i c) := by
  unfold feed
  repeat' split
  all_goals simp

theorem finish_ne_unsupportedChar (r : Reading) (i : Nat) (c : Char) :
    r.finish.1 ≠ .error (.unsupportedChar i c) := by
  unfold finish
  split <;> simp

/-- A character that ends a parse ends the reading of tokens, too. -/
theorem tokens_eq_error_of_read {r : Reading} {position i : Nat} {c : Char} {text : List Char}
    (h : (r.read position text >>= fun last ↦ last.finish.1) = .error (.unsupportedChar i c)) :
    Lexer.tokens position text = .error (.unsupportedChar i c) := by
  induction text generalizing position r with
  | nil => exact absurd h (finish_ne_unsupportedChar r i c)
  | cons d text ih =>
    rw [read, readChar] at h
    rw [Lexer.tokens]
    cases hd : Token.ofChar? d with
    | none =>
      rw [hd] at h
      cases h
      rfl
    | some token =>
      simp only [hd] at h
      cases hf : r.feed token with
      | error e =>
        rw [hf] at h
        cases h
        exact absurd hf (feed_ne_unsupportedChar r token i c)
      | ok fed =>
        rw [hf] at h
        simp only [ih h, Except.map]

end Reading

namespace Scan

/-- The two ways in which a token does not fit, as a message tells them. -/
def Misfit (expected : Expected) (found : Token) : Prop :=
  expected.text = "literal or `(`" ∧
      (found, found.text) ∈ [(.rightParen, "`)`"), (.bar, "`|`"), (.star, "`*`")] ∨
    expected.text = "EOF" ∧ found = .rightParen ∧ found.text = "`)`"

theorem Misfit.ne_rightParen {expected : Expected} {found : Token} (h : Misfit expected found) :
    expected.text ≠ "`)`" := by
  rcases h with h | h <;> rw [h.1] <;> decide

theorem misfit_of_step {position : Nat} {s : Scan} {c : Char} {expected : Expected} {found : Token}
    (h : s.step position c = .error (.unexpectedToken expected found)) :
    Misfit expected found := by
  unfold step at h
  unfold Misfit
  grind [Expected.text, Token.text]

theorem misfit_of_run {position : Nat} {s : Scan} {text : List Char} {expected : Expected}
    {found : Token} (h : s.run position text = .error (.unexpectedToken expected found)) :
    Misfit expected found := by
  induction text generalizing position s with
  | nil =>
    simp only [run, verdict] at h
    split at h <;> cases h
  | cons c text ih =>
    rw [run] at h
    split at h
    · exact ih h
    · next hs =>
      cases h
      exact misfit_of_step hs

end Scan

/-- The parser succeeds exactly if the scan does, and fails with the error of the scan. It asks for
an atom or for the end of the pattern, never for a right parenthesis, and a character that it finds
unsupported is the one that reading the tokens alone stops at. -/
theorem Tree.parse_outcome (s : String) :
    (Tree.parse s).map (fun _ ↦ ()) = Scan.outcome s ∧
    (∀ expected found, Tree.parse s = .error (.unexpectedToken expected found) →
      Scan.Misfit expected found ∧ expected.text ≠ "`)`") ∧
    ∀ position c, Tree.parse s = .error (.unsupportedChar position c) →
      (Lexer.ofString s).tokenize = .error (.unsupportedChar position c) := by
  have houtcome : (Tree.parse s).map (fun _ ↦ ()) = Scan.outcome s := by
    rw [parse_eq_read, Scan.outcome]
    split
    · rfl
    · exact Reading.map_read_finish rfl 0 s.toList
  refine ⟨houtcome, fun expected found h ↦ ?_, fun position c h ↦ ?_⟩
  · have hmisfit : Scan.Misfit expected found := by
      rw [h, Scan.outcome] at houtcome
      split at houtcome
      · cases houtcome
      · exact Scan.misfit_of_run houtcome.symm
    exact ⟨hmisfit, hmisfit.ne_rightParen⟩
  · rw [parse_eq_read] at h
    split at h
    · cases h
    · exact Reading.tokens_eq_error_of_read h

theorem Tree.parse_outcome_bar_star :
    Tree.parse "a|*é" = .error (.unexpectedToken .atom .star) ∧ Scan.Misfit .atom .star ∧
    Tree.parse "(é*" = .error (.unsupportedChar 1 'é') ∧
    (Lexer.ofString "(é*").tokenize = .error (.unsupportedChar 1 'é') :=
  ⟨by rfl, ((parse_outcome "a|*é").2.1 .atom .star (by rfl)).1, by rfl,
    (parse_outcome "(é*").2.2 1 'é' (by rfl)⟩

end LineSearch
