import LineSearch.Syntax.Parser
import Mathlib.Logic.Basic

namespace LineSearch

def IsTerminal (c : Char) : Prop :=
  Alphabet.isSupported c = true ∧ c ≠ '(' ∧ c ≠ ')' ∧ c ≠ '|' ∧ c ≠ '*'

namespace Token

variable {c : Char} {token : Token}

def chars : Token → List Char
  | leftParen => ['(']
  | rightParen => [')']
  | bar => ['|']
  | star => ['*']
  | literal c => [c]
  | endOfPattern => []

theorem ofChar?_ne_endOfPattern (c : Char) : ofChar? c ≠ some .endOfPattern := by
  unfold ofChar?
  grind

theorem chars_of_ofChar? (h : ofChar? c = some token) : token.chars = [c] := by
  unfold ofChar? at h
  grind [chars]

theorem ofChar?_eq_none_iff : ofChar? c = none ↔ Alphabet.isSupported c = false := by
  have h : Alphabet.isSupported '(' = true ∧ Alphabet.isSupported ')' = true ∧
      Alphabet.isSupported '|' = true ∧ Alphabet.isSupported '*' = true := by decide
  unfold ofChar?
  grind

theorem ofChar?_eq_literal_iff {d : Char} : ofChar? c = some (.literal d) ↔ c = d ∧ IsTerminal c := by
  unfold ofChar? IsTerminal
  grind

theorem unsupported_or_operator_or_terminal (c : Char) :
    Alphabet.isSupported c = false ∨ c = '(' ∨ c = ')' ∨ c = '|' ∨ c = '*' ∨ IsTerminal c := by
  unfold IsTerminal
  grind

end Token

namespace Reading

def readChar (position : Nat) (r : Reading) (c : Char) : Except SyntaxError Reading :=
  match Token.ofChar? c with
  | some token => r.feed token
  | none => .error (.unsupportedChar position c)

def read (position : Nat) (r : Reading) : List Char → Except SyntaxError Reading
  | [] => .ok r
  | c :: rest => r.readChar position c >>= fun fed ↦ fed.read (position + 1) rest

theorem readChar_eq_feed {c : Char} {token : Token} (h : Token.ofChar? c = some token)
    (position : Nat) (r : Reading) : r.readChar position c = r.feed token := by
  simp only [readChar, h]

theorem read_append (position : Nat) (r : Reading) (text rest : List Char) :
    r.read position (text ++ rest) =
      r.read position text >>= fun taken ↦ taken.read (position + text.length) rest := by
  induction text generalizing position r with
  | nil => rfl
  | cons c text ih =>
    simp only [List.cons_append, read]
    cases r.readChar position c with
    | error e => rfl
    | ok fed =>
      have hlength : position + 1 + text.length = position + (c :: text).length := by
        rw [List.length_cons]
        omega
      exact hlength ▸ ih (position + 1) fed

theorem nextHole_of_none {r : Reading} (h : r.factor = none) : r.nextHole = r.hole := by
  rw [nextHole, h]

theorem nextHole_of_some {r : Reading} {t : Tree} (h : r.factor = some t) :
    r.nextHole = { r.hole with factors := some (r.hole.concatWith t) } := by
  rw [nextHole, h]

theorem with_factor_eq_self {r : Reading} {t : Tree} (h : r.factor = some t) :
    { r with factor := some t } = r := by
  rw [← h]

def followedBy (r : Reading) (factor : Tree) : Reading :=
  { r with hole := r.nextHole, factor := some factor }

def opened (r : Reading) : Reading :=
  { r with enclosing := r.nextHole :: r.enclosing, hole := .empty, factor := none }

/-- What a reading becomes by a token that it takes. -/
inductive Takes (r : Reading) : Token → Reading → Prop
  | literal (c : Char) : Takes r (.literal c) (r.followedBy (.unstarred (.terminal c)))
  | leftParen (h : r.depth ≠ maxNesting) : Takes r .leftParen r.opened
  | star {t : Tree} (h : r.factor = some t) : Takes r .star { r with factor := some (.star t) }
  | bar {t : Tree} (h : r.factor = some t) :
      Takes r .bar { r with hole := ⟨some (r.hole.unionWith t), none⟩, factor := none }
  | rightParen {t : Tree} {outer : Hole} {enclosing : List Hole} (h : r.factor = some t)
      (he : r.enclosing = outer :: enclosing) :
      Takes r .rightParen
        { r with enclosing, hole := outer,
                 factor := some (.unstarred (.paren (r.hole.unionWith t))) }

theorem takes_rightParen_opened (r : Reading) (hole : Hole) (t : Tree) :
    Takes { r.opened with hole, factor := some t } .rightParen
      (r.followedBy (.unstarred (.paren (hole.unionWith t)))) :=
  .rightParen rfl rfl

theorem feed_eq_ok_iff {r fed : Reading} {token : Token} :
    r.feed token = .ok fed ↔ r.Takes token fed := by
  constructor
  · intro h
    unfold feed at h
    split at h
    · cases h
      exact .literal _
    · split at h
      · cases h
      · next hd =>
        cases h
        exact .leftParen hd
    · next hf =>
      cases h
      exact .star hf
    · next hf =>
      cases h
      exact .bar hf
    · next hf =>
      split at h
      · cases h
      · next he =>
        cases h
        exact .rightParen hf he
    all_goals cases h
  · intro h
    cases h with
    | literal c => rfl
    | leftParen h => simp [feed, h, opened]
    | star h => simp [feed, h]
    | bar h => simp [feed, h]
    | rightParen h he => simp [feed, h, he]

theorem Takes.base_eq {r fed : Reading} {token : Token} (h : r.Takes token fed) :
    fed.base = r.base := by
  cases h <;> rfl

theorem readChar_eq_ok_iff {position : Nat} {r fed : Reading} {c : Char} :
    r.readChar position c = .ok fed ↔ ∃ token, Token.ofChar? c = some token ∧ r.Takes token fed := by
  unfold readChar
  split
  · next token hc => simp [hc, feed_eq_ok_iff]
  · next hc => simp [hc]

theorem read_append_of_eq_ok {position : Nat} {r taken : Reading} {text : List Char}
    (h : r.read position text = .ok taken) (rest : List Char) :
    r.read position (text ++ rest) = taken.read (position + text.length) rest := by
  rw [read_append, h]
  rfl

theorem read_cons_of_takes {c : Char} {token : Token} {r fed : Reading}
    (hc : Token.ofChar? c = some token) (h : r.Takes token fed) (position : Nat)
    (rest : List Char) : r.read position (c :: rest) = fed.read (position + 1) rest := by
  rw [read, readChar_eq_ok_iff.mpr ⟨token, hc, h⟩]
  rfl

end Reading

namespace Parser

theorem run_eq_read (r : Reading) (token : Token) (position : Nat) (rest : List Char) :
    (run r token position rest).1 =
      r.feed token >>= fun fed ↦ fed.read position rest >>= fun last ↦ last.finish.1 := by
  induction rest generalizing r token position with
  | nil =>
    rw [run]
    cases r.feed token <;> rfl
  | cons c rest ih =>
    rw [run]
    cases r.feed token with
    | error e => rfl
    | ok fed =>
      change _ = fed.read position (c :: rest) >>= fun last ↦ last.finish.1
      rw [Reading.read, Reading.readChar]
      cases Token.ofChar? c with
      | none => rfl
      | some next => exact (ih fed next (position + 1)).trans (bind_assoc ..).symm

end Parser

/-- Reading a pattern character by character gives its tree. -/
theorem Tree.parse_eq_read (s : String) :
    Tree.parse s =
      if s.toList = [] then .error .emptyPattern
      else (Reading.start 0).read 0 s.toList >>= fun last ↦ last.finish.1 := by
  rw [Tree.parse, Parser.ofString, Lexer.ofString, Lexer.next]
  cases hs : s.toList with
  | nil => rfl
  | cons c rest =>
    simp only [reduceCtorEq, if_false, Reading.read, Reading.readChar]
    cases hc : Token.ofChar? c with
    | none => rfl
    | some token =>
      have hne : token ≠ .endOfPattern := by
        intro h
        exact Token.ofChar?_ne_endOfPattern c (h ▸ hc)
      simp only [Parser.parse, hne, if_false, Parser.run_eq_read, Nat.zero_add, bind_assoc]

end LineSearch
