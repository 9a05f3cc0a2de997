import LineSearch.Proofs.Syntax.Scan

namespace LineSearch

namespace Reading

variable {r fed : Reading} {token : Token} {base limit : Nat}

def feedWithin (limit : Nat) (r : Reading) (token : Token) : Except SyntaxError Reading :=
  if token = .leftParen ∧ r.depth = limit then .error (.nestingTooDeep maxNesting)
  else r.feed token

theorem feedWithin_maxNesting (r : Reading) (token : Token) :
    r.feedWithin maxNesting token = r.feed token := by
  unfold feedWithin
  split
  · next h =>
    obtain ⟨rfl, hd⟩ := h
    simp only [feed, hd, if_true]
  · rfl

theorem depth_le_of_feedWithin (h : r.feedWithin limit token = .ok fed) (hr : r.depth ≤ limit) :
    fed.depth ≤ limit := by
  unfold feedWithin at h
  split at h
  · cases h
  · next hd =>
    have ht := feed_eq_ok_iff.mp h
    cases ht with
    | literal c => exact hr
    | leftParen _ =>
      have hne : r.depth ≠ limit := fun h ↦ hd ⟨rfl, h⟩
      change r.depth + 1 ≤ limit
      omega
    | star _ => exact hr
    | bar _ => exact hr
    | rightParen _ he =>
      simp only [depth, he, List.length_cons] at hr ⊢
      omega

theorem depth_le_of_feed (h : r.feed token = .ok fed) (hr : r.depth ≤ maxNesting) :
    fed.depth ≤ maxNesting :=
  depth_le_of_feedWithin ((r.feedWithin_maxNesting token).trans h) hr

theorem feedWithin_ne_unsupportedChar (limit : Nat) (r : Reading) (token : Token) (i : Nat)
    (c : Char) : r.feedWithin limit token ≠ .error (.unsupportedChar i c) := by
  unfold feedWithin
  split
  · simp
  · exact r.feed_ne_unsupportedChar token i c

/-- The reading inside `base` more parentheses that earlier calls have left open. -/
def raised (base : Nat) (r : Reading) : Reading := { r with base := r.base + base }

theorem depth_raised (base : Nat) (r : Reading) : (r.raised base).depth = r.depth + base := by
  simp only [depth, raised]
  omega

theorem feed_raised (hlimit : limit + base = maxNesting) (hr : r.depth ≤ limit) (token : Token) :
    (r.raised base).feed token = (r.feedWithin limit token).map (raised base) := by
  cases token with
  | leftParen =>
    have hd : (r.raised base).depth = maxNesting ↔ r.depth = limit := by
      rw [depth_raised]
      omega
    by_cases hl : r.depth = limit
    · simp only [feed, hd.mpr hl, feedWithin, hl, if_true, and_self]
      rfl
    · have hne : r.depth ≠ maxNesting := by omega
      simp only [feed, mt hd.mp hl, feedWithin, hl, hne, if_false, and_false]
      rfl
  | literal c => rfl
  | endOfPattern => rfl
  | star => cases hf : r.factor <;> simp [feedWithin, feed, raised, hf, Except.map]
  | bar => cases hf : r.factor <;> simp [feedWithin, feed, raised, hf, Except.map]
  | rightParen =>
    cases hf : r.factor <;> cases he : r.enclosing <;>
      simp [feedWithin, feed, raised, hf, he, Except.map]

theorem finish_raised (base : Nat) (r : Reading) :
    (r.raised base).finish = (r.finish.1, r.finish.2 + base) := by
  cases hf : r.factor with
  | none => simp [finish, raised, hf, depth, Nat.add_right_comm]
  | some factor =>
    cases he : r.enclosing with
    | nil => simp [finish, raised, hf, he, depth]
    | cons outer enclosing =>
      simp only [finish, raised, hf, he, depth, List.length_cons, Prod.mk.injEq, true_and]
      omega

end Reading

namespace SyntaxError

def displaced (offset : Nat) : SyntaxError → SyntaxError
  | unsupportedChar position c => unsupportedChar (position + offset) c
  | e => e

theorem displaced_eq_self {e : SyntaxError} (h : ∀ i c, e ≠ .unsupportedChar i c) (offset : Nat) :
    e.displaced offset = e := by
  cases e with
  | unsupportedChar i c => exact absurd rfl (h i c)
  | _ => rfl

end SyntaxError

namespace Parser

variable {p : Parser} {base limit offset position : Nat} {r : Reading} {token : Token}

def runWithin (limit : Nat) (r : Reading) (token : Token) (position : Nat) :
    List Char → Except SyntaxError Tree × Parser
  | [] =>
    match r.feedWithin limit token with
    | .error e => (.error e, ⟨⟨[], position⟩, token, r.depth⟩)
    | .ok fed => (fed.finish.1, ⟨⟨[], position⟩, .endOfPattern, fed.finish.2⟩)
  | c :: rest =>
    match r.feedWithin limit token with
    | .error e => (.error e, ⟨⟨c :: rest, position⟩, token, r.depth⟩)
    | .ok fed =>
      match Token.ofChar? c with
      | some next => runWithin limit fed next (position + 1) rest
      | none =>
        (.error (.unsupportedChar position c),
          ⟨⟨rest, position + 1⟩, token, min r.depth fed.depth⟩)

def parseWithin (limit : Nat) (p : Parser) : Except SyntaxError Tree × Parser :=
  if p.current = .endOfPattern then (.error .emptyPattern, p)
  else runWithin limit (.start p.depth) p.current p.lexer.position p.lexer.rest

theorem runWithin_maxNesting (r : Reading) (token : Token) (position : Nat) (text : List Char) :
    runWithin maxNesting r token position text = run r token position text := by
  induction text generalizing r token position with
  | nil =>
    cases hfeed : r.feed token <;> simp only [runWithin, run, Reading.feedWithin_maxNesting, hfeed]
  | cons c rest ih =>
    cases hfeed : r.feed token with
    | error e => simp only [runWithin, run, Reading.feedWithin_maxNesting, hfeed]
    | ok fed =>
      cases hc : Token.ofChar? c <;>
        simp only [runWithin, run, Reading.feedWithin_maxNesting, hfeed, hc, ih]

theorem parseWithin_maxNesting (p : Parser) : p.parseWithin maxNesting = p.parse := by
  rw [parseWithin, parse, runWithin_maxNesting]

/-- An answer given `offset` characters further on and inside `base` more parentheses. -/
def displaced (offset base : Nat) (answer : Except SyntaxError Tree × Parser) :
    Except SyntaxError Tree × Parser :=
  (answer.1.mapError (·.displaced offset),
    ⟨⟨answer.2.lexer.rest, answer.2.lexer.position + offset⟩, answer.2.current,
      answer.2.depth + base⟩)

theorem displaced_of_error (offset base : Nat) (e : SyntaxError) (p : Parser) :
    displaced offset base (.error e, p) =
      (.error (e.displaced offset),
        ⟨⟨p.lexer.rest, p.lexer.position + offset⟩, p.current, p.depth + base⟩) := rfl

theorem displaced_error {e : SyntaxError} (h : ∀ i c, e ≠ .unsupportedChar i c)
    (offset base : Nat) (p : Parser) :
    displaced offset base (.error e, p) =
      (.error e, ⟨⟨p.lexer.rest, p.lexer.position + offset⟩, p.current, p.depth + base⟩) := by
  rw [displaced_of_error, SyntaxError.displaced_eq_self h]

theorem displaced_finish (offset base position : Nat) (r : Reading) :
    displaced offset base (r.finish.1, ⟨⟨[], position⟩, .endOfPattern, r.finish.2⟩) =
      ((r.raised base).finish.1, ⟨⟨[], position + offset⟩, .endOfPattern,
        (r.raised base).finish.2⟩) := by
  rw [Reading.finish_raised]
  cases hfinish : r.finish.1 with
  | error e =>
    rw [displaced_error (fun i c he ↦ r.finish_ne_unsupportedChar i c (he ▸ hfinish))]
  | ok t => rfl

theorem displaced_of_feedWithin_eq_error {e : SyntaxError}
    (h : r.feedWithin limit token = .error e) (offset base : Nat) (p : Parser) :
    displaced offset base (.error e, p) =
      (.error e, ⟨⟨p.lexer.rest, p.lexer.position + offset⟩, p.current, p.depth + base⟩) := by
  apply displaced_error
  intro i c he
  exact r.feedWithin_ne_unsupportedChar limit token i c (he ▸ h)

theorem run_raised (hlimit : limit + base = maxNesting) (hr : r.depth ≤ limit) (offset : Nat)
    (token : Token) (position : Nat) (text : List Char) :
    run (r.raised base) token (position + offset) text =
      displaced offset base (runWithin limit r token position text) := by
  -- A character that is taken leaves the depth within the limit, so the next one meets the same.
  induction text generalizing r token position with
  | nil =>
    rw [run, runWithin, Reading.feed_raised hlimit hr]
    cases hfeed : r.feedWithin limit token with
    | error e =>
      simp only [displaced_of_feedWithin_eq_error hfeed, Except.map, Reading.depth_raised]
    | ok fed => exact (displaced_finish offset base position fed).symm
  | cons c rest ih =>
    rw [run, runWithin, Reading.feed_raised hlimit hr]
    cases hfeed : r.feedWithin limit token with
    | error e =>
      simp only [displaced_of_feedWithin_eq_error hfeed, Except.map, Reading.depth_raised]
    | ok fed =>
      simp only [Except.map]
      cases Token.ofChar? c with
      | none =>
        simp only [displaced_of_error, SyntaxError.displaced, Reading.depth_raised,
          Nat.add_min_add_right, Nat.add_right_comm position offset 1]
      | some next =>
        simp only [Nat.add_right_comm position offset 1]
        exact ih (Reading.depth_le_of_feedWithin hfeed hr) next (position + 1)

end Parser

end LineSearch
