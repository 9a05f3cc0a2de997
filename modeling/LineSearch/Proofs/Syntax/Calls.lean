import LineSearch.Proofs.Syntax.Descent
import LineSearch.Proofs.Syntax.Nesting
import LineSearch.Proofs.Syntax.Parsing
import Mathlib.Logic.Function.Iterate

namespace LineSearch

def Token.refusal : Token → SyntaxError
  | endOfPattern => .emptyPattern
  | leftParen => .nestingTooDeep maxNesting
  | token => .unexpectedToken .atom token

theorem Token.ne_endOfPattern_of_ofChar? {c : Char} {token : Token}
    (h : ofChar? c = some token) : token ≠ .endOfPattern := by
  rintro rfl
  exact ofChar?_ne_endOfPattern c h

namespace Parser

variable {p : Parser} {base position : Nat} {r : Reading} {token : Token}

/-- The parser holds a token that it has read, and does not hold too many parentheses open. -/
structure Valid (p : Parser) : Prop where
  depth_le : p.depth ≤ maxNesting
  held : (p.current = .endOfPattern ∧ p.lexer.rest = []) ∨ ∃ c, Token.ofChar? c = some p.current
  read : p.current.chars.length ≤ p.lexer.position

def remaining (p : Parser) : List Char := p.current.chars ++ p.lexer.rest

/-- A parser that has read the first token of what `p` has still to take, and nothing else. -/
def fresh (p : Parser) : Parser := ⟨⟨p.lexer.rest, p.current.chars.length⟩, p.current, 0⟩

theorem Valid.ofString_remaining (h : p.Valid) :
    ofString (String.ofList p.remaining) = .ok p.fresh := by
  rw [ofString, Lexer.ofString, Lexer.next, String.toList_ofList, remaining, fresh]
  rcases h.held with ⟨hcurrent, hrest⟩ | ⟨c, hc⟩
  · rw [hcurrent, hrest]
    rfl
  · simp only [Token.chars_of_ofChar? hc, List.cons_append, List.nil_append, hc]
    rfl

theorem Valid.position_pos (h : p.Valid) {c : Char} (hc : Token.ofChar? c = some p.current) :
    0 < p.lexer.position := by
  have hread := h.read
  rwa [Token.chars_of_ofChar? hc] at hread

theorem Valid.parse_eq_displaced (h : p.Valid) :
    ∃ offset, p.lexer.position = p.fresh.lexer.position + offset ∧
      p.parse = displaced offset p.depth (p.fresh.parseWithin (maxNesting - p.depth)) := by
  obtain ⟨offset, hoffset⟩ := Nat.exists_eq_add_of_le h.read
  refine ⟨offset, hoffset, ?_⟩
  have hlimit : maxNesting - p.depth + p.depth = maxNesting := Nat.sub_add_cancel h.depth_le
  rw [parse, parseWithin]
  by_cases hp : p.current = .endOfPattern
  · have hfresh : p.fresh.current = .endOfPattern := hp
    have hposition : p.lexer.position = offset := by
      rw [hoffset, hp]
      exact Nat.zero_add offset
    rw [if_pos hp, if_pos hfresh, displaced_error (by simp)]
    simp only [fresh, hp, Token.chars, List.length_nil, Nat.zero_add, ← hposition]
    rw [← hp]
  · have hfresh : ¬p.fresh.current = .endOfPattern := hp
    have hstart : Reading.start p.depth = (Reading.start 0).raised p.depth := by
      simp only [Reading.start, Reading.raised, Nat.zero_add]
    rw [if_neg hp, if_neg hfresh, hoffset, hstart]
    exact run_raised hlimit (Nat.zero_le _) offset p.current p.fresh.lexer.position p.lexer.rest

theorem Valid.parse_fst_eq_ok_iff (h : p.Valid) (t : Tree) :
    p.parse.1 = .ok t ↔ t.Fits .union p.depth ∧ t.chars = p.remaining := by
  rcases h.held with ⟨hcurrent, hrest⟩ | ⟨c, hc⟩
  · rw [parse, if_pos hcurrent, remaining, hcurrent, hrest]
    exact iff_of_false (by simp) fun ht ↦ t.chars_ne_nil ht.2
  · have hread (position : Nat) : (Reading.start p.depth).read position p.remaining =
        (Reading.start p.depth).feed p.current >>= fun fed ↦
          fed.read (position + 1) p.lexer.rest := by
      rw [remaining, Token.chars_of_ofChar? hc, List.singleton_append, Reading.read,
        Reading.readChar_eq_feed hc]
    obtain ⟨position, hposition⟩ := Nat.exists_eq_add_of_lt (h.position_pos hc)
    rw [Nat.zero_add] at hposition
    rw [parse, if_neg (Token.ne_endOfPattern_of_ofChar? hc), run_eq_read, hposition,
      ← bind_assoc, ← hread]
    exact read_finish_eq_ok_iff h.depth_le position p.remaining t

def IsStuck (p : Parser) : Prop := p.parse = (.error p.current.refusal, p)

theorem isStuck_of_endOfPattern (h : p.current = .endOfPattern) : p.IsStuck := by
  rw [IsStuck, parse, if_pos h, h]
  rfl

theorem isStuck_of_feed_eq_error {e : SyntaxError} (h : r.feed token = .error e) (lexer : Lexer) :
    IsStuck ⟨lexer, token, r.depth⟩ := by
  by_cases hend : token = .endOfPattern
  · exact isStuck_of_endOfPattern hend
  · have hfeed : (Reading.start r.depth).feed token = .error token.refusal := by
      cases token with
      | literal c => cases h
      | endOfPattern => exact absurd rfl hend
      | leftParen =>
        have hd : (Reading.start r.depth).depth = maxNesting := by
          change r.depth = maxNesting
          by_contra hd
          simp [Reading.feed, hd] at h
        simp only [Reading.feed, hd, if_true, Token.refusal]
      | rightParen => rfl
      | bar => rfl
      | star => rfl
    have hanswer := Reading.answer_of_feed_eq_error (r := .start r.depth)
      (p := ⟨lexer, token, r.depth⟩) hend rfl hfeed
    rw [IsStuck, parse, if_neg hend]
    rwa [Reading.answer, if_neg hend] at hanswer

/-- How a call ends that finds `text` unread at `position` and `base` parentheses open. -/
inductive Ends (text : List Char) (position base : Nat) : Except SyntaxError Tree → Parser → Prop
  | interrupted {p : Parser} (before : List Char) {c : Char} {i : Nat} (hvalid : p.Valid)
      (htext : text = before ++ c :: p.lexer.rest) (hi : i = position + before.length)
      (hposition : p.lexer.position = i + 1) (hc : Alphabet.isSupported c = false) :
      Ends text position base (.error (.unsupportedChar i c)) p
  /-- The token held is one that the next call does not take. -/
  | settled {p : Parser} {result : Except SyntaxError Tree} (taken : List Char)
      (hvalid : p.Valid) (htext : text = taken ++ p.lexer.rest)
      (hposition : p.lexer.position = position + taken.length) (hstuck : p.IsStuck)
      (hresult : ∀ i c, result ≠ .error (.unsupportedChar i c))
      (hdepth : ∀ t, result = .ok t → p.depth = base) : Ends text position base result p

theorem Ends.cons {text : List Char} {result : Except SyntaxError Tree}
    (h : Ends text (position + 1) base result p) (c : Char) :
    Ends (c :: text) position base result p := by
  cases h with
  | interrupted before hvalid htext hi hposition hd =>
    refine .interrupted (c :: before) hvalid (by rw [htext]; rfl) ?_ hposition hd
    rw [hi, List.length_cons]
    omega
  | settled taken hvalid htext hposition hstuck hresult hdepth =>
    refine .settled (c :: taken) hvalid (by rw [htext]; rfl) ?_ hstuck hresult hdepth
    rw [hposition, List.length_cons]
    omega

theorem valid_of_ofChar? {c : Char} (hc : Token.ofChar? c = some token) {depth : Nat}
    (hdepth : depth ≤ maxNesting) (hposition : 0 < position) (rest : List Char) :
    Valid ⟨⟨rest, position⟩, token, depth⟩ := by
  refine ⟨hdepth, Or.inr ⟨c, hc⟩, ?_⟩
  rw [Token.chars_of_ofChar? hc]
  exact hposition

theorem ends_of_feed_eq_error {e : SyntaxError} (h : r.feed token = .error e) {text : List Char}
    (hvalid : Valid ⟨⟨text, position⟩, token, r.depth⟩) :
    Ends text position r.base (.error e) ⟨⟨text, position⟩, token, r.depth⟩ := by
  refine .settled [] hvalid rfl rfl (isStuck_of_feed_eq_error h _) ?_ (by simp)
  intro i c he
  cases he
  exact r.feed_ne_unsupportedChar token i c h

theorem snd_finish_le (r : Reading) : r.finish.2 ≤ r.depth := by
  unfold Reading.finish
  split <;> simp

theorem ends_finish (hr : r.depth ≤ maxNesting) (position : Nat) :
    Ends [] position r.base r.finish.1 ⟨⟨[], position⟩, .endOfPattern, r.finish.2⟩ := by
  have hvalid : Valid ⟨⟨[], position⟩, .endOfPattern, r.finish.2⟩ :=
    ⟨Nat.le_trans (snd_finish_le r) hr, Or.inl ⟨rfl, rfl⟩, Nat.zero_le _⟩
  refine .settled [] hvalid rfl rfl (isStuck_of_endOfPattern rfl)
    (fun i c ↦ r.finish_ne_unsupportedChar i c) fun t ht ↦ ?_
  obtain ⟨he, factor, hf, _⟩ := Reading.finish_eq_ok_iff.mp ht
  simp only [Reading.finish, hf, he, Reading.depth, List.length_nil, Nat.add_zero]

theorem run_ends {c : Char} (hc : Token.ofChar? c = some token) (hr : r.depth ≤ maxNesting)
    (hposition : 0 < position) (text : List Char) :
    Ends text position r.base (run r token position text).1 (run r token position text).2 := by
  induction text generalizing c r token position with
  | nil =>
    rw [run]
    cases hfeed : r.feed token with
    | error e => exact ends_of_feed_eq_error hfeed (valid_of_ofChar? hc hr hposition [])
    | ok fed =>
      rw [← (Reading.feed_eq_ok_iff.mp hfeed).base_eq]
      exact ends_finish (Reading.depth_le_of_feed hfeed hr) position
  | cons d text ih =>
    rw [run]
    cases hfeed : r.feed token with
    | error e => exact ends_of_feed_eq_error hfeed (valid_of_ofChar? hc hr hposition (d :: text))
    | ok fed =>
      cases hd : Token.ofChar? d with
      | none =>
        have hdepth : min r.depth fed.depth ≤ maxNesting := Nat.le_trans (Nat.min_le_left ..) hr
        exact .interrupted [] (valid_of_ofChar? hc hdepth (Nat.succ_pos position) text)
          rfl rfl rfl (Token.ofChar?_eq_none_iff.mp hd)
      | some next =>
        rw [← (Reading.feed_eq_ok_iff.mp hfeed).base_eq]
        have hfed := Reading.depth_le_of_feed hfeed hr
        exact (ih hd hfed (Nat.succ_pos position)).cons d

theorem Valid.parse_ends (h : p.Valid) :
    Ends p.lexer.rest p.lexer.position p.depth p.parse.1 p.parse.2 := by
  rw [parse]
  rcases h.held with ⟨hcurrent, hrest⟩ | ⟨c, hc⟩
  · rw [if_pos hcurrent]
    exact .settled [] h rfl rfl (isStuck_of_endOfPattern hcurrent) (by simp) (by simp)
  · rw [if_neg (Token.ne_endOfPattern_of_ofChar? hc)]
    exact run_ends (r := .start p.depth) hc h.depth_le (h.position_pos hc) p.lexer.rest

def isInterrupted : Except SyntaxError Tree → Bool
  | .error (.unsupportedChar _ _) => true
  | _ => false

theorem isInterrupted_eq_false {result : Except SyntaxError Tree}
    (h : ∀ i c, result ≠ .error (.unsupportedChar i c)) : isInterrupted result = false := by
  unfold isInterrupted
  split
  · next i c => exact absurd rfl (h i c)
  · rfl

def unsupportedCount (text : List Char) : Nat := text.countP (!Alphabet.isSupported ·)

namespace Ends

variable {text : List Char} {result : Except SyntaxError Tree}

theorem valid (h : Ends text position base result p) : p.Valid := by
  cases h with
  | interrupted _ hvalid => exact hvalid
  | settled _ hvalid => exact hvalid

theorem isStuck (h : Ends text position base result p) (hresult : isInterrupted result = false) :
    p.IsStuck := by
  cases h with
  | interrupted => cases hresult
  | settled _ _ _ _ hstuck => exact hstuck

theorem position_le (h : Ends text position base result p) : position ≤ p.lexer.position := by
  cases h <;> omega

theorem position_lt (h : Ends text position base result p) (hresult : isInterrupted result = true) :
    position < p.lexer.position := by
  cases h with
  | interrupted _ _ _ hi hposition => omega
  | settled _ _ _ _ _ hne => simp [isInterrupted_eq_false hne] at hresult

theorem depth_eq {t : Tree} (h : Ends text position base (.ok t) p) : p.depth = base := by
  cases h with
  | settled _ _ _ _ _ _ hdepth => exact hdepth t rfl

theorem unsupportedCount_le (h : Ends text position base result p) :
    unsupportedCount p.lexer.rest + (if isInterrupted result then 1 else 0) ≤
      unsupportedCount text := by
  cases h with
  | interrupted _ _ htext _ _ hc =>
    simp [unsupportedCount, htext, hc, isInterrupted]
  | settled _ _ htext _ _ hne =>
    simp [unsupportedCount, htext, isInterrupted_eq_false hne]

end Ends

def next (p : Parser) : Parser := p.parse.2

theorem calls_eq (n : Nat) (p : Parser) :
    calls n p = (List.range n).map (fun i ↦ (next^[i] p).parse) := by
  induction n generalizing p with
  | zero => rfl
  | succ n ih =>
    rw [calls, List.range_succ_eq_map, List.map_cons, List.map_map, ih]
    rfl

theorem Valid.iterate_next (h : p.Valid) (i : Nat) : (next^[i] p).Valid := by
  induction i generalizing p with
  | zero => exact h
  | succ i ih => exact ih h.parse_ends.valid

theorem IsStuck.iterate_next (h : p.IsStuck) (i : Nat) : next^[i] p = p := by
  apply Function.iterate_fixed
  rw [next, h]

theorem Valid.countP_calls_le (h : p.Valid) (n : Nat) :
    (calls n p).countP (isInterrupted ·.1) ≤ unsupportedCount p.lexer.rest := by
  induction n generalizing p with
  | zero => exact Nat.zero_le _
  | succ n ih =>
    have hcall := h.parse_ends.unsupportedCount_le
    have hrest := ih h.parse_ends.valid
    rw [calls, List.countP_cons]
    omega

/-- After a call that was not interrupted all calls refuse the token at which it stopped. -/
theorem Valid.parse_iterate_of_lt (h : p.Valid) {i j : Nat}
    (hi : isInterrupted (next^[i] p).parse.1 = false) (hij : i < j) :
    (next^[j] p).parse = (.error (next^[i + 1] p).current.refusal, next^[i + 1] p) := by
  obtain ⟨k, rfl⟩ := Nat.exists_eq_add_of_le hij
  have hstuck : (next^[i + 1] p).IsStuck := by
    rw [Function.iterate_succ_apply']
    exact (h.iterate_next i).parse_ends.isStuck hi
  rw [Nat.add_comm, Function.iterate_add_apply, hstuck.iterate_next]
  exact hstuck

theorem valid_of_ofString {s : String} (h : ofString s = .ok p) :
    p.Valid ∧ unsupportedCount p.lexer.rest ≤ unsupportedCount s.toList := by
  rw [ofString, Lexer.ofString, Lexer.next] at h
  cases hs : s.toList with
  | nil =>
    rw [hs] at h
    cases h
    exact ⟨⟨Nat.zero_le _, Or.inl ⟨rfl, rfl⟩, Nat.zero_le _⟩, Nat.le_refl _⟩
  | cons c rest =>
    rw [hs] at h
    cases hc : Token.ofChar? c with
    | none => simp [hc] at h
    | some token =>
      simp only [hc] at h
      cases h
      refine ⟨valid_of_ofChar? hc (Nat.zero_le _) Nat.one_pos rest, ?_⟩
      simp [unsupportedCount, List.countP_cons]

/-- What any number of calls come to. A call interrupted by an unsupported character goes past it,
so that there are no more of these calls than such characters. Each call is a fresh parse of what
is still to be taken, with as much less nesting allowed as earlier calls left parentheses open. And
the first call that is not interrupted is the last one to take anything. -/
theorem calls_of_ofString (s : String) (p : Parser) (h : ofString s = .ok p) :
    (∀ n, calls n p = (List.range n).map (fun i ↦ (next^[i] p).parse) ∧
      (calls n p).countP (isInterrupted ·.1) ≤ unsupportedCount s.toList) ∧
    (∀ i, let q := next^[i] p
      q.depth ≤ 256 ∧ q.lexer.position ≤ q.next.lexer.position ∧
      (isInterrupted q.parse.1 = true → q.lexer.position < q.next.lexer.position) ∧
      ofString (String.ofList q.remaining) = .ok q.fresh ∧
      (q.fresh.parseWithin 256).1 = Tree.parse (String.ofList q.remaining) ∧
      (∃ offset, q.lexer.position = q.fresh.lexer.position + offset ∧
        q.parse = displaced offset q.depth (q.fresh.parseWithin (256 - q.depth))) ∧
      (∀ t, q.parse.1 = .ok t ↔ t.Fits .union q.depth ∧ t.chars = q.remaining) ∧
      (∀ t, q.parse.1 = .ok t → q.next.depth = q.depth) ∧
      (isInterrupted q.parse.1 = false → ∀ j, i < j →
        (next^[j] p).parse = (.error q.next.current.refusal, q.next))) ∧
    ∀ i j t u, (next^[i] p).parse.1 = .ok t → (next^[j] p).parse.1 = .ok u → i = j := by
  obtain ⟨hvalid, hcount⟩ := valid_of_ofString h
  have hafter {i j : Nat} (hi : isInterrupted (next^[i] p).parse.1 = false) (hij : i < j) :
      (next^[j] p).parse = (.error (next^[i] p).next.current.refusal, (next^[i] p).next) := by
    have hparse := hvalid.parse_iterate_of_lt hi hij
    rwa [Function.iterate_succ_apply'] at hparse
  have hnot {i j : Nat} {t u : Tree} (hi : (next^[i] p).parse.1 = .ok t)
      (hj : (next^[j] p).parse.1 = .ok u) : ¬i < j := by
    intro hij
    rw [hafter (by rw [hi]; rfl) hij] at hj
    cases hj
  refine ⟨fun n ↦ ⟨calls_eq n p, Nat.le_trans (hvalid.countP_calls_le n) hcount⟩, fun i ↦ ?_,
    fun i j t u hi hj ↦ ?_⟩
  · have hq := hvalid.iterate_next i
    refine ⟨hq.depth_le, hq.parse_ends.position_le, hq.parse_ends.position_lt,
      hq.ofString_remaining, ?_, hq.parse_eq_displaced, hq.parse_fst_eq_ok_iff, fun t ht ↦ ?_,
      fun hi j ↦ hafter hi⟩
    · rw [Tree.parse, hq.ofString_remaining]
      exact congrArg Prod.fst (parseWithin_maxNesting _)
    · have hends := hq.parse_ends
      rw [ht] at hends
      exact hends.depth_eq
  · exact Nat.le_antisymm (Nat.le_of_not_lt (hnot hj hi)) (Nat.le_of_not_lt (hnot hi hj))

theorem calls_of_ofString_bar :
    ∃ p, ofString "(é|a" = .ok p ∧ p.parse.1 = .error (.unsupportedChar 1 'é') ∧
      isInterrupted p.next.parse.1 = false ∧
      ∀ j, 1 < j → (next^[j] p).parse =
        (.error (.unexpectedToken .atom .bar), ⟨⟨['a'], 3⟩, .bar, 1⟩) := by
  refine ⟨⟨⟨['é', '|', 'a'], 1⟩, .leftParen, 0⟩, by rfl, by rfl, by rfl, ?_⟩
  obtain ⟨_, _, _, _, _, _, _, _, hlater⟩ := (calls_of_ofString "(é|a" _ (by rfl)).2.1 1
  exact hlater (by rfl)

end Parser

end LineSearch
