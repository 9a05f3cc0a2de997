import LineSearch.Proofs.Syntax.Reading
import LineSearch.Syntax.Descent

namespace LineSearch

namespace Reading

/-- What the parser still gives where a reading has come to the parser's current token. -/
def answer (r : Reading) (p : Parser) : Except SyntaxError Tree × Parser :=
  if p.current = .endOfPattern then (r.finish.1, { p with depth := r.finish.2 })
  else Parser.run r p.current p.lexer.position p.lexer.rest

theorem answer_of_feed_eq_error {r : Reading} {p : Parser} {e : SyntaxError}
    (hp : p.current ≠ .endOfPattern) (hd : p.depth = r.depth)
    (h : r.feed p.current = .error e) : r.answer p = (.error e, p) := by
  rw [answer, if_neg hp]
  cases hr : p.lexer.rest <;> simp [Parser.run, h, ← hd, ← hr]

theorem answer_of_takes {r fed : Reading} {p : Parser} (h : r.Takes p.current fed) :
    r.answer p =
      match p.lexer.next with
      | (.ok token, lexer) => fed.answer ⟨lexer, token, fed.depth⟩
      | (.error e, lexer) => (.error e, ⟨lexer, p.current, min r.depth fed.depth⟩) := by
  have hp : p.current ≠ .endOfPattern := by
    intro hp
    rw [hp] at h
    cases h
  rw [answer, if_neg hp, Lexer.next]
  cases hr : p.lexer.rest with
  | nil => simp [Parser.run, feed_eq_ok_iff.mpr h, answer, ← hr]
  | cons c rest =>
    simp only [Parser.run, feed_eq_ok_iff.mpr h]
    cases hc : Token.ofChar? c with
    | none => rfl
    | some token =>
      have hne : token ≠ .endOfPattern := by
        intro hne
        exact Token.ofChar?_ne_endOfPattern c (hne ▸ hc)
      simp [answer, hne]

end Reading

namespace Descent

/-- The answer is the one that a reading comes to from the parser's current token on, and fewer
than `bound` characters are unread. -/
structure Reaches (answer : Except SyntaxError Tree × Parser) (bound : Nat) (r : Reading)
    (p : Parser) : Prop where
  answer_eq : answer = r.answer p
  depth_eq : p.depth = r.depth
  unread_lt : p.current ≠ .endOfPattern → p.lexer.rest.length < bound

theorem Reaches.mono {answer : Except SyntaxError Tree × Parser} {m n : Nat} {r : Reading}
    {p : Parser} (h : Reaches answer m r p) (hm : m ≤ n) : Reaches answer n r p :=
  ⟨h.answer_eq, h.depth_eq, fun hp ↦ Nat.lt_of_lt_of_le (h.unread_lt hp) hm⟩

theorem Reaches.answer_eq_error {answer : Except SyntaxError Tree × Parser} {n : Nat} {r : Reading}
    {p : Parser} {e : SyntaxError} (h : Reaches answer n r p) (hp : p.current ≠ .endOfPattern)
    (hf : r.feed p.current = .error e) : answer = (.error e, p) :=
  h.answer_eq.trans (Reading.answer_of_feed_eq_error hp h.depth_eq hf)

/-- A procedure ends, and if it fails then with the answer. -/
def Leads {α : Type} (answer : Except SyntaxError Tree × Parser) (x : Descent α) (p : Parser)
    (post : α → Parser → Prop) : Prop :=
  (∃ e p', x.run p = some (.error e, p') ∧ answer = (.error e, p')) ∨
    ∃ a p', x.run p = some (.ok a, p') ∧ post a p'

section Leads

variable {α β : Type} {answer : Except SyntaxError Tree × Parser} {p : Parser}
  {post : α → Parser → Prop} {post' : β → Parser → Prop}

theorem leads_pure {a : α} (h : post a p) : Leads answer (pure a) p post := .inr ⟨a, p, rfl, h⟩

theorem leads_throw {e : SyntaxError} (h : answer = (.error e, p)) :
    Leads answer (throw e : Descent α) p post := .inl ⟨e, p, rfl, h⟩

theorem run_bind (x : Descent α) (f : α → Descent β) (p : Parser) :
    (x >>= f).run p = (x.run p).bind fun out ↦ StateT.run (ExceptT.bindCont f out.1) out.2 := rfl

theorem Leads.bind {x : Descent α} {f : α → Descent β} (h : Leads answer x p post)
    (hf : ∀ a p', post a p' → Leads answer (f a) p' post') : Leads answer (x >>= f) p post' := by
  rcases h with h | h
  · obtain ⟨e, p', hx, he⟩ := h
    refine .inl ⟨e, p', ?_, he⟩
    rw [run_bind, hx]
    rfl
  · obtain ⟨a, p', hx, hpost⟩ := h
    have hrun : (x >>= f).run p = (f a).run p' := by
      rw [run_bind, hx]
      rfl
    rw [Leads, hrun]
    exact hf a p' hpost

theorem Leads.mono {x : Descent α} {post₂ : α → Parser → Prop} (h : Leads answer x p post)
    (hpost : ∀ a p', post a p' → post₂ a p') : Leads answer x p post₂ := by
  rcases h with h | h
  · exact .inl h
  · obtain ⟨a, p', hx, ha⟩ := h
    exact .inr ⟨a, p', hx, hpost a p' ha⟩

theorem leads_current_bind {f : Token → Descent β} (h : Leads answer (f p.current) p post') :
    Leads answer (current >>= f) p post' := h

theorem leads_throw_bind {e : SyntaxError} {f : α → Descent β} (h : answer = (.error e, p)) :
    Leads answer ((throw e : Descent α) >>= f) p post' := .inl ⟨e, p, rfl, h⟩

theorem leads_get_bind {f : Parser → Descent β} (h : Leads answer (f p) p post') :
    Leads answer (get >>= f) p post' := h

theorem leads_modify_bind {g : Parser → Parser} {f : PUnit → Descent β}
    (h : Leads answer (f ⟨⟩) (g p) post') : Leads answer (modify g >>= f) p post' := h

theorem leads_misfit {expected : Expected} (he : p.current = .endOfPattern →
      answer = (.error .unexpectedEnd, p))
    (hu : p.current ≠ .endOfPattern → answer = (.error (.unexpectedToken expected p.current), p)) :
    Leads answer (misfit expected : Descent α) p post := by
  refine leads_current_bind ?_
  split
  · next hp => exact leads_throw (he hp)
  · next hp => exact leads_throw (hu hp)

theorem run_advance (p : Parser) :
    advance.run p =
      match p.lexer.next with
      | (.ok token, lexer) => some (.ok (), { p with lexer, current := token })
      | (.error e, lexer) => some (.error e, { p with lexer }) := rfl

theorem rest_lt_of_next {lexer lexer' : Lexer} {token : Token}
    (h : lexer.next = (.ok token, lexer')) (ht : token ≠ .endOfPattern) :
    lexer'.rest.length < lexer.rest.length := by
  rw [Lexer.next] at h
  split at h
  · cases h
    exact absurd rfl ht
  · next hr =>
    split at h
    · cases h
      rw [hr]
      exact Nat.lt_succ_self _
    · cases h

theorem leads_advance {r fed : Reading} {n : Nat} (h : answer = r.answer p)
    (ht : r.Takes p.current fed) (hd : p.depth = min r.depth fed.depth)
    (hn : p.lexer.rest.length < n) :
    Leads answer advance p fun _ p' ↦ answer = fed.answer p' ∧ p'.depth = p.depth ∧
      (p'.current ≠ .endOfPattern → p'.lexer.rest.length < n - 1) := by
  rw [Reading.answer_of_takes ht] at h
  rw [Leads, run_advance]
  cases hl : p.lexer.next with
  | mk result lexer =>
    rw [hl] at h
    cases result with
    | error e =>
      refine .inl ⟨e, { p with lexer }, rfl, ?_⟩
      rw [h, hd]
    | ok token =>
      refine .inr ⟨(), { p with lexer, current := token }, rfl, h, rfl, fun hp ↦ ?_⟩
      have hlt := rest_lt_of_next hl hp
      change lexer.rest.length < n - 1
      omega

theorem Reaches.leads_advance {r fed : Reading} {n : Nat} (h : Reaches answer n r p)
    (ht : r.Takes p.current fed) (hd : fed.depth = r.depth) :
    Leads answer advance p fun _ p' ↦ Reaches answer (n - 1) fed p' := by
  have hp : p.current ≠ .endOfPattern := by
    intro hp
    rw [hp] at ht
    cases ht
  have hdepth : p.depth = min r.depth fed.depth := by
    rw [hd, Nat.min_self, h.depth_eq]
  refine (Descent.leads_advance h.answer_eq ht hdepth (h.unread_lt hp)).mono fun _ p' hpost ↦ ?_
  obtain ⟨hanswer, hsame, hlt⟩ := hpost
  exact ⟨hanswer, hsame.trans (h.depth_eq.trans hd.symm), hlt⟩

end Leads

section Procedures

variable {answer : Except SyntaxError Tree × Parser} {bound n : Nat} {r : Reading} {p : Parser}

def AfterConcat (answer : Except SyntaxError Tree × Parser) (bound : Nat) (r : Reading) (t : Tree)
    (p : Parser) : Prop :=
  ∃ factors last,
    Reaches answer bound { r with hole := ⟨r.hole.alternatives, factors⟩, factor := some last } p ∧
    Hole.concatWith ⟨r.hole.alternatives, factors⟩ last = t ∧
    p.current ≠ .star ∧ startsAtom p.current = false

def AfterUnion (answer : Except SyntaxError Tree × Parser) (bound : Nat) (r : Reading) (t : Tree)
    (p : Parser) : Prop :=
  ∃ hole last, Reaches answer bound { r with hole, factor := some last } p ∧
    hole.unionWith last = t ∧ (p.current = .rightParen ∨ p.current = .endOfPattern)

-- A call that reads nothing needs one more than the calls that it makes, and a parenthesis needs
-- five more than what it holds.
def AtomLeads (n : Nat) : Prop :=
  ∀ ⦃answer bound r p⦄, 5 * bound + 1 ≤ n → Reaches answer bound r p →
    (r.factor = none ∨ startsAtom p.current) →
    Leads answer (atom n) p fun t p' ↦ Reaches answer (bound - 1) (r.followedBy (.unstarred t)) p'

def StarLoopLeads (n : Nat) : Prop :=
  ∀ ⦃answer bound r p t⦄, 5 * bound + 1 ≤ n → Reaches answer bound r p → r.factor = some t →
    Leads answer (starLoop n t) p fun u p' ↦
      Reaches answer bound { r with factor := some u } p' ∧ p'.current ≠ .star

def StarLeads (n : Nat) : Prop :=
  ∀ ⦃answer bound r p⦄, 5 * bound + 2 ≤ n → Reaches answer bound r p →
    (r.factor = none ∨ startsAtom p.current) →
    Leads answer (star n) p fun t p' ↦
      Reaches answer (bound - 1) (r.followedBy t) p' ∧ p'.current ≠ .star

def ConcatLoopLeads (n : Nat) : Prop :=
  ∀ ⦃answer bound r p t⦄, 5 * bound + 3 ≤ n → Reaches answer bound r p → r.factor = some t →
    p.current ≠ .star →
    Leads answer (concatLoop n (r.hole.concatWith t)) p (AfterConcat answer bound r)

def ConcatLeads (n : Nat) : Prop :=
  ∀ ⦃answer bound r p⦄, 5 * bound + 4 ≤ n → Reaches answer bound r p → r.factor = none →
    r.hole.factors = none → Leads answer (concat n) p (AfterConcat answer bound r)

def UnionLoopLeads (n : Nat) : Prop :=
  ∀ ⦃answer bound r p t⦄, 5 * bound + 4 ≤ n → Reaches answer bound r p → r.factor = some t →
    p.current ≠ .star → startsAtom p.current = false →
    Leads answer (unionLoop n (r.hole.unionWith t)) p (AfterUnion answer bound r)

def UnionLeads (n : Nat) : Prop :=
  ∀ ⦃answer bound r p⦄, 5 * bound + 5 ≤ n → Reaches answer bound r p → r.factor = none →
    r.hole = .empty → Leads answer (union n) p (AfterUnion answer bound r)

theorem leads_expectRightParen {hole : Hole} {t : Tree}
    (h : Reaches answer bound { r.opened with hole, factor := some t } p)
    (hp : p.current = .rightParen ∨ p.current = .endOfPattern) :
    Leads answer expectRightParen { p with depth := p.depth - 1 } fun _ p' ↦
      Reaches answer (bound - 1) (r.followedBy (.unstarred (.paren (hole.unionWith t)))) p' := by
  have hd : p.depth = r.depth + 1 := h.depth_eq
  refine leads_current_bind ?_
  rcases hp with hp | hp
  · have ht := hp ▸ Reading.takes_rightParen_opened r hole t
    have hmin : p.depth - 1 = min (r.depth + 1) r.depth := by omega
    have hadvance := leads_advance (p := { p with depth := p.depth - 1 }) h.answer_eq ht hmin
      (h.unread_lt (by simp [hp]))
    rw [if_pos hp]
    refine hadvance.mono fun _ p' h' ↦ ?_
    obtain ⟨hanswer, hsame, hlt⟩ := h'
    refine ⟨hanswer, ?_, hlt⟩
    rw [hsame, hd]
    rfl
  · rw [if_neg (by simp [hp])]
    refine leads_misfit (fun _ ↦ ?_) (fun hne ↦ absurd hp hne)
    rw [h.answer_eq, Reading.answer, if_pos hp, h.depth_eq]
    rfl

theorem leads_misfit_atom {post : Tree → Parser → Prop} (h : Reaches answer bound r p)
    (hs : startsAtom p.current = false) (hr : r.factor = none) :
    Leads answer (misfit .atom) p post := by
  refine leads_misfit (fun hp ↦ ?_) (fun hp ↦ h.answer_eq_error hp ?_)
  · rw [h.answer_eq, Reading.answer, if_pos hp, Reading.finish, hr, ← h.depth_eq]
  · cases hc : p.current <;> simp_all [startsAtom, Reading.feed]

theorem UnionLeads.atom (hu : UnionLeads n) : AtomLeads (n + 1) := by
  intro answer bound r p hn h hr
  rw [Descent.atom]
  refine leads_current_bind ?_
  split
  · next c hc =>
    have ht : r.Takes p.current (r.followedBy (.unstarred (.terminal c))) := hc ▸ .literal c
    exact (h.leads_advance ht rfl).bind fun _ p' h' ↦ leads_pure h'
  · next hc =>
    have hp : p.current ≠ .endOfPattern := by simp [hc]
    refine leads_get_bind ?_
    by_cases hd : p.depth = maxNesting
    · simp only [hd, if_true]
      have hf : r.feed p.current = .error (.nestingTooDeep maxNesting) := by
        simp [hc, Reading.feed, ← h.depth_eq, hd]
      exact leads_throw_bind (h.answer_eq_error hp hf)
    · simp only [hd, if_false]
      have ht : r.Takes p.current r.opened := hc ▸ .leftParen (h.depth_eq ▸ hd)
      have hlt : p.lexer.rest.length < bound := h.unread_lt hp
      -- The depth grows after the parenthesis is left behind, so a failure there keeps it.
      have hmin : p.depth = min r.depth r.opened.depth := by
        rw [h.depth_eq]
        exact (Nat.min_eq_left (Nat.le_succ r.depth)).symm
      refine (leads_advance h.answer_eq ht hmin hlt).bind fun _ p₁ h₁ ↦ leads_modify_bind ?_
      obtain ⟨hanswer, hsame, hunread⟩ := h₁
      have hopened : Reaches answer (bound - 1) r.opened { p₁ with depth := p₁.depth + 1 } := by
        refine ⟨hanswer, ?_, hunread⟩
        change p₁.depth + 1 = r.depth + 1
        rw [hsame, h.depth_eq]
      refine (hu (by omega) hopened rfl rfl).bind fun t p₂ h₂ ↦ ?_
      obtain ⟨hole, factor, hclosing, rfl, hnext⟩ := h₂
      refine leads_modify_bind ((leads_expectRightParen hclosing hnext).bind fun _ p₃ h₃ ↦ ?_)
      exact leads_pure (h₃.mono (Nat.sub_le (bound - 1) 1))
  all_goals
    next hc =>
      have hs : startsAtom p.current = false := by rw [hc, startsAtom]
      exact leads_misfit_atom h hs (by simpa only [hs, Bool.false_eq_true, or_false] using hr)

theorem StarLoopLeads.succ (hloop : StarLoopLeads n) : StarLoopLeads (n + 1) := by
  intro answer bound r p t hn h hr
  rw [starLoop]
  refine leads_current_bind ?_
  by_cases hs : p.current = .star
  · have hlt : p.lexer.rest.length < bound := h.unread_lt (by simp [hs])
    have ht : r.Takes p.current { r with factor := some (.star t) } := hs ▸ .star hr
    rw [if_pos hs]
    refine (h.leads_advance ht rfl).bind fun _ p₁ h₁ ↦ ?_
    refine (hloop (by omega) h₁ rfl).mono fun u p₂ h₂ ↦ ?_
    exact ⟨h₂.1.mono (Nat.sub_le bound 1), h₂.2⟩
  · rw [if_neg hs]
    exact leads_pure ⟨(Reading.with_factor_eq_self hr).symm ▸ h, hs⟩

theorem AtomLeads.star (hatom : AtomLeads n) (hloop : StarLoopLeads n) : StarLeads (n + 1) := by
  intro answer bound r p hn h hr
  rw [Descent.star]
  refine (hatom (by omega) h hr).bind fun t p' h' ↦ ?_
  exact hloop (by omega) h' rfl

theorem ConcatLoopLeads.succ (hloop : ConcatLoopLeads n) (hstar : StarLeads n) :
    ConcatLoopLeads (n + 1) := by
  intro answer bound r p t hn h hr hp
  rw [concatLoop]
  refine leads_current_bind ?_
  by_cases hs : startsAtom p.current = true
  · have hlt : p.lexer.rest.length < bound := by
      refine h.unread_lt fun hp ↦ ?_
      simp [hp, startsAtom] at hs
    rw [if_pos hs]
    refine (hstar (by omega) h (.inr hs)).bind fun u p₁ h₁ ↦ ?_
    obtain ⟨hnext, hp₁⟩ := h₁
    rw [Reading.followedBy, Reading.nextHole_of_some hr] at hnext
    refine (hloop (by omega) hnext rfl hp₁).mono fun v p₂ h₂ ↦ ?_
    obtain ⟨factors, last, hreach, hv, hstop⟩ := h₂
    exact ⟨factors, last, hreach.mono (Nat.sub_le bound 1), hv, hstop⟩
  · rw [if_neg hs]
    have hsame : Reaches answer bound { r with factor := some t } p :=
      (Reading.with_factor_eq_self hr).symm ▸ h
    exact leads_pure ⟨r.hole.factors, t, hsame, rfl, hp, by simpa using hs⟩

theorem StarLeads.concat (hstar : StarLeads n) (hloop : ConcatLoopLeads n) :
    ConcatLeads (n + 1) := by
  intro answer bound r p hn h hr hh
  rw [Descent.concat]
  refine (hstar (by omega) h (.inl hr)).bind fun t p' h' ↦ ?_
  obtain ⟨hnext, hp'⟩ := h'
  have hone : .factor t = r.hole.concatWith t := by rw [Hole.concatWith, hh]
  rw [Reading.followedBy, Reading.nextHole_of_none hr] at hnext
  have hconcat := hloop (by omega) (hnext.mono (Nat.sub_le bound 1)) rfl hp'
  rw [hone]
  exact hconcat

theorem UnionLoopLeads.succ (hloop : UnionLoopLeads n) (hconcat : ConcatLeads n) :
    UnionLoopLeads (n + 1) := by
  intro answer bound r p t hn h hr hp ha
  rw [unionLoop]
  refine leads_current_bind ?_
  by_cases hs : p.current = .bar
  · have hlt : p.lexer.rest.length < bound := h.unread_lt (by simp [hs])
    have hbar : r.Takes p.current
        { r with hole := ⟨some (r.hole.unionWith t), none⟩, factor := none } := hs ▸ .bar hr
    rw [if_pos hs]
    refine (h.leads_advance hbar rfl).bind fun _ p₁ h₁ ↦ ?_
    refine (hconcat (by omega) h₁ rfl rfl).bind fun u p₂ h₂ ↦ ?_
    obtain ⟨factors, last, hreach, rfl, hstar, hatom⟩ := h₂
    refine (hloop (by omega) hreach rfl hstar hatom).mono fun v p₃ h₃ ↦ ?_
    obtain ⟨hole, last', hreach', hv, hstop⟩ := h₃
    exact ⟨hole, last', hreach'.mono (Nat.sub_le bound 1), hv, hstop⟩
  · rw [if_neg hs]
    have hsame : Reaches answer bound { r with factor := some t } p :=
      (Reading.with_factor_eq_self hr).symm ▸ h
    refine leads_pure ⟨r.hole, t, hsame, rfl, ?_⟩
    cases hc : p.current <;> simp_all [startsAtom]

theorem ConcatLeads.union (hconcat : ConcatLeads n) (hloop : UnionLoopLeads n) :
    UnionLeads (n + 1) := by
  intro answer bound r p hn h hr hh
  rw [Descent.union]
  refine (hconcat (by omega) h hr (by rw [hh]; rfl)).bind fun t p' h' ↦ ?_
  obtain ⟨factors, last, hreach, rfl, hstar, hatom⟩ := h'
  rw [hh] at hreach ⊢
  have hunion := hloop (by omega) hreach rfl hstar hatom
  exact hunion

structure ProceduresLead (n : Nat) : Prop where
  atom : AtomLeads n
  starLoop : StarLoopLeads n
  star : StarLeads n
  concatLoop : ConcatLoopLeads n
  concat : ConcatLeads n
  unionLoop : UnionLoopLeads n
  union : UnionLeads n

theorem proceduresLead (n : Nat) : ProceduresLead n := by
  induction n with
  | zero => constructor <;> intro _ _ _ _ <;> intros <;> omega
  | succ n ih =>
    exact ⟨ih.union.atom, ih.starLoop.succ, ih.atom.star ih.starLoop, ih.concatLoop.succ ih.star,
      ih.star.concat ih.concatLoop, ih.unionLoop.succ ih.concat, ih.concat.union ih.unionLoop⟩

/-- The descent, unless cut off too early, ends with the answer of the parser, and leaves the parser
as one call leaves it. -/
theorem run_parse (p : Parser) (hn : 5 * p.lexer.rest.length + 10 ≤ n) :
    (parse n).run p = some p.parse := by
  have h : Leads p.parse (parse n) p fun t p' ↦ p.parse = (.ok t, p') := by
    refine leads_current_bind ?_
    by_cases hp : p.current = .endOfPattern
    · rw [if_pos hp]
      refine leads_throw_bind ?_
      rw [Parser.parse, if_pos hp]
    · rw [if_neg hp]
      have hstart : Reaches p.parse (p.lexer.rest.length + 1) (.start p.depth) p := by
        refine ⟨?_, rfl, fun _ ↦ Nat.lt_succ_self _⟩
        rw [Parser.parse, if_neg hp, Reading.answer, if_neg hp]
      refine ((proceduresLead n).union (by omega) hstart rfl rfl).bind fun t p' h' ↦ ?_
      obtain ⟨hole, factor, hreach, rfl, hnext⟩ := h'
      refine leads_current_bind ?_
      rcases hnext with hnext | hnext
      · have hfound : p'.current ≠ .endOfPattern := by simp [hnext]
        rw [if_pos hfound]
        refine leads_current_bind (leads_throw_bind (hreach.answer_eq_error hfound ?_))
        rw [hnext]
        rfl
      · rw [if_neg (by simp [hnext])]
        refine leads_pure ?_
        have hd : p'.depth = p.depth := hreach.depth_eq
        rw [hreach.answer_eq, Reading.answer, if_pos hnext]
        change (Except.ok (hole.unionWith factor), { p' with depth := p.depth }) = _
        rw [← hd]
  rcases h with h | h
  · obtain ⟨e, p', hrun, heq⟩ := h
    rw [hrun, heq]
  · obtain ⟨t, p', hrun, heq⟩ := h
    rw [hrun, heq]

end Procedures

end Descent

end LineSearch
