import LineSearch.Automaton.Session
import LineSearch.Proofs.Occurrence

namespace LineSearch

open Automaton
open scoped Computability

/-- What an automaton is made to accept. The literal of the empty sign stands for the empty text. -/
inductive Expression
  | literal (c : Char)
  | anySymbol
  | union (x y : Expression)
  | concat (x y : Expression)
  | star (x : Expression)

namespace Expression

def language : Expression → Language Char
  | literal c => if c = Alphabet.emptySign then 1 else ({[c]} : Language Char)
  | anySymbol => singleSymbols
  | union x y => x.language + y.language
  | concat x y => x.language * y.language
  | star x => x.language∗

def ofTree : Tree → Expression
  | .terminal c => literal c
  | .paren t | .unstarred t | .factor t | .alternative t => ofTree t
  | .star t => star (ofTree t)
  | .concat l r => concat (ofTree l) (ofTree r)
  | .union l r => union (ofTree l) (ofTree r)

def somewhere (x : Expression) : Expression := concat (concat (star anySymbol) x) (star anySymbol)

theorem language_ofTree (t : Tree) : (ofTree t).language = t.language := by
  induction t with
  | terminal c => rfl
  | paren t ih | unstarred t ih | factor t ih | alternative t ih => exact ih
  | star t ih => exact congrArg KStar.kstar ih
  | concat l r ihl ihr => exact congrArg₂ (· * ·) ihl ihr
  | union l r ihl ihr => exact congrArg₂ (· + ·) ihl ihr

theorem language_somewhere (x : Expression) :
    x.somewhere.language = padding * x.language * padding := by
  rw [← kstar_singleSymbols]
  rfl

end Expression

namespace Session

abbrev Ledger := List (String × Expression)

namespace Ledger

def take (l : Ledger) (register : String) : Option (Expression × Ledger) :=
  (l.lookup register).map (fun x ↦ (x, l.filter (·.1 ≠ register)))

def put (l : Ledger) (register : String) (x : Expression) : Ledger :=
  (register, x) :: l.filter (·.1 ≠ register)

end Ledger

/-- The ledger after a step that makes, combines or copies automata. There is none for other steps
and where an operand is missing: an automaton that was used up is an operand no more. -/
def Step.record (l : Ledger) : Step → Option Ledger
  | .literal target c => some (l.put target (.literal c))
  | .anySymbol target => some (l.put target .anySymbol)
  | .compile target t => some (l.put target (.ofTree t))
  | .union target a b => do
    let (x, l) ← l.take a
    let (y, l) ← l.take b
    some (l.put target (.union x y))
  | .concat target a b => do
    let (x, l) ← l.take a
    let (y, l) ← l.take b
    some (l.put target (.concat x y))
  | .star target a => do
    let (x, l) ← l.take a
    some (l.put target (.star x))
  | .somewhere target a => do
    let (x, l) ← l.take a
    some (l.put target x.somewhere)
  | .duplicate target a => do
    let x ← l.lookup a
    some (l.put target x)
  | _ => none

section Acts

variable {α β : Type} {s s' : Session} {register : String}

theorem run_bind_of_ok {x : Act α} {f : α → Act β} {a : α} (h : x.run s = (.ok a, s')) :
    (x >>= f).run s = (f a).run s' := by
  change (x.run >>= ExceptT.bindCont f) s = _
  change ((x.run s >>= fun p ↦ ExceptT.bindCont f p.1 p.2) : Id _) = _
  rw [h]
  rfl

theorem run_get_bind {f : Session → Act β} : (get >>= f : Act β).run s = (f s).run s := rfl

theorem run_look {e : Entry} (h : s.registers.lookup register = some e) :
    (look register).run s = (.ok e, s) := by
  rw [look, run_get_bind, h]
  rfl

theorem run_take {e : Entry} (h : s.registers.lookup register = some e) :
    (take register).run s =
      (.ok e, { s with registers := s.registers.filter (·.1 ≠ register) }) :=
  (run_bind_of_ok (run_look h)).trans rfl

theorem run_build {b : Build α} {a : α} {w : Workshop} (h : b s.workshop = .ok (a, w)) :
    (build b).run s = (.ok a, { s with workshop := w }) := by
  rw [build, run_get_bind, h]
  rfl

end Acts

abbrev automata (rs : List (String × Entry)) : List Automaton := rs.map (fun r ↦ r.2.automaton)

def Agrees (r : String × Entry) (x : String × Expression) : Prop :=
  r.1 = x.1 ∧ r.2.automaton.language = x.2.language

/-- Besides the automata that a step has taken out, those in the registers are held, and the ledger
tells what they accept. -/
structure Tells (taken : List Automaton) (s : Session) (l : Ledger) : Prop where
  held : Held (taken ++ automata s.registers) s.workshop
  agree : List.Forall₂ Agrees s.registers l

section Registers

variable {rs : List (String × Entry)} {l : Ledger} {register : String} {e : Entry} {x : Expression}

theorem exists_lookup (h : List.Forall₂ Agrees rs l) (hx : l.lookup register = some x) :
    ∃ e, rs.lookup register = some e ∧ e.automaton.language = x.language := by
  induction h with
  | nil => simp at hx
  | @cons r y rs l hry _ ih =>
    obtain ⟨name, e⟩ := r
    obtain ⟨name', y⟩ := y
    obtain ⟨rfl, hlang⟩ : name = name' ∧ e.automaton.language = y.language := hry
    rw [List.lookup_cons] at hx ⊢
    split at hx
    · obtain rfl := Option.some.inj hx
      exact ⟨e, rfl, hlang⟩
    · exact ih hx

theorem forall₂_filter (h : List.Forall₂ Agrees rs l) :
    List.Forall₂ Agrees (rs.filter (·.1 ≠ register)) (l.filter (·.1 ≠ register)) := by
  induction h with
  | nil => exact .nil
  | @cons r y rs l hry _ ih =>
    by_cases hr : r.1 = register
    · rw [List.filter_cons_of_neg (by simpa using hr),
        List.filter_cons_of_neg (by simpa [← hry.1] using hr)]
      exact ih
    · rw [List.filter_cons_of_pos (by simpa using hr),
        List.filter_cons_of_pos (by simpa [← hry.1] using hr)]
      exact .cons hry ih

theorem cons_filter_subperm (h : rs.lookup register = some e) :
    ((register, e) :: rs.filter (·.1 ≠ register)).Subperm rs := by
  obtain ⟨earlier, later, rfl, _⟩ := List.lookup_eq_some_iff.mp h
  have hfilter : (earlier ++ (register, e) :: later).filter (·.1 ≠ register) =
      (earlier ++ later).filter (·.1 ≠ register) := by
    simp
  rw [hfilter]
  refine List.Subperm.trans ((List.subperm_cons _).mpr List.filter_sublist.subperm) ?_
  exact List.perm_middle.symm.subperm

end Registers

section Steps

variable {taken : List Automaton} {s : Session} {l l' : Ledger} {register target : String}
  {x y : Expression}

theorem tells_take (h : Tells taken s l) (hx : l.take register = some (x, l')) :
    ∃ e s', (take register).run s = (.ok e, s') ∧ e.automaton.language = x.language ∧
      Tells (taken ++ [e.automaton]) s' l' := by
  obtain ⟨x', hlookup, hx⟩ := Option.map_eq_some_iff.mp hx
  obtain ⟨rfl, rfl⟩ := Prod.mk.inj hx
  obtain ⟨e, he, hlang⟩ := exists_lookup h.agree hlookup
  refine ⟨e, _, run_take he, hlang, ?_, forall₂_filter h.agree⟩
  rw [List.append_assoc]
  refine h.held.subperm ((List.subperm_append_left taken).mpr ?_)
  obtain ⟨rs, hperm, hsub⟩ := cons_filter_subperm he
  exact ⟨automata rs, hperm.map _, hsub.map _⟩

theorem tells_keep (h : Tells taken s l) {b : Build Automaton}
    (hb : Makes b taken (·.language = x.language)) (isCopied : Bool) :
    ∃ outcome s', (build b >>= fun a ↦ keep target a isCopied).run s = (.ok outcome, s') ∧
      Tells [] s' (l.put target x) := by
  obtain ⟨a, w, ha, hheld, hlang⟩ := hb _ _ h.held
  refine ⟨_, _, (run_bind_of_ok (run_build ha)).trans rfl, ?_, ?_⟩
  · refine hheld.subperm ((List.subperm_cons _).mpr ?_)
    exact (List.filter_sublist.map _).subperm
  · exact .cons ⟨rfl, hlang⟩ (forall₂_filter h.agree)

theorem tells_unary (h : Tells [] s l) {a : String} (ha : l.take a = some (x, l'))
    {op : Automaton → Build Automaton}
    (hop : ∀ b : Automaton, b.language = x.language → Makes (op b) [b] (·.language = y.language)) :
    ∃ outcome s', (take a >>= fun a ↦ build (op a.automaton) >>= fun b ↦
        keep target b a.isCopied).run s = (.ok outcome, s') ∧ Tells [] s' (l'.put target y) := by
  obtain ⟨e, s₁, hrun, hlang, htells⟩ := tells_take h ha
  obtain ⟨outcome, s₂, hkeep, htells⟩ := tells_keep htells (hop _ hlang) e.isCopied
  exact ⟨outcome, s₂, (run_bind_of_ok hrun).trans hkeep, htells⟩

theorem tells_binary (h : Tells [] s l) {a b : String} {l₁ l₂ : Ledger} {z : Expression}
    (ha : l.take a = some (x, l₁)) (hb : l₁.take b = some (y, l₂))
    {op : Automaton → Automaton → Build Automaton}
    (hop : ∀ c d : Automaton, c.language = x.language → d.language = y.language →
      Makes (op c d) [c, d] (·.language = z.language)) :
    ∃ outcome s', (take a >>= fun a ↦ take b >>= fun b ↦
        build (op a.automaton b.automaton) >>= fun c ↦
          keep target c (a.isCopied || b.isCopied)).run s = (.ok outcome, s') ∧
      Tells [] s' (l₂.put target z) := by
  obtain ⟨d, s₁, hrun₁, hlang₁, htells⟩ := tells_take h ha
  obtain ⟨e, s₂, hrun₂, hlang₂, htells⟩ := tells_take htells hb
  obtain ⟨outcome, s₃, hkeep, htells⟩ :=
    tells_keep htells (hop _ _ hlang₁ hlang₂) (d.isCopied || e.isCopied)
  exact ⟨outcome, s₃, (run_bind_of_ok hrun₁).trans ((run_bind_of_ok hrun₂).trans hkeep), htells⟩

theorem tells_copy (h : Tells [] s l) {a : String} (ha : l.lookup a = some x) :
    ∃ outcome s', (perform (.duplicate target a)).run s = (.ok outcome, s') ∧
      Tells [] s' (l.put target x) := by
  obtain ⟨e, he, hlang⟩ := exists_lookup h.agree ha
  obtain ⟨earlier, later, hsplit, _⟩ := List.lookup_eq_some_iff.mp he
  have hperm : (automata s.registers).Perm (e.automaton :: automata (earlier ++ later)) := by
    rw [hsplit]
    exact List.Perm.map _ List.perm_middle
  obtain ⟨copy, w, hcopy, hheld, hsame⟩ := duplicate_held (h.held.perm hperm)
  refine ⟨_, _, (run_bind_of_ok (run_look he)).trans ((run_bind_of_ok (run_build hcopy)).trans rfl),
    ?_, .cons ⟨rfl, hsame.trans hlang⟩ (forall₂_filter h.agree)⟩
  -- if the copy goes to the register of its original, the original is dropped
  have hall : Held (copy :: automata s.registers) w := hheld.perm (hperm.symm.cons copy)
  refine hall.subperm ((List.subperm_cons _).mpr ?_)
  exact (List.filter_sublist.map _).subperm

theorem makes_literal_language (c : Char) :
    Makes (literal c) [] (·.language = (Expression.literal c).language) := by
  refine makes_literal c (fun start accept h ↦ ?_)
  exact Valuation.describes_language.literal c start accept h

theorem tells_perform {step : Step} (h : Tells [] s l) (hstep : step.record l = some l') :
    ∃ outcome s', (perform step).run s = (.ok outcome, s') ∧ Tells [] s' l' := by
  cases step with
  | literal target c =>
    obtain rfl := Option.some.inj hstep
    exact tells_keep h (makes_literal_language c) false
  | anySymbol target =>
    obtain rfl := Option.some.inj hstep
    exact tells_keep h (makes_anySymbol (fun _ _ ↦ language_anySymbolBetween)) false
  | compile target t =>
    obtain rfl := Option.some.inj hstep
    refine tells_keep h (t.makes_compile.mono fun a ha ↦ ?_) false
    exact ha.trans (Expression.language_ofTree t).symm
  | union target a b =>
    obtain ⟨⟨x, l₁⟩, ha, hstep⟩ := Option.bind_eq_some_iff.mp hstep
    obtain ⟨⟨y, l₂⟩, hb, hstep⟩ := Option.bind_eq_some_iff.mp hstep
    obtain rfl := Option.some.inj hstep
    refine tells_binary h ha hb (fun c d hc hd ↦ makes_union (fun head hwc hwd hcd hhc hhd ↦ ?_))
    rw [language_unionFrom hwc hwd hcd hhc hhd, hc, hd]
    rfl
  | concat target a b =>
    obtain ⟨⟨x, l₁⟩, ha, hstep⟩ := Option.bind_eq_some_iff.mp hstep
    obtain ⟨⟨y, l₂⟩, hb, hstep⟩ := Option.bind_eq_some_iff.mp hstep
    obtain rfl := Option.some.inj hstep
    refine tells_binary h ha hb (fun c d hc hd ↦ makes_concat (fun hwc hwd hcd ↦ ?_))
    rw [language_concatOf hwc hwd hcd, hc, hd]
    rfl
  | star target a =>
    obtain ⟨⟨x, l₁⟩, ha, hstep⟩ := Option.bind_eq_some_iff.mp hstep
    obtain rfl := Option.some.inj hstep
    refine tells_unary h ha (fun b hb ↦ makes_star (fun head hwell hhead ↦ ?_))
    rw [language_starFrom hwell hhead, hb]
    rfl
  | somewhere target a =>
    obtain ⟨⟨x, l₁⟩, ha, hstep⟩ := Option.bind_eq_some_iff.mp hstep
    obtain rfl := Option.some.inj hstep
    refine tells_unary h ha (fun b hb ↦ (makes_somewhere b).mono fun c hc ↦ ?_)
    rw [hc, hb, x.language_somewhere]
  | duplicate target a =>
    obtain ⟨x, ha, hstep⟩ := Option.bind_eq_some_iff.mp hstep
    obtain rfl := Option.some.inj hstep
    exact tells_copy h ha
  | _ => simp [Step.record] at hstep

theorem tells_mapM {steps : List Step} (h : Tells [] s l)
    (hsteps : steps.foldlM Step.record l = some l') :
    ∃ outcomes s', (steps.mapM perform).run s = (.ok outcomes, s') ∧ Tells [] s' l' := by
  induction steps generalizing s l with
  | nil =>
    obtain rfl := Option.some.inj hsteps
    exact ⟨[], s, rfl, h⟩
  | cons step steps ih =>
    rw [List.foldlM_cons] at hsteps
    obtain ⟨l₁, hstep, hsteps⟩ := Option.bind_eq_some_iff.mp hsteps
    obtain ⟨outcome, s₁, hrun, h₁⟩ := tells_perform h hstep
    obtain ⟨outcomes, s₂, hruns, h₂⟩ := ih h₁ hsteps
    refine ⟨outcome :: outcomes, s₂, ?_, h₂⟩
    rw [List.mapM_cons]
    exact (run_bind_of_ok hrun).trans ((run_bind_of_ok hruns).trans rfl)

end Steps

/-- In a session that begins without automata, whatever states have been handed out before, and that
makes, combines and copies automata in any order, every step succeeds, and after each of them the
automata have no state in common and no empty transitions and accept what their expressions in the
ledger say. -/
theorem perform_sound (w : Workshop) {steps : List Step}
    (h : (steps.foldlM Step.record []).isSome = true) :
    ∀ performed, performed <+: steps → ∃ outcomes s l,
      (performed.mapM perform).run { empty with workshop := w } = (.ok outcomes, s) ∧
      performed.foldlM Step.record [] = some l ∧
      (automata s.registers).Pairwise Apart ∧
      (∀ a ∈ automata s.registers, a.isEpsilonFree = true) ∧
      List.Forall₂ (fun r x ↦ r.1 = x.1 ∧
        ∀ text, r.2.automaton.accepts text = true ↔ text ∈ x.2.language) s.registers l := by
  intro performed hprefix
  obtain ⟨later, rfl⟩ := hprefix
  obtain ⟨l', hl'⟩ := Option.isSome_iff_exists.mp h
  rw [List.foldlM_append] at hl'
  obtain ⟨l, hl, _⟩ := Option.bind_eq_some_iff.mp hl'
  have hstart : Tells [] { empty with workshop := w } [] := ⟨Held.nil w, .nil⟩
  obtain ⟨outcomes, s, hrun, htells⟩ := tells_mapM hstart hl
  refine ⟨outcomes, s, l, hrun, hl, htells.held.apart, htells.held.epsilonFree, ?_⟩
  refine htells.agree.imp fun r x hrx ↦ ⟨hrx.1, fun text ↦ ?_⟩
  rw [← mem_language_iff_accepts, hrx.2]

def medley : List Step :=
  [.literal "x" 'a', .duplicate "y" "x", .union "x" "y" "x", .anySymbol "y", .concat "y" "x" "y",
    .duplicate "x" "y", .star "x" "x", .compile "z" (.star (.union (.terminal 'b') .epsilon)),
    .concat "x" "z" "x", .somewhere "x" "x", .union "x" "y" "x"]

theorem perform_sound_medley :
    (medley.foldlM Step.record []).isSome = true ∧ medley <+: medley ∧ ∃ outcomes s l,
      (medley.mapM perform).run { empty with workshop := ⟨7, #[]⟩ } = (.ok outcomes, s) ∧
      medley.foldlM Step.record [] = some l ∧
      (automata s.registers).Pairwise Apart ∧
      (∀ a ∈ automata s.registers, a.isEpsilonFree = true) ∧
      List.Forall₂ (fun r x ↦ r.1 = x.1 ∧
        ∀ text, r.2.automaton.accepts text = true ↔ text ∈ x.2.language) s.registers l := by
  have hrecorded : (medley.foldlM Step.record []).isSome = true := by decide
  exact ⟨hrecorded, List.prefix_rfl, perform_sound _ hrecorded medley List.prefix_rfl⟩

end Session

end LineSearch
