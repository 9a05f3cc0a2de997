import LineSearch.Proofs.Compile.Valuation

namespace LineSearch

open Automaton

namespace Automaton

/-- A final state can be reached from every state, whether or not it can be reached itself. -/
def Live (a : Automaton) : Prop :=
  ∀ p ∈ a.states, ∃ text, ∃ q ∈ a.finals, Path a.transitions p text q

section Live

variable {a b : Automaton} {head p : State}

theorem exists_path_eliminated {hops : Hops}
    (h : ∃ text, ∃ q ∈ a.finals, Run a.transitions hops.Leads p text q) :
    ∃ text, ∃ q ∈ (a.eliminated hops).finals, Path (a.eliminated hops).transitions p text q := by
  obtain ⟨text, q, hq, hrun⟩ := h
  exact ⟨text, path_eliminated_of_run hrun hq⟩

theorem Live.exists_run (h : a.Live) {ts : Transitions} {hops : State → State → Prop}
    {finals : States} (hts : ∀ t ∈ a.transitions, t ∈ ts) (hfinals : ∀ q ∈ a.finals, q ∈ finals)
    (hp : p ∈ a.states) : ∃ text, ∃ q ∈ finals, Run ts hops p text q := by
  obtain ⟨text, q, hq, hpath⟩ := h p hp
  exact ⟨text, q, hfinals q hq, .of_path (hpath.mono hts)⟩

theorem live_of_arrow (c : Char) (start accept : State)
    (hstates : ∀ q ∈ a.states, q = start ∨ q = accept) (haccept : accept ∈ a.finals)
    (hc : .symbol c start accept ∈ a.transitions) : a.Live := by
  intro q hq
  rcases hstates q hq with rfl | rfl
  · exact ⟨[c], accept, haccept, .cons hc (.nil accept)⟩
  · exact ⟨[], q, haccept, .nil q⟩

theorem live_literalBetween (c : Char) (start accept : State) :
    (literalBetween c start accept).Live := by
  by_cases hc : c = Alphabet.emptySign
  · rw [literalBetween, if_pos hc]
    intro q hq
    exact ⟨[], q, hq, .nil q⟩
  · rw [literalBetween, if_neg hc]
    exact live_of_arrow c start accept (fun q ↦ mem_pair_iff.mp) (by simp) (by simp)

theorem live_anySymbolBetween (start accept : State) : (anySymbolBetween start accept).Live := by
  refine live_of_arrow ' ' start accept (fun q ↦ mem_pair_iff.mp) (by simp [anySymbolBetween]) ?_
  simp only [anySymbolBetween, Std.ExtTreeSet.mem_ofList, List.contains_iff_mem, List.mem_map]
  exact ⟨' ', Alphabet.mem_symbols.mpr rfl, rfl⟩

theorem live_starFrom (ha : a.Live) : (starFrom head a).Live := by
  intro p hp
  refine exists_path_eliminated ?_
  rcases mem_states_starFrom.mp hp with rfl | hp
  · exact ⟨[], p, mem_finals_under.mpr (Or.inl rfl), .nil p⟩
  · exact ha.exists_run (fun _ ht ↦ ht) (fun q hq ↦ mem_finals_under.mpr (Or.inr hq)) hp

/-- The finals of the first automaton are final no more, but from each a seed leads to the start of
the second one. -/
theorem live_concatOf (hb : b.WellFormed) (hlivea : a.Live) (hliveb : b.Live) :
    (concatOf a b).Live := by
  intro p hp
  refine exists_path_eliminated ?_
  have hright (q : State) (hq : q ∈ b.states) : ∃ text, ∃ r ∈ (before a b).finals,
      Run (before a b).transitions (moves (concatSeeds a b)).Leads q text r :=
    hliveb.exists_run (fun t ht ↦ Std.ExtTreeSet.mem_union_iff.mpr (Or.inr ht)) (fun _ hr ↦ hr) hq
  rcases mem_states_concatOf.mp hp with hp | hp
  · obtain ⟨text, q, hq, hrun⟩ := hlivea.exists_run
      (fun t ht ↦ Std.ExtTreeSet.mem_union_iff.mpr (Or.inl ht)) (fun _ hq ↦ hq) hp
    obtain ⟨more, r, hr, hrun'⟩ := hright b.start hb.start_mem
    exact ⟨text ++ more, r, hr, hrun.append (.hop (leads_concatSeeds.mpr ⟨hq, rfl⟩) hrun')⟩
  · exact hright p hp

theorem live_unionFrom (ha : a.WellFormed) (hlivea : a.Live) (hliveb : b.Live) :
    (unionFrom head a b).Live := by
  intro p hp
  refine exists_path_eliminated ?_
  have hleft (q : State) (hq : q ∈ a.states) : ∃ text, ∃ r ∈ (beside head a b).finals,
      Run (beside head a b).transitions (moves (unionSeeds head a b)).Leads q text r :=
    hlivea.exists_run (fun t ht ↦ Std.ExtTreeSet.mem_union_iff.mpr (Or.inl ht))
      (fun r hr ↦ Std.ExtTreeSet.mem_union_iff.mpr (Or.inl hr)) hq
  rcases mem_states_unionFrom.mp hp with rfl | hp | hp
  · obtain ⟨text, r, hr, hrun⟩ := hleft a.start ha.start_mem
    exact ⟨text, r, hr, .hop (leads_unionSeeds.mpr ⟨rfl, Or.inl rfl⟩) hrun⟩
  · exact hleft p hp
  · exact hliveb.exists_run (fun t ht ↦ Std.ExtTreeSet.mem_union_iff.mpr (Or.inr ht))
      (fun r hr ↦ Std.ExtTreeSet.mem_union_iff.mpr (Or.inr hr)) hp

end Live

def Viable (a : Automaton) (text : List Char) : Prop := ∃ more, a.accepts (text ++ more) = true

section Active

variable {a : Automaton} {active : States} {text more : List Char} {p q : State}

theorem mem_foldl_step :
    q ∈ text.foldl a.step active ↔ ∃ p ∈ active, Path a.transitions p text q := by
  induction text generalizing active with
  | nil =>
    simp only [List.foldl_nil, Path.nil_iff, exists_eq_right]
  | cons c text ih =>
    rw [List.foldl_cons, ih]
    constructor
    · intro h
      obtain ⟨r, hr, h⟩ := h
      obtain ⟨p, hp, hc⟩ := mem_step.mp hr
      exact ⟨p, hp, .cons hc h⟩
    · intro h
      obtain ⟨p, hp, h⟩ := h
      obtain ⟨r, hc, h⟩ := Path.cons_iff.mp h
      exact ⟨r, mem_step.mpr ⟨p, hp, hc⟩, h⟩

theorem foldl_step_eq_empty_iff (ha : a.WellFormed) (hlive : a.Live) :
    text.foldl a.step {a.start} = ∅ ↔ ¬a.Viable text := by
  constructor
  · intro hempty hviable
    obtain ⟨more, h⟩ := hviable
    obtain ⟨q, hq, h⟩ := mem_language_iff_accepts.mpr h
    obtain ⟨m, hm, _⟩ := Path.append_iff.mp h
    have hmem : m ∈ text.foldl a.step {a.start} :=
      mem_foldl_step.mpr ⟨a.start, mem_singleton_iff.mpr rfl, hm⟩
    rw [hempty] at hmem
    exact Std.ExtTreeSet.not_mem_empty hmem
  -- only here it matters that the automaton is live
  · intro hviable
    refine Std.ExtTreeSet.ext_mem fun m ↦ ⟨fun hm ↦ ?_, fun hm ↦ ?_⟩
    · obtain ⟨p, hp, h⟩ := mem_foldl_step.mp hm
      obtain rfl := mem_singleton_iff.mp hp
      obtain ⟨more, q, hq, h'⟩ := hlive m (h.mem_states ha ha.start_mem)
      exact absurd ⟨more, mem_language_iff_accepts.mp ⟨q, hq, h.append h'⟩⟩ hviable
    · exact absurd hm Std.ExtTreeSet.not_mem_empty

end Active

end Automaton

section Counting

variable {step : States → Char → States} {active : States}

/-- The simulation reads on only while states are active, and stops before the end of the text only
where none is any more. -/
theorem exists_read_eq (finals : States) (hactive : active ≠ ∅) (text : List Char) (read : Nat) :
    ∃ k, (simulateCounting step finals read active text).2 = read + k ∧
      (∀ j < k, (text.take j).foldl step active ≠ ∅) ∧
      (k = text.length ∨ (text.take k).foldl step active = ∅) := by
  induction text generalizing active read with
  | nil => exact ⟨0, rfl, fun j hj ↦ absurd hj (Nat.not_lt_zero j), Or.inl rfl⟩
  | cons c text ih =>
    rw [simulateCounting]
    split
    · next h =>
      refine ⟨1, rfl, fun j hj ↦ ?_, Or.inr (Std.ExtTreeSet.isEmpty_iff.mp h)⟩
      rw [Nat.lt_one_iff.mp hj]
      exact hactive
    · next h =>
      have hnext : step active c ≠ ∅ := mt Std.ExtTreeSet.isEmpty_iff.mpr h
      obtain ⟨k, hread, hreads, hstop⟩ := ih hnext (read + 1)
      refine ⟨k + 1, ?_, fun j hj ↦ ?_, hstop.imp_left (congrArg (· + 1))⟩
      · rw [hread, Nat.add_right_comm, Nat.add_assoc]
      · cases j with
        | zero => exact hactive
        | succ j => exact hreads j (Nat.lt_of_succ_lt_succ hj)

end Counting

namespace Automaton

def symbolsRead (a : Automaton) (step : States → Char → States) (text : List Char) : Nat :=
  (simulateCounting step a.finals 0 {a.start} text).2

theorem foldl_take_symbolsRead (a : Automaton) (step : States → Char → States)
    (text : List Char) :
    (∀ k < a.symbolsRead step text, (text.take k).foldl step {a.start} ≠ ∅) ∧
    (a.symbolsRead step text = text.length ∨
      (text.take (a.symbolsRead step text)).foldl step {a.start} = ∅) := by
  have hstart : ({a.start} : States) ≠ ∅ := by simp
  obtain ⟨k, hread, hreads, hstop⟩ := exists_read_eq a.finals hstart text 0
  rw [symbolsRead, hread, Nat.zero_add]
  exact ⟨hreads, hstop⟩

/-- A simulation by the steps has no active state left exactly where no accepted text begins with
what it has read, and what it reads of a text ends there or with the text. -/
structure RejectsEarliest (a : Automaton) (step : States → Char → States) : Prop where
  verdict_eq : ∀ text, simulate step a.finals {a.start} text = a.accepts text
  active_eq_empty_iff : ∀ text : List Char, text.foldl step {a.start} = ∅ ↔ ¬a.Viable text
  viable_of_lt : ∀ text k, k < a.symbolsRead step text → a.Viable (text.take k)
  eq_length_or_not_viable : ∀ text : List Char,
    a.symbolsRead step text = text.length ∨ ¬a.Viable (text.take (a.symbolsRead step text))

theorem Live.rejectsEarliest {a : Automaton} (hlive : a.Live) (ha : a.WellFormed) :
    a.RejectsEarliest a.step where
  verdict_eq _ := rfl
  active_eq_empty_iff text := foldl_step_eq_empty_iff ha hlive
  viable_of_lt text k hk := by
    have hne := (a.foldl_take_symbolsRead a.step text).1 k hk
    exact Classical.not_not.mp (fun h ↦ hne ((foldl_step_eq_empty_iff ha hlive).mpr h))
  eq_length_or_not_viable text := by
    have hstop := (a.foldl_take_symbolsRead a.step text).2
    exact hstop.imp_right (foldl_step_eq_empty_iff ha hlive).mp

end Automaton

def Valuation.trivial : Valuation Unit where
  terminal _ := ()
  star _ := ()
  concat _ _ := ()
  union _ _ := ()
  concat_assoc _ _ _ := rfl
  union_assoc _ _ _ := rfl

theorem Valuation.describes_live : Valuation.trivial.Describes (fun _ a ↦ a.Live) where
  literal c start accept _ := live_literalBetween c start accept
  star _ _ _ _ _ h := live_starFrom h
  concat _ _ _ _ _ hb _ h h' := live_concatOf hb h h'
  union _ _ _ _ _ ha _ _ _ _ h h' := live_unionFrom ha h h'

theorem makes_padding_live : Makes (anySymbol >>= star) [] Live := by
  have hany : Makes anySymbol [] Live :=
    makes_anySymbol (fun start accept _ ↦ live_anySymbolBetween start accept)
  exact hany.bind (fun _ h ↦ makes_star (fun _ _ _ ↦ live_starFrom h))

theorem Tree.makes_compile_live (t : Tree) : Makes t.compile [] Live :=
  (makes_build Valuation.describes_live t).noted _

theorem makes_somewhere_live {a : Automaton} (h : a.Live) : Makes a.somewhere [a] Live :=
  makes_somewhere_of (D := fun _ a ↦ a.Live) (fun _ _ ↦ ()) () () makes_padding_live
    (fun _ _ _ _ ha hb ↦ makes_concat (fun _ hwell _ ↦ live_concatOf hwell ha hb)) h

namespace Tree

/-- In the automaton of a tree, and in the one that finds its texts anywhere, each state leads to a
final one, and so their simulations, by all transitions or by a table, end at the first symbol after
which no accepted text is possible. -/
theorem compile_rejectsEarliest (t : Tree) (w : Workshop) :
    ∃ a w₁ b w₂, t.compile w = .ok (a, w₁) ∧ a.somewhere w₁ = .ok (b, w₂) ∧
      ∀ c ∈ [a, b], c.Live ∧ c.RejectsEarliest c.step ∧
        c.RejectsEarliest (TransitionTable.ofAutomaton c).step := by
  obtain ⟨a, w₁, ha, hheld₁, hlivea⟩ := t.makes_compile_live [] w (Held.nil w)
  obtain ⟨b, w₂, hb, hheld₂, hliveb⟩ := makes_somewhere_live hlivea [] w₁ hheld₁
  refine ⟨a, w₁, b, w₂, ha, hb, fun c hc ↦ ?_⟩
  have hlive : c.Live ∧ c.WellFormed := by
    rcases List.mem_pair.mp hc with rfl | rfl
    · exact ⟨hlivea, hheld₁.wellFormed c List.mem_cons_self⟩
    · exact ⟨hliveb, hheld₂.wellFormed c List.mem_cons_self⟩
  have hearliest := hlive.1.rejectsEarliest hlive.2
  refine ⟨hlive.1, hearliest, ?_⟩
  rw [TransitionTable.step_ofAutomaton]
  exact hearliest

end Tree

end LineSearch
