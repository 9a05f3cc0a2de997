import LineSearch.Automaton.Combinators
import LineSearch.Merge
import LineSearch.Syntax.Tree

namespace LineSearch

inductive Operator
  | concat
  | union
  | star
  deriving DecidableEq

namespace Tree

def split (o : Operator) (t : Tree) : Option (Tree × Tree) :=
  match o, t.shape with
  | .concat, .concat l r => some (l, r)
  | .union, .union l r => some (l, r)
  | _, _ => none

theorem nodeCount_split {o : Operator} {t l r : Tree} (h : t.split o = some (l, r)) :
    l.nodeCount + r.nodeCount < t.nodeCount := by
  have ht := totalNodes_operands_lt t
  revert h
  fun_cases split o t <;> simp_all [Shape.operands, totalNodes] <;> grind

/-- The operands of a run, put in front of those found already. Of the trees still to look into the
first is the rightmost. -/
def operandsFrom (o : Operator) (found : List Tree) : List Tree → List Tree
  | [] => found
  | t :: rest =>
    match _h : t.split o with
    | some (l, r) => operandsFrom o found (r :: l :: rest)
    | none => operandsFrom o (t :: found) rest
termination_by pending => totalNodes pending
decreasing_by
  · have := nodeCount_split _h
    simp only [totalNodes]
    omega
  · have := nodeCount_pos t
    simp only [totalNodes]
    omega

theorem totalNodes_operandsFrom_le (o : Operator) (found pending : List Tree) :
    totalNodes (operandsFrom o found pending) ≤ totalNodes found + totalNodes pending := by
  fun_induction operandsFrom o found pending with
  | case1 found => simp [totalNodes]
  | case2 found t rest l r h ih =>
    have := nodeCount_split h
    simp only [totalNodes] at *
    omega
  | case3 found t rest h ih =>
    simp only [totalNodes] at *
    omega

end Tree

/-- An operation of which the operands are being compiled. Jobs wait in a list, so that the depth of
a tree does not matter. -/
structure Job where
  operator : Operator
  pending : List Tree
  /-- The operands compiled already, the last one first. -/
  done : List Automaton

inductive Begun
  | terminal (c : Char)
  | job (job : Job)

namespace Job

def ofTree (t : Tree) : Begun :=
  match t.shape with
  | .terminal c => .terminal c
  | .star operand => .job ⟨.star, [operand], []⟩
  | .concat l r => .job ⟨.concat, Tree.operandsFrom .concat [] [r, l], []⟩
  | .union l r => .job ⟨.union, Tree.operandsFrom .union [] [r, l], []⟩

def finish (job : Job) : Build Automaton :=
  match job.operator with
  | .concat => mergeRounds Automaton.concat (Automaton.literal Alphabet.emptySign) job.done.reverse
  | .union => mergeRounds Automaton.union Automaton.nothing job.done.reverse
  | .star => do
    Automaton.star
      (← mergeRounds Automaton.concat (Automaton.literal Alphabet.emptySign) job.done.reverse)

def weight (job : Job) : Nat := 2 * Tree.totalNodes job.pending + 1

def totalWeight : List Job → Nat
  | [] => 0
  | job :: jobs => job.weight + totalWeight jobs

theorem totalNodes_pending_lt {t : Tree} {job : Job} (h : ofTree t = .job job) :
    Tree.totalNodes job.pending < t.nodeCount := by
  have ht := Tree.totalNodes_operands_lt t
  have hc := fun l r ↦ Tree.totalNodes_operandsFrom_le .concat [] [r, l]
  have hu := fun l r ↦ Tree.totalNodes_operandsFrom_le .union [] [r, l]
  revert h
  fun_cases ofTree t <;> rintro ⟨rfl⟩ <;>
    simp_all only [Shape.operands, Tree.totalNodes] <;> grind

/-- Compiles the operands of a job that are left and finishes it, and after it the jobs that
wait for its result, the innermost first. -/
def work (job : Job) (waiting : List Job) : Build Automaton :=
  match _hp : job.pending with
  | t :: pending =>
    match _ho : ofTree t with
    | .terminal c => do
      let value ← Automaton.literal c
      work { job with pending, done := value :: job.done } waiting
    | .job inner => work inner ({ job with pending } :: waiting)
  | [] => do
    let value ← job.finish
    match waiting with
    | [] => pure value
    | outer :: waiting => work { outer with done := value :: outer.done } waiting
termination_by totalWeight (job :: waiting)
decreasing_by
  · have := Tree.nodeCount_pos t
    simp only [totalWeight, weight, _hp, Tree.totalNodes]
    omega
  · have := totalNodes_pending_lt _ho
    simp only [totalWeight, weight, _hp, Tree.totalNodes]
    omega
  · simp only [totalWeight, weight]
    omega

end Job

namespace Tree

def build (t : Tree) : Build Automaton :=
  match Job.ofTree t with
  | .terminal c => Automaton.literal c
  | .job job => job.work []

/-- An automaton without empty transitions that accepts what the tree describes. -/
def compile (t : Tree) : Build Automaton := do
  let a ← t.build
  Build.note (.compiled t.size a.size)
  pure a

end Tree

end LineSearch
