import LineSearch.Compile
import Mathlib.Logic.Basic

namespace LineSearch

namespace Tree

/-- The operands of a run of an operator, from left to right. A tree of another shape is a run of
one operand. -/
def operands (o : Operator) (t : Tree) : List Tree :=
  match _h : t.split o with
  | some (l, r) => operands o l ++ operands o r
  | none => [t]
termination_by t.nodeCount
decreasing_by
  all_goals
    have := nodeCount_split _h
    omega

theorem operands_of_split {o : Operator} {t l r : Tree} (h : t.split o = some (l, r)) :
    t.operands o = l.operands o ++ r.operands o := by
  rw [operands]
  split
  · next h' =>
    obtain ⟨rfl, rfl⟩ := Prod.mk.inj (Option.some.inj (h'.symm.trans h))
    rfl
  · next h' => simp [h'] at h

theorem operands_of_not_split {o : Operator} {t : Tree} (h : t.split o = none) :
    t.operands o = [t] := by
  rw [operands]
  split
  · next h' => simp [h'] at h
  · rfl

theorem operandsFrom_eq (o : Operator) (found pending : List Tree) :
    operandsFrom o found pending = pending.reverse.flatMap (operands o) ++ found := by
  fun_induction operandsFrom o found pending with
  | case1 found => rfl
  | case2 found t rest l r h ih => simp [ih, operands_of_split h]
  | case3 found t rest h ih => simp [ih, operands_of_not_split h]

theorem nodeCount_le_of_mem_operands {o : Operator} {t u : Tree} (h : u ∈ t.operands o) :
    u.nodeCount ≤ t.nodeCount := by
  fun_induction operands o t with
  | case1 t l r hs ihl ihr =>
    have hlt := nodeCount_split hs
    rcases List.mem_append.mp h with h | h
    · have := ihl h
      omega
    · have := ihr h
      omega
  | case2 t hs => exact List.mem_singleton.mp h ▸ Nat.le_refl _

end Tree

namespace Job

def complete (job : Job) : Build Automaton := do
  let values ← job.pending.mapM Tree.build
  finish { job with pending := [], done := values.reverse ++ job.done }

def resume : List Job → Automaton → Build Automaton
  | [], value => pure value
  | outer :: waiting, value => do
    resume waiting (← complete { outer with done := value :: outer.done })

theorem complete_nil {job : Job} (h : job.pending = []) : job.complete = job.finish := by
  cases job
  subst h
  simp [complete]

theorem complete_cons {job : Job} {t : Tree} {pending : List Tree} (h : job.pending = t :: pending) :
    job.complete =
      t.build >>= fun value ↦ complete { job with pending, done := value :: job.done } := by
  cases job
  subst h
  simp [complete]

theorem work_eq (job : Job) (waiting : List Job) :
    job.work waiting = job.complete >>= resume waiting := by
  induction h : totalWeight (job :: waiting) using Nat.strongRecOn generalizing job waiting with
  | _ n ih =>
    rw [work]
    split
    · next t pending hp =>
      rw [complete_cons hp, bind_assoc]
      split
      · next c ho =>
        have hbuild : t.build = Automaton.literal c := by rw [Tree.build, ho]
        rw [hbuild]
        congr 1
        funext value
        refine ih _ ?_ _ _ rfl
        have := Tree.nodeCount_pos t
        simp only [← h, totalWeight, weight, hp, Tree.totalNodes]
        omega
      · next inner ho =>
        have hlt := totalNodes_pending_lt ho
        have hbuild : t.build = inner.complete := by
          rw [Tree.build, ho]
          refine (ih _ ?_ inner [] rfl).trans (bind_pure _)
          simp only [← h, totalWeight, weight, hp, Tree.totalNodes]
          omega
        rw [hbuild]
        refine ih _ ?_ _ _ rfl
        simp only [← h, totalWeight, weight, hp, Tree.totalNodes]
        omega
    · next hp =>
      rw [complete_nil hp]
      congr 1
      funext value
      cases waiting with
      | nil => rfl
      | cons outer waiting =>
        refine ih _ ?_ _ _ rfl
        simp only [← h, totalWeight, weight]
        omega

theorem work_nil (job : Job) : job.work [] = job.complete := by
  rw [work_eq]
  exact bind_pure _

end Job

namespace Tree

/-- A tree is compiled by compiling its operands from left to right, each fully, and then applying
its operator. -/
theorem build_eq (t : Tree) :
    t.build =
      match t.shape with
      | .terminal c => Automaton.literal c
      | .star u => u.build >>= Automaton.star
      | .concat _ _ => (t.operands .concat).mapM build >>=
          mergeRounds Automaton.concat (Automaton.literal Alphabet.emptySign)
      | .union _ _ => (t.operands .union).mapM build >>=
          mergeRounds Automaton.union Automaton.nothing := by
  rw [build, Job.ofTree]
  cases hs : t.shape with
  | terminal c => rfl
  | star u => simp [Job.work_nil, Job.complete, Job.finish, mergeRounds]
  | concat l r =>
    have ho : t.operands .concat = l.operands .concat ++ r.operands .concat :=
      operands_of_split (by simp only [split, hs])
    simp [Job.work_nil, Job.complete, Job.finish, operandsFrom_eq, ho]
  | union l r =>
    have ho : t.operands .union = l.operands .union ++ r.operands .union :=
      operands_of_split (by simp only [split, hs])
    simp [Job.work_nil, Job.complete, Job.finish, operandsFrom_eq, ho]

end Tree

end LineSearch
