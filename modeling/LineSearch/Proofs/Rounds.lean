import LineSearch.Merge
import Mathlib.Algebra.Order.Ring.Nat
import Mathlib.Data.List.Sort

namespace LineSearch

/-- The gaps between `n` items that a round closes, if the first round has the number 0. The gap
before the item `i` has the number `i`; the blocks are `2 ^ r` items wide by then, the last one
aside, and every second gap between them is closed. -/
def gapsOfRound (n r : Nat) : List Nat :=
  (List.range n).filter (fun gap ↦ gap % 2 ^ (r + 1) = 2 ^ r)

/-- All gaps between `n` items in the order of the rounds. After `n` rounds there is none left. -/
def roundOrder (n : Nat) : List Nat := (List.range n).flatMap (gapsOfRound n)

section Order

variable {n r gap : Nat}

theorem mem_gapsOfRound : gap ∈ gapsOfRound n r ↔ gap < n ∧ gap % 2 ^ (r + 1) = 2 ^ r := by
  simp [gapsOfRound]

theorem pairwise_gapsOfRound (n r : Nat) : (gapsOfRound n r).Pairwise (· < ·) :=
  List.pairwise_lt_range.filter _

theorem gapsOfRound_of_le (h : n ≤ r) : gapsOfRound n r = [] := by
  refine List.eq_nil_iff_forall_not_mem.mpr (fun gap hgap ↦ ?_)
  obtain ⟨hlt, heq⟩ := mem_gapsOfRound.mp hgap
  have hpow : r < 2 ^ r := Nat.lt_two_pow_self
  have hle : gap % 2 ^ (r + 1) ≤ gap := Nat.mod_le _ _
  omega

theorem gapsOfRound_zero (n : Nat) :
    gapsOfRound n 0 = (List.range (n / 2)).map (2 * · + 1) := by
  have hodd : ((List.range (n / 2)).map (2 * · + 1)).Pairwise (· < ·) :=
    List.pairwise_lt_range.map _ (fun i j h ↦ by omega)
  refine (pairwise_gapsOfRound n 0).eq_of_mem_iff hodd (fun gap ↦ ?_)
  simp only [mem_gapsOfRound, List.mem_map, List.mem_range]
  constructor
  · intro h
    exact ⟨gap / 2, by omega, by omega⟩
  · intro h
    obtain ⟨i, hi, rfl⟩ := h
    omega

theorem gapsOfRound_succ (n r : Nat) :
    gapsOfRound n (r + 1) = (gapsOfRound ((n + 1) / 2) r).map (2 * ·) := by
  have hdouble (i : Nat) : 2 * i % 2 ^ (r + 1 + 1) = 2 * (i % 2 ^ (r + 1)) := by
    rw [Nat.pow_succ' (n := r + 1), Nat.mul_mod_mul_left]
  have heven : ((gapsOfRound ((n + 1) / 2) r).map (2 * ·)).Pairwise (· < ·) :=
    (pairwise_gapsOfRound _ r).map _ (fun i j h ↦ by omega)
  refine (pairwise_gapsOfRound n (r + 1)).eq_of_mem_iff heven (fun gap ↦ ?_)
  simp only [mem_gapsOfRound, List.mem_map]
  constructor
  · intro h
    obtain ⟨hlt, hmod⟩ := h
    have htwo : gap % 2 = 0 := by
      rw [← Nat.mod_mul_right_mod gap 2 (2 ^ (r + 1)), ← Nat.pow_succ', hmod, Nat.pow_succ',
        Nat.mul_mod_right]
    obtain ⟨i, rfl⟩ := Nat.dvd_of_mod_eq_zero htwo
    rw [hdouble] at hmod
    exact ⟨i, ⟨by omega, by omega⟩, rfl⟩
  · intro h
    obtain ⟨i, ⟨hlt, hmod⟩, rfl⟩ := h
    rw [hdouble, hmod]
    exact ⟨by omega, by omega⟩

theorem flatMap_gapsOfRound {k : Nat} (h : n ≤ k) :
    (List.range k).flatMap (gapsOfRound n) = roundOrder n := by
  obtain ⟨more, rfl⟩ := Nat.exists_eq_add_of_le h
  have hmore : ((List.range more).map (n + ·)).flatMap (gapsOfRound n) = [] := by
    refine List.flatMap_eq_nil_iff.mpr (fun r hr ↦ ?_)
    obtain ⟨i, _, rfl⟩ := List.mem_map.mp hr
    exact gapsOfRound_of_le (Nat.le_add_right n i)
  rw [List.range_add, List.flatMap_append, hmore, List.append_nil, roundOrder]

/-- The first round closes the odd gaps. The others are then the gaps between half as many items, by
twice their numbers. -/
theorem roundOrder_eq (h : 2 ≤ n) :
    roundOrder n =
      (List.range (n / 2)).map (2 * · + 1) ++ (roundOrder ((n + 1) / 2)).map (2 * ·) := by
  obtain ⟨k, rfl⟩ : ∃ k, n = k + 1 := ⟨n - 1, by omega⟩
  have hhalf : (k + 1 + 1) / 2 ≤ k := by omega
  rw [roundOrder, List.range_succ_eq_map, List.flatMap_cons, gapsOfRound_zero, List.flatMap_map,
    ← flatMap_gapsOfRound hhalf, List.map_flatMap]
  simp only [Nat.succ_eq_add_one, gapsOfRound_succ]

theorem roundOrder_perm (n : Nat) : (roundOrder n).Perm (List.range' 1 (n - 1)) := by
  induction n using Nat.strongRecOn with
  | _ n ih =>
    by_cases h : 2 ≤ n
    · have hhalf := ih ((n + 1) / 2) (by omega)
      have hodd : ((List.range (n / 2)).map (2 * · + 1)).Nodup :=
        List.nodup_range.map (fun i j h ↦ by omega)
      have heven : ((roundOrder ((n + 1) / 2)).map (2 * ·)).Nodup :=
        (hhalf.nodup_iff.mpr List.nodup_range').map (fun i j h ↦ by omega)
      have hnodup : (roundOrder n).Nodup := by
        rw [roundOrder_eq h]
        refine List.nodup_append.mpr ⟨hodd, heven, fun i hi j hj ↦ ?_⟩
        obtain ⟨i, _, rfl⟩ := List.mem_map.mp hi
        obtain ⟨j, _, rfl⟩ := List.mem_map.mp hj
        omega
      refine (List.perm_ext_iff_of_nodup hnodup List.nodup_range').mpr (fun gap ↦ ?_)
      simp only [roundOrder_eq h, List.mem_append, List.mem_map, List.mem_range, hhalf.mem_iff,
        List.mem_range'_1]
      constructor
      · intro hgap
        obtain ⟨i, hi, rfl⟩ | ⟨i, hi, rfl⟩ := hgap
        · omega
        · omega
      · intro hgap
        obtain hmod | hmod := Nat.mod_two_eq_zero_or_one gap
        · exact Or.inr ⟨gap / 2, by omega, by omega⟩
        · exact Or.inl ⟨gap / 2, by omega, by omega⟩
    · obtain rfl | rfl : n = 0 ∨ n = 1 := by omega
      · exact .nil
      · exact .nil

theorem length_roundOrder (n : Nat) : (roundOrder n).length = n - 1 := by
  rw [(roundOrder_perm n).length_eq, List.length_range']

end Order

-- The last of seven items is left over in the first round and merged in the second.
example : roundOrder 7 = [1, 3, 5, 2, 6, 4] := by decide

variable {α σ ε : Type}

/-- What comes of closing some gaps one after the other, in a row of blocks that each stand with the
number of the gap before them. A gap takes one call, on the blocks to its two sides, and the first
call that fails ends it all. -/
inductive Closing (combine : α → α → StateT σ (Except ε) α) :
    List Nat → List (α × Nat) → σ → Except ε (List (α × Nat) × σ) → Prop
  | done (blocks : List (α × Nat)) (s : σ) : Closing combine [] blocks s (.ok (blocks, s))
  | call {a b c : α} {i gap : Nat} {gaps : List Nat} {l r : List (α × Nat)} {s s' : σ}
      {o : Except ε (List (α × Nat) × σ)} :
      combine a b s = .ok (c, s') → Closing combine gaps (l ++ (c, i) :: r) s' o →
      Closing combine (gap :: gaps) (l ++ (a, i) :: (b, gap) :: r) s o
  | fail {a b : α} {i gap : Nat} {gaps : List Nat} {l r : List (α × Nat)} {s : σ} {e : ε} :
      combine a b s = .error e →
      Closing combine (gap :: gaps) (l ++ (a, i) :: (b, gap) :: r) s (.error e)

def tallied (count : Nat) (x : StateT σ (Except ε) α) : StateT (σ × Nat) (Except ε) α :=
  fun (s, n) ↦ (x s).map (fun (a, s) ↦ (a, s, n + count))

section Sides

variable {l l' r r' : List (α × Nat)} {x x' : α × Nat} {b b' : α} {gap : Nat}

theorem idxOf_gap (hd : ((l ++ x :: (b, gap) :: r).map Prod.snd).Nodup) :
    ((l ++ x :: (b, gap) :: r).map Prod.snd).idxOf gap = l.length + 1 := by
  have hsplit : (l ++ x :: (b, gap) :: r).map Prod.snd =
      (l ++ [x]).map Prod.snd ++ gap :: r.map Prod.snd := by simp
  rw [hsplit] at hd ⊢
  have hnot : gap ∉ (l ++ [x]).map Prod.snd :=
    fun h ↦ (List.nodup_append.mp hd).2.2 gap h gap List.mem_cons_self rfl
  rw [List.idxOf_append_of_notMem hnot, List.idxOf_cons_self]
  simp

theorem sides_eq (h : l ++ x :: (b, gap) :: r = l' ++ x' :: (b', gap) :: r')
    (hd : ((l ++ x :: (b, gap) :: r).map Prod.snd).Nodup) :
    l = l' ∧ x = x' ∧ b = b' ∧ r = r' := by
  have hlength : l.length = l'.length := by
    have hgap := idxOf_gap hd
    rw [h] at hd hgap
    have hgap' := idxOf_gap hd
    omega
  obtain ⟨rfl, htail⟩ := List.append_inj h hlength
  simp only [List.cons.injEq, Prod.mk.injEq, and_true] at htail
  exact ⟨rfl, htail⟩

end Sides

namespace Closing

variable {combine : α → α → StateT σ (Except ε) α} {gaps more : List Nat} {gap : Nat}
  {blocks blocks' : List (α × Nat)} {s s' : σ} {e : ε} {o o' : Except ε (List (α × Nat) × σ)}

theorem append (h : Closing combine gaps blocks s (.ok (blocks', s')))
    (h' : Closing combine more blocks' s' o) : Closing combine (gaps ++ more) blocks s o := by
  generalize ho : Except.ok (blocks', s') = o₁ at h
  induction h with
  | done =>
    cases ho
    exact h'
  | call hc _ ih => exact .call hc (ih ho)
  | fail => cases ho

theorem append_error (h : Closing combine gaps blocks s (.error e)) (more : List Nat) :
    Closing combine (gaps ++ more) blocks s (.error e) := by
  generalize ho : Except.error e = o₁ at h ⊢
  induction h with
  | done => cases ho
  | call hc _ ih => exact .call hc (ih ho)
  | fail hc => exact .fail hc

theorem cons (x : α × Nat) (h : Closing combine gaps blocks s o) :
    Closing combine gaps (x :: blocks) s (o.map (fun (blocks, s) ↦ (x :: blocks, s))) := by
  induction h with
  | done blocks s => exact .done (x :: blocks) s
  | @call a b c i gap gaps l r s s' o hc _ ih => exact .call (l := x :: l) hc ih
  | @fail a b i gap gaps l r s e hc => exact .fail (l := x :: l) hc

theorem renumber (f : Nat → Nat) (h : Closing combine gaps blocks s o) :
    Closing combine (gaps.map f) (blocks.map (Prod.map id f)) s
      (o.map (fun (blocks, s) ↦ (blocks.map (Prod.map id f), s))) := by
  induction h with
  | done blocks s => exact .done _ s
  | call hc _ ih =>
    simp only [List.map_append, List.map_cons] at ih ⊢
    exact .call hc ih
  | fail hc =>
    simp only [List.map_append, List.map_cons]
    exact .fail hc

theorem length_eq (h : Closing combine gaps blocks s (.ok (blocks', s'))) :
    blocks.length = blocks'.length + gaps.length := by
  generalize ho : Except.ok (blocks', s') = o at h
  induction h with
  | done =>
    cases ho
    rfl
  | call _ _ ih =>
    have hlength := ih ho
    simp only [List.length_append, List.length_cons] at hlength ⊢
    omega
  | fail => cases ho

theorem of_cons {a b : α} {i : Nat} {l r : List (α × Nat)}
    (h : Closing combine (gap :: gaps) (l ++ (a, i) :: (b, gap) :: r) s o)
    (hd : ((l ++ (a, i) :: (b, gap) :: r).map Prod.snd).Nodup) :
    (∃ c s', combine a b s = .ok (c, s') ∧ Closing combine gaps (l ++ (c, i) :: r) s' o) ∨
      ∃ e, combine a b s = .error e ∧ o = .error e := by
  generalize hblocks : l ++ (a, i) :: (b, gap) :: r = blocks at h
  cases h with
  | call hc h =>
    obtain ⟨rfl, hx, rfl, rfl⟩ := sides_eq hblocks hd
    obtain ⟨rfl, rfl⟩ := Prod.mk.inj hx
    exact Or.inl ⟨_, _, hc, h⟩
  | fail hc =>
    obtain ⟨rfl, hx, rfl, rfl⟩ := sides_eq hblocks hd
    obtain ⟨rfl, rfl⟩ := Prod.mk.inj hx
    exact Or.inr ⟨_, hc, rfl⟩

theorem unique (h : Closing combine gaps blocks s o) (h' : Closing combine gaps blocks s o')
    (hd : (blocks.map Prod.snd).Nodup) : o = o' := by
  induction h generalizing o' with
  | done =>
    cases h'
    rfl
  | @call a b c i gap gaps l r s s' o hc _ ih =>
    rcases h'.of_cons hd with ⟨c', s'', hc', h'⟩ | ⟨e, hc', _⟩
    · obtain ⟨rfl, rfl⟩ := Prod.mk.inj (Except.ok.inj (hc.symm.trans hc'))
      have hsub : (l ++ (c, i) :: r).Sublist (l ++ (c, i) :: (b, gap) :: r) :=
        ((List.sublist_cons_self _ r).cons_cons _).append_left l
      refine ih h' ((hsub.map Prod.snd).nodup ?_)
      simpa using hd
    · cases hc.symm.trans hc'
  | fail hc =>
    rcases h'.of_cons hd with ⟨c, s', hc', _⟩ | ⟨e', hc', rfl⟩
    · cases hc.symm.trans hc'
    · exact congrArg Except.error (Except.error.inj (hc.symm.trans hc'))

theorem error_iff : Closing combine gaps blocks s (.error e) ↔
    ∃ closed gap later l a i b r s', gaps = closed ++ gap :: later ∧
      Closing combine closed blocks s (.ok (l ++ (a, i) :: (b, gap) :: r, s')) ∧
      combine a b s' = .error e := by
  constructor
  · intro h
    generalize ho : Except.error e = o at h
    induction h with
    | done => cases ho
    | @call a b c i gap gaps l r s s' o hc _ ih =>
      obtain ⟨closed, gap', later, l', a', i', b', r', s'', rfl, hclosed, hfail⟩ := ih ho
      exact ⟨gap :: closed, gap', later, l', a', i', b', r', s'', rfl, .call hc hclosed, hfail⟩
    | @fail a b i gap gaps l r s e' hc =>
      cases ho
      exact ⟨[], gap, gaps, l, a, i, b, r, s, rfl, .done _ s, hc⟩
  · intro h
    obtain ⟨closed, gap, later, l, a, i, b, r, s', rfl, hclosed, hfail⟩ := h
    exact hclosed.append (.fail hfail)

theorem keeps {P : List α → σ → Prop}
    (hcall : ∀ l a b r s, P (l ++ a :: b :: r) s →
      ∃ c s', combine a b s = .ok (c, s') ∧ P (l ++ c :: r) s')
    (h : Closing combine gaps blocks s o) (hP : P (blocks.map Prod.fst) s) :
    ∃ blocks' s', o = .ok (blocks', s') ∧ P (blocks'.map Prod.fst) s' := by
  induction h with
  | done blocks s => exact ⟨blocks, s, rfl, hP⟩
  | call hc _ ih =>
    simp only [List.map_append, List.map_cons] at hP ih
    obtain ⟨c', s'', hc', hP'⟩ := hcall _ _ _ _ _ hP
    obtain ⟨rfl, rfl⟩ := Prod.mk.inj (Except.ok.inj (hc.symm.trans hc'))
    exact ih hP'
  | fail hc =>
    simp only [List.map_append, List.map_cons] at hP
    obtain ⟨c, s', hc', _⟩ := hcall _ _ _ _ _ hP
    cases hc.symm.trans hc'

theorem tallied (n : Nat) (h : Closing combine gaps blocks s o) :
    Closing (fun a b ↦ tallied 1 (combine a b)) gaps blocks (s, n)
      (o.map (fun (blocks, s) ↦ (blocks, s, n + gaps.length))) := by
  induction h generalizing n with
  | done blocks s => exact .done blocks (s, n)
  | call hc _ ih =>
    have hrest := ih (n + 1)
    rw [Nat.add_assoc, Nat.add_comm 1] at hrest
    exact .call (by rw [LineSearch.tallied, hc]; rfl) hrest
  | fail hc => exact .fail (by rw [LineSearch.tallied, hc]; rfl)

end Closing

def alone (o : Except ε (α × σ)) : Except ε (List (α × Nat) × σ) :=
  o.map (fun (a, s) ↦ ([(a, 0)], s))

theorem alone_injective {o o' : Except ε (α × σ)} (h : alone o = alone o') : o = o' := by
  cases o with
  | error e =>
    cases o' with
    | error e' => exact congrArg Except.error (Except.error.inj h)
    | ok p => cases h
  | ok p =>
    cases o' with
    | error e => cases h
    | ok q =>
      obtain ⟨hblocks, hs⟩ := Prod.mk.inj (Except.ok.inj h)
      have hitem : p.1 = q.1 := by simpa using hblocks
      exact congrArg Except.ok (Prod.ext hitem hs)

theorem renumber_alone {f : Nat → Nat} (hf : f 0 = 0) (o : Except ε (α × σ)) :
    (alone o).map (fun (blocks, s) ↦ (blocks.map (Prod.map id f), s)) = alone o := by
  cases o <;> simp [alone, Except.map, hf]

section Merging

variable {combine : α → α → StateT σ (Except ε) α} {empty : StateT σ (Except ε) α}
  {items : List α} {s s' : σ} {e : ε}

theorem bind_of_ok {β γ : Type} {x : StateT σ (Except ε) β} {f : β → StateT σ (Except ε) γ} {b : β}
    (h : x s = .ok (b, s')) : (x >>= f) s = f b s' := by
  change (x s >>= fun p ↦ f p.1 p.2) = _
  rw [h]
  rfl

theorem bind_of_error {β γ : Type} {x : StateT σ (Except ε) β} {f : β → StateT σ (Except ε) γ}
    (h : x s = .error e) : (x >>= f) s = .error e := by
  change (x s >>= fun p ↦ f p.1 p.2) = _
  rw [h]
  rfl

/-- A round closes every second gap. The items before those given have been merged to `k` blocks. -/
theorem closing_mergeNeighbours (combine : α → α → StateT σ (Except ε) α) (items : List α) (k : Nat)
    (s : σ) :
    Closing combine ((List.range' k (items.length / 2)).map (2 * · + 1)) (items.zipIdx (2 * k)) s
      ((mergeNeighbours combine items s).map (fun (merged, s) ↦
        ((merged.1.zipIdx k).map (Prod.map id (2 * ·)), s))) := by
  fun_induction mergeNeighbours combine items generalizing k s with
  | case1 =>
    have hlength : ([] : List α).length / 2 = 0 := Nat.zero_div 2
    rw [hlength]
    exact .done [] s
  | case2 a =>
    have hlength : [a].length / 2 = 0 := Nat.div_eq_of_lt Nat.one_lt_two
    rw [hlength]
    exact .done [(a, 2 * k)] s
  | case3 a b items ih =>
    have hlength : (a :: b :: items).length / 2 = items.length / 2 + 1 := by
      simp only [List.length_cons]
      omega
    rw [hlength, List.range'_succ, List.map_cons]
    cases hc : combine a b s with
    | error e =>
      rw [bind_of_error hc]
      exact .fail (l := []) hc
    | ok p =>
      obtain ⟨c, s₁⟩ := p
      have hrest := (ih (k + 1) s₁).cons (c, 2 * k)
      rw [bind_of_ok hc]
      refine .call (l := []) hc ?_
      cases hm : mergeNeighbours combine items s₁ with
      | error e =>
        rw [bind_of_error hm]
        rw [hm] at hrest
        exact hrest
      | ok p =>
        rw [bind_of_ok hm]
        rw [hm] at hrest
        exact hrest

theorem closing_mergeRounds (combine : α → α → StateT σ (Except ε) α)
    (empty : StateT σ (Except ε) α) (hne : items ≠ []) (s : σ) :
    Closing combine (roundOrder items.length) items.zipIdx s
      (alone (mergeRounds combine empty items s)) := by
  induction items using mergeRounds.induct generalizing s with
  | case1 => exact absurd rfl hne
  | case2 a =>
    rw [mergeRounds]
    exact .done [(a, 0)] s
  | case3 a b items ih =>
    have hlength : 2 ≤ (a :: b :: items).length := by simp
    have hround := closing_mergeNeighbours combine (a :: b :: items) 0 s
    rw [mergeRounds, roundOrder_eq hlength, List.range_eq_range']
    cases hm : mergeNeighbours combine (a :: b :: items) s with
    | error e =>
      rw [bind_of_error hm]
      rw [hm] at hround
      exact hround.append_error _
    | ok p =>
      obtain ⟨⟨merged, hhalf⟩, s₁⟩ := p
      rw [bind_of_ok hm]
      rw [hm] at hround
      have hmerged : merged.length = ((a :: b :: items).length + 1) / 2 := by
        have h := hround.length_eq
        simp only [List.length_map, List.length_zipIdx, List.length_range'] at h
        omega
      have hne' : merged ≠ [] := List.ne_nil_of_length_pos (by omega)
      -- the blocks that are left stand with the even numbers, as if there were half the items
      have hrest := (ih merged hhalf hne' s₁).renumber (2 * ·)
      rw [renumber_alone (Nat.mul_zero 2), hmerged] at hrest
      exact hround.append hrest

theorem closing_roundOrder_iff (empty : StateT σ (Except ε) α) (hne : items ≠ [])
    {o : Except ε (List (α × Nat) × σ)} :
    Closing combine (roundOrder items.length) items.zipIdx s o ↔
      o = alone (mergeRounds combine empty items s) := by
  have hrounds := closing_mergeRounds combine empty hne s
  have hd : (items.zipIdx.map Prod.snd).Nodup := by
    rw [List.zipIdx_map_snd]
    exact List.nodup_range'
  constructor
  · intro h
    exact h.unique hrounds hd
  · intro h
    exact h ▸ hrounds

theorem mergeRounds_eq_error_iff :
    mergeRounds combine empty items s = .error e ↔
      items = [] ∧ empty s = .error e ∨
      ∃ closed gap later l a i b r s', roundOrder items.length = closed ++ gap :: later ∧
        Closing combine closed items.zipIdx s (.ok (l ++ (a, i) :: (b, gap) :: r, s')) ∧
        combine a b s' = .error e := by
  by_cases hne : items = []
  · subst hne
    rw [mergeRounds]
    constructor
    · intro h
      exact Or.inl ⟨rfl, h⟩
    · intro h
      obtain ⟨_, h⟩ | ⟨closed, gap, later, _, _, _, _, _, _, horder, _⟩ := h
      · exact h
      · simp [roundOrder] at horder
  · rw [← Closing.error_iff, closing_roundOrder_iff empty hne]
    cases mergeRounds combine empty items s <;> simp [hne, alone, Except.map, eq_comm]

/-- What every call on two neighbours keeps, whatever stands around them, is kept to the end. -/
theorem mergeRounds_keeps {P : List α → σ → Prop}
    (hcall : ∀ l a b r s, P (l ++ a :: b :: r) s →
      ∃ c s', combine a b s = .ok (c, s') ∧ P (l ++ c :: r) s')
    (empty : StateT σ (Except ε) α) (hne : items ≠ []) (h : P items s) :
    ∃ a s', mergeRounds combine empty items s = .ok (a, s') ∧ P [a] s' := by
  have hrounds := closing_mergeRounds combine empty hne s
  obtain ⟨blocks, s', ho, hP⟩ := hrounds.keeps hcall (by rwa [List.zipIdx_map_fst])
  cases hm : mergeRounds combine empty items s with
  | error e =>
    rw [hm] at ho
    cases ho
  | ok p =>
    rw [hm] at ho
    obtain ⟨rfl, rfl⟩ := Prod.mk.inj (Except.ok.inj ho)
    exact ⟨p.1, p.2, rfl, hP⟩

theorem mergeRounds_tallied (combine : α → α → StateT σ (Except ε) α)
    (empty : StateT σ (Except ε) α) (items : List α) :
    mergeRounds (fun a b ↦ tallied 1 (combine a b)) (tallied 0 empty) items =
      tallied (items.length - 1) (mergeRounds combine empty items) := by
  by_cases hne : items = []
  · subst hne
    rw [mergeRounds, mergeRounds, List.length_nil]
  · funext p
    obtain ⟨s, n⟩ := p
    have hrounds := (closing_mergeRounds combine empty hne s).tallied n
    -- the calls with a tally are the same calls, so they come to the merge with a tally
    rw [closing_roundOrder_iff (tallied 0 empty) hne, length_roundOrder] at hrounds
    apply alone_injective
    rw [← hrounds, tallied]
    cases mergeRounds combine empty items s <;> rfl

end Merging

end LineSearch
