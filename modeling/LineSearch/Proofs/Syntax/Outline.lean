import LineSearch.Proofs.Syntax.Text
import LineSearch.Proofs.Text.Quoted
import Mathlib.Data.List.Basic

namespace LineSearch.Tree

theorem countFrom_eq (counted : Nat) (pending : List Tree) :
    countFrom counted pending = counted + totalNodes pending := by
  fun_induction countFrom counted pending with
  | case1 => rfl
  | case2 counted t rest ih =>
    rw [ih, totalNodes_append, totalNodes, ← totalNodes_children t]
    omega

/-- The lines of the outline of a subtree, the left operand before the right one and the children a
level deeper than their parent. -/
def linesAt (depth : Nat) : Tree → List String
  | terminal c => [indentation depth ++ (terminal c).label]
  | paren t => (indentation depth ++ "Paren") :: t.linesAt (depth + 1)
  | unstarred t => (indentation depth ++ "Star") :: t.linesAt (depth + 1)
  | star t => (indentation depth ++ "Star2") :: t.linesAt (depth + 1)
  | factor t => (indentation depth ++ "Concat") :: t.linesAt (depth + 1)
  | concat l r =>
    (indentation depth ++ "Concat2") :: (l.linesAt (depth + 1) ++ r.linesAt (depth + 1))
  | alternative t => (indentation depth ++ "Union") :: t.linesAt (depth + 1)
  | union l r =>
    (indentation depth ++ "Union2") :: (l.linesAt (depth + 1) ++ r.linesAt (depth + 1))

theorem linesAt_eq (depth : Nat) (t : Tree) :
    t.linesAt depth =
      (indentation depth ++ t.label) :: t.children.flatMap (linesAt (depth + 1)) := by
  cases t <;> simp [linesAt, label, children]

theorem length_linesAt (depth : Nat) (t : Tree) : (t.linesAt depth).length = t.nodeCount := by
  induction t generalizing depth with
  | terminal c => rfl
  | paren t ih | unstarred t ih | star t ih | factor t ih | alternative t ih =>
    rw [linesAt, List.length_cons, ih, nodeCount]
  | concat l r ihl ihr | union l r ihl ihr =>
    rw [linesAt, List.length_cons, List.length_append, ihl, ihr, nodeCount]

theorem outlineFrom_eq (written : String) (pending : List (Nat × Tree)) :
    outlineFrom written pending =
      written ++ String.join ((pending.flatMap (fun p ↦ p.2.linesAt p.1)).map (· ++ "\n")) := by
  fun_induction outlineFrom written pending with
  | case1 written => simp
  | case2 written depth t rest ih =>
    rw [ih, List.flatMap_cons, linesAt_eq, List.flatMap_append, List.flatMap_map, List.cons_append,
      List.map_cons, String.join_cons, outlineLine, String.append_assoc]

theorem outline_eq (t : Tree) :
    t.outline = String.join ((t.linesAt 0).map (· ++ "\n")) := by
  rw [outline, outlineFrom_eq, List.flatMap_singleton, String.empty_append]

example : (concat (star (terminal 'a')) (paren epsilon)).outline =
    "Concat2\n  Star2\n    Terminal('a')\n  Paren\n    Terminal(ε)\n" := by
  rw [outline_eq]
  decide +kernel

section Lines

theorem lineFeed_not_mem_label (t : Tree) : '\n' ∉ t.label.toList := by
  cases t with
  | terminal c =>
    rw [label]
    split
    · decide
    · simpa using Text.lineFeed_not_mem_quoted c
  | _ => simp [label]

theorem lineFeed_not_mem_linesAt (depth : Nat) (t : Tree) :
    ∀ line ∈ t.linesAt depth, '\n' ∉ line.toList := by
  have hline (depth : Nat) (t : Tree) : '\n' ∉ (indentation depth ++ t.label).toList := by
    simpa [indentation] using lineFeed_not_mem_label t
  induction t generalizing depth with
  | terminal c => exact List.forall_mem_singleton.mpr (hline depth (terminal c))
  | paren t ih | unstarred t ih | star t ih | factor t ih | alternative t ih =>
    rw [linesAt_eq, List.forall_mem_cons]
    refine ⟨hline depth _, ?_⟩
    simpa only [children, List.flatMap_singleton] using ih (depth + 1)
  | concat l r ihl ihr | union l r ihl ihr =>
    rw [linesAt_eq, List.forall_mem_cons]
    refine ⟨hline depth _, ?_⟩
    simpa only [children, List.flatMap_cons, List.flatMap_nil, List.append_nil,
      List.forall_mem_append] using ⟨ihl (depth + 1), ihr (depth + 1)⟩

theorem toList_join_lines (lines : List String) :
    (String.join (lines.map (· ++ "\n"))).toList =
      lines.flatMap (fun line ↦ line.toList ++ ['\n']) := by
  rw [String.toList_join, List.flatMap_map]
  congr 1
  funext line
  exact String.toList_append

theorem append_lineFeed_inj {line line' rest rest' : List Char} (h : '\n' ∉ line)
    (h' : '\n' ∉ line') (heq : line ++ '\n' :: rest = line' ++ '\n' :: rest') :
    line = line' ∧ rest = rest' := by
  induction line generalizing line' with
  | nil =>
    cases line' with
    | nil => exact ⟨rfl, (List.cons.inj heq).2⟩
    | cons c line' => exact absurd (List.cons.inj heq).1 (List.ne_of_not_mem_cons h')
  | cons c line ih =>
    cases line' with
    | nil => exact absurd (List.cons.inj heq).1.symm (List.ne_of_not_mem_cons h)
    | cons d line' =>
      obtain ⟨rfl, htail⟩ := List.cons.inj heq
      obtain ⟨rfl, hrest⟩ :=
        ih (List.not_mem_of_not_mem_cons h) (List.not_mem_of_not_mem_cons h') htail
      exact ⟨rfl, hrest⟩

theorem eq_of_flatMap_lines_eq {lines lines' : List String}
    (h : ∀ line ∈ lines, '\n' ∉ line.toList) (h' : ∀ line ∈ lines', '\n' ∉ line.toList)
    (heq : lines.flatMap (fun line ↦ line.toList ++ ['\n']) =
      lines'.flatMap (fun line ↦ line.toList ++ ['\n'])) : lines = lines' := by
  induction lines generalizing lines' with
  | nil =>
    cases lines' with
    | nil => rfl
    | cons line' lines' => simp at heq
  | cons line lines ih =>
    cases lines' with
    | nil => simp at heq
    | cons line' lines' =>
      obtain ⟨hline, hlines⟩ := List.forall_mem_cons.mp h
      obtain ⟨hline', hlines'⟩ := List.forall_mem_cons.mp h'
      simp only [List.flatMap_cons, List.append_assoc, List.singleton_append] at heq
      obtain ⟨hfirst, hrest⟩ := append_lineFeed_inj hline hline' heq
      rw [String.toList_inj.mp hfirst, ih hlines hlines' hrest]

end Lines

section Names

variable {t u : Tree} {c d : Char}

def sign (c : Char) : String := if c = Alphabet.emptySign then "ε" else Text.quoted c

theorem sign_injective (h : sign c = sign d) : c = d := by
  have hne (e : Char) : "ε" ≠ Text.quoted e := by
    intro he
    rw [← String.toList_inj, Text.toList_quoted] at he
    simp at he
  unfold sign at h
  split at h <;> split at h
  · next hc hd => rw [hc, hd]
  · exact absurd h (hne d)
  · exact absurd h.symm (hne c)
  · exact Text.quoted_injective h

theorem toList_label_terminal (c : Char) :
    (terminal c).label.toList = "Terminal(".toList ++ (sign c).toList ++ [')'] := by
  rw [label, sign]
  split
  · rfl
  · rw [String.toList_append, String.toList_append]
    rfl

theorem eq_terminal_of_label_eq (h : t.label = (terminal c).label) : t = terminal c := by
  rw [← String.toList_inj, toList_label_terminal] at h
  cases t with
  | terminal d =>
    rw [toList_label_terminal] at h
    have hsign := List.append_cancel_left (List.append_cancel_right h)
    rw [sign_injective (String.toList_inj.mp hsign)]
  | _ => simp [label] at h

/-- The name of a node tells all but its children, and of those how many there are. -/
theorem eq_of_label_eq (h : t.label = u.label) :
    t.children.length = u.children.length ∧ (t.children = u.children → t = u) := by
  cases t with
  | terminal c =>
    obtain rfl := eq_terminal_of_label_eq h.symm
    exact ⟨rfl, fun _ ↦ rfl⟩
  | _ =>
    cases u with
    | terminal c => cases eq_terminal_of_label_eq h
    | _ => simp_all [label, children]

end Names

theorem eq_of_linesAt_append_eq {t u : Tree} {depth : Nat} {rest rest' : List String}
    (h : t.linesAt depth ++ rest = u.linesAt depth ++ rest') :
    t.label = u.label ∧ t.children.flatMap (linesAt (depth + 1)) ++ rest =
      u.children.flatMap (linesAt (depth + 1)) ++ rest' := by
  rw [linesAt_eq, linesAt_eq, List.cons_append, List.cons_append] at h
  obtain ⟨hline, hbelow⟩ := List.cons.inj h
  exact ⟨(String.append_right_inj _).mp hline, hbelow⟩

theorem eq_of_flatMap_linesAt_eq {ps qs : List (Nat × Tree)}
    (hdepths : ps.map Prod.fst = qs.map Prod.fst)
    (hlines : ps.flatMap (fun p ↦ p.2.linesAt p.1) = qs.flatMap (fun q ↦ q.2.linesAt q.1)) :
    ps = qs := by
  induction hn : totalNodes (ps.map Prod.snd) using Nat.strongRecOn generalizing ps qs with
  | _ n ih =>
    subst hn
    cases ps with
    | nil =>
      cases qs with
      | nil => rfl
      | cons q qs => cases hdepths
    | cons p ps =>
      cases qs with
      | nil => cases hdepths
      | cons q qs =>
        obtain ⟨depth, t⟩ := p
        obtain ⟨depth', u⟩ := q
        obtain ⟨(rfl : depth = depth'), hlower⟩ := List.cons.inj hdepths
        rw [List.flatMap_cons, List.flatMap_cons] at hlines
        obtain ⟨hlabel, hbelow⟩ := eq_of_linesAt_append_eq hlines
        obtain ⟨hlength, hroot⟩ := eq_of_label_eq hlabel
        -- the children come to stand before what is left, as in the traversal
        have hrest : t.children.map (fun c ↦ (depth + 1, c)) ++ ps =
            u.children.map (fun c ↦ (depth + 1, c)) ++ qs := by
          refine ih _ ?_ ?_ ?_ rfl
          · have := totalNodes_children t
            simp only [List.map_append, List.map_map, Function.comp_def, List.map_id_fun', id,
              totalNodes_append, List.map_cons, totalNodes]
            omega
          · simp only [List.map_append, List.map_map, Function.comp_def, List.map_const', hlower,
              hlength]
          · simpa only [List.flatMap_append, List.flatMap_map] using hbelow
        obtain ⟨hchildren, rfl⟩ := List.append_inj hrest (by simpa using hlength)
        obtain rfl := hroot (List.map_injective_iff.mpr (fun _ _ h ↦ (Prod.mk.inj h).2) hchildren)
        rfl

/-- The size and the two written forms of a tree are what recursion on it makes them. The outline
has as many lines as the tree has nodes, each ended by a line feed and without another one, and no
two trees have the same outline. -/
theorem traversals_eq_recursion (t : Tree) :
    t.text = String.ofList t.chars ∧ t.size = t.nodeCount ∧
    t.outline = String.join ((t.linesAt 0).map (· ++ "\n")) ∧
    (t.linesAt 0).length = t.size ∧ (∀ line ∈ t.linesAt 0, '\n' ∉ line.toList) ∧
    ∀ u : Tree, t.outline = u.outline ↔ t = u := by
  have hsize : t.size = t.nodeCount := by
    rw [size, countFrom_eq, Nat.zero_add]
    exact Nat.add_zero _
  refine ⟨?_, hsize, t.outline_eq, ?_, lineFeed_not_mem_linesAt 0 t, fun u ↦ ⟨fun h ↦ ?_, ?_⟩⟩
  · rw [← String.toList_inj, toList_text, String.toList_ofList]
  · rw [hsize, length_linesAt]
  · rw [← String.toList_inj, outline_eq, outline_eq, toList_join_lines, toList_join_lines] at h
    have hlines := eq_of_flatMap_lines_eq (lineFeed_not_mem_linesAt 0 t)
      (lineFeed_not_mem_linesAt 0 u) h
    have hpairs : [(0, t)] = [(0, u)] := eq_of_flatMap_linesAt_eq rfl (by simpa using hlines)
    simpa using hpairs
  · exact congrArg outline

end LineSearch.Tree
