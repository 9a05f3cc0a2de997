import LineSearch.Syntax.Printer

namespace LineSearch.Tree

def chars : Tree → List Char
  | terminal c => [c]
  | paren t => '(' :: t.chars ++ [')']
  | unstarred t | factor t | alternative t => t.chars
  | star t => t.chars ++ ['*']
  | concat l r => l.chars ++ r.chars
  | union l r => l.chars ++ '|' :: r.chars

def Fragment.chars : Fragment → List Char
  | tree t => t.chars
  | sign c => [c]

theorem flatMap_fragments (t : Tree) : t.fragments.flatMap Fragment.chars = t.chars := by
  cases t <;> simp [fragments, Fragment.chars, chars]

theorem writeFrom_eq (written : String) (pending : List Fragment) :
    writeFrom written pending = written ++ String.ofList (pending.flatMap Fragment.chars) := by
  fun_induction writeFrom written pending with
  | case1 written => simp
  | case2 written c rest ih =>
    rw [ih, ← String.append_singleton, String.append_assoc, List.flatMap_cons,
      String.ofList_append]
    rfl
  | case3 written t rest ih =>
    rw [ih, List.flatMap_append, flatMap_fragments, List.flatMap_cons]
    rfl

theorem toList_text (t : Tree) : t.text.toList = t.chars := by
  have h : t.text = String.ofList t.chars := by simp [text, writeFrom_eq, Fragment.chars]
  rw [h, String.toList_ofList]

theorem text_eq_iff (t : Tree) (s : String) : t.text = s ↔ t.chars = s.toList := by
  rw [← String.toList_inj, toList_text]

theorem chars_ne_nil (t : Tree) : t.chars ≠ [] := by
  induction t <;> simp_all [chars]

end LineSearch.Tree
