import LineSearch.Syntax.Tree

namespace LineSearch.Tree

inductive Fragment
  | tree (t : Tree)
  | sign (c : Char)

namespace Fragment

def weight : Fragment → Nat
  | tree t => 3 * t.nodeCount
  | sign _ => 1

def totalWeight : List Fragment → Nat
  | [] => 0
  | p :: ps => p.weight + totalWeight ps

theorem totalWeight_append (ps qs : List Fragment) :
    totalWeight (ps ++ qs) = totalWeight ps + totalWeight qs := by
  induction ps with
  | nil => simp [totalWeight]
  | cons p ps ih => simp [totalWeight, ih, Nat.add_assoc]

end Fragment

/-- The fragments directly below a node. Only the operators and the parentheses write anything, so
pass-through nodes leave no trace. -/
def fragments : Tree → List Fragment
  | terminal c => [.sign c]
  | paren t => [.sign '(', .tree t, .sign ')']
  | unstarred t | factor t | alternative t => [.tree t]
  | star t => [.tree t, .sign '*']
  | concat l r => [.tree l, .tree r]
  | union l r => [.tree l, .sign '|', .tree r]

theorem totalWeight_fragments_lt (t : Tree) :
    Fragment.totalWeight t.fragments < 3 * t.nodeCount := by
  cases t <;> simp [fragments, Fragment.totalWeight, Fragment.weight, nodeCount] <;> omega

def writeFrom (written : String) : List Fragment → String
  | [] => written
  | .sign c :: rest => writeFrom (written.push c) rest
  | .tree t :: rest => writeFrom written (t.fragments ++ rest)
termination_by pending => Fragment.totalWeight pending
decreasing_by
  · simp [Fragment.totalWeight, Fragment.weight]
  · have := totalWeight_fragments_lt t
    simp only [Fragment.totalWeight_append, Fragment.totalWeight, Fragment.weight]
    omega

def text (t : Tree) : String := writeFrom "" [.tree t]

def label : Tree → String
  | terminal c =>
    if c = Alphabet.emptySign then "Terminal(ε)" else "Terminal(" ++ Text.quoted c ++ ")"
  | paren _ => "Paren"
  | unstarred _ => "Star"
  | star _ => "Star2"
  | factor _ => "Concat"
  | concat _ _ => "Concat2"
  | alternative _ => "Union"
  | union _ _ => "Union2"

def kind : Tree → String
  | terminal _ => "Terminal"
  | t => t.label

def indentation (depth : Nat) : String := String.ofList (List.replicate (2 * depth) ' ')

def outlineLine (depth : Nat) (t : Tree) : String := indentation depth ++ t.label ++ "\n"

def outlineFrom (written : String) : List (Nat × Tree) → String
  | [] => written
  | (depth, t) :: rest =>
    outlineFrom (written ++ outlineLine depth t) (t.children.map (fun c ↦ (depth + 1, c)) ++ rest)
termination_by pending => totalNodes (pending.map Prod.snd)
decreasing_by
  have := totalNodes_children t
  simp only [List.map_append, List.map_cons, List.map_map, Function.comp_def, List.map_id_fun', id,
    totalNodes_append, totalNodes]
  omega

/-- One line a node, each node before its children and two columns to their left. -/
def outline (t : Tree) : String := outlineFrom "" [(0, t)]

end LineSearch.Tree
