import LineSearch.Alphabet
import LineSearch.Text.Quoted

namespace LineSearch

/-- A tree keeps the shape of the grammar
  union  := union '|' concat | concat
  concat := concat star | star
  star   := star '*' | atom
  atom   := '(' union ')' | TERMINAL
in which each of the first three rules has a node for the operator and one for the single child that
is passed through. -/
inductive Tree
  | terminal (c : Char)
  | paren (t : Tree)
  /-- An atom that stands where a star could. -/
  | unstarred (t : Tree)
  | star (t : Tree)
  /-- The first factor of a concatenation. -/
  | factor (t : Tree)
  | concat (l r : Tree)
  /-- The first alternative of a union. -/
  | alternative (t : Tree)
  | union (l r : Tree)
  deriving DecidableEq

inductive Shape
  | terminal (c : Char)
  | star (t : Tree)
  | concat (l r : Tree)
  | union (l r : Tree)
  deriving DecidableEq

namespace Shape

def tree : Shape → Tree
  | terminal c => .terminal c
  | star t => .star t
  | concat l r => .concat l r
  | union l r => .union l r

def operands : Shape → List Tree
  | terminal _ => []
  | star t => [t]
  | concat l r | union l r => [l, r]

end Shape

namespace Tree

def epsilon : Tree := terminal Alphabet.emptySign

def isEpsilon : Tree → Bool
  | terminal c => c == Alphabet.emptySign
  | _ => false

def shape : Tree → Shape
  | paren t | unstarred t | factor t | alternative t => t.shape
  | terminal c => .terminal c
  | star t => .star t
  | concat l r => .concat l r
  | union l r => .union l r

def operator (t : Tree) : Tree := t.shape.tree

def children : Tree → List Tree
  | terminal _ => []
  | paren t | unstarred t | star t | factor t | alternative t => [t]
  | concat l r | union l r => [l, r]

def nodeCount : Tree → Nat
  | terminal _ => 1
  | paren t | unstarred t | star t | factor t | alternative t => t.nodeCount + 1
  | concat l r | union l r => l.nodeCount + r.nodeCount + 1

def totalNodes : List Tree → Nat
  | [] => 0
  | t :: ts => t.nodeCount + totalNodes ts

theorem totalNodes_append (ts us : List Tree) :
    totalNodes (ts ++ us) = totalNodes ts + totalNodes us := by
  induction ts with
  | nil => simp [totalNodes]
  | cons t ts ih => simp [totalNodes, ih, Nat.add_assoc]

theorem totalNodes_children (t : Tree) : totalNodes t.children + 1 = t.nodeCount := by
  cases t <;> simp [totalNodes, children, nodeCount]

theorem nodeCount_pos (t : Tree) : 0 < t.nodeCount := by
  cases t <;> simp [nodeCount]

theorem totalNodes_operands_lt (t : Tree) : totalNodes t.shape.operands < t.nodeCount := by
  fun_induction shape t <;> simp_all [Shape.operands, totalNodes, nodeCount] <;> omega

def countFrom (counted : Nat) : List Tree → Nat
  | [] => counted
  | t :: rest => countFrom (counted + 1) (t.children ++ rest)
termination_by pending => totalNodes pending
decreasing_by
  have := totalNodes_children t
  simp only [totalNodes_append, totalNodes]
  omega

def size (t : Tree) : Nat := countFrom 0 [t]

end Tree

end LineSearch
