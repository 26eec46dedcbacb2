import Encapsulate.Cpp.Code.Basic

/-!
Code as a table of numbered nodes. Nodes are numbered from zero, each after its
own children and trees in their order, so the number of a node is its place in
the table. An entry also gives the number of the node's parent.
-/

namespace Encapsulate.Cpp.Code

mutual

/-- Numbers the nodes of a tree whose first node gets the number `first`. -/
def number {α : Type} (first : Nat) : Tree α → Tree (Nat × α)
  | .node i cs => .node (first + Tree.sizes cs, i) (numberAll first cs)

def numberAll {α : Type} (first : Nat) : List (Tree α) → List (Tree (Nat × α))
  | [] => []
  | c :: cs => number first c :: numberAll (first + c.size) cs

end

abbrev NumberedCode := Tree (Nat × CodeNode)

structure Entry where
  parent : Option Nat
  code : NumberedCode

namespace Entry

def id (e : Entry) : Nat :=
  e.code.info.1

def node (e : Entry) : CodeNode :=
  e.code.info.2

def children (e : Entry) : List Nat :=
  e.code.children.map (·.info.1)

def unparen (e : Entry) : Nat :=
  (e.code.skip fun n => n.2.isParen).info.1

end Entry

mutual

def entries (parent : Option Nat) : NumberedCode → List Entry
  | .node i cs => entriesOf (some i.1) cs ++ [⟨parent, .node i cs⟩]

def entriesOf (parent : Option Nat) : List NumberedCode → List Entry
  | [] => []
  | c :: cs => entries parent c ++ entriesOf parent cs

end

def table (codes : List Code) : List Entry :=
  entriesOf none (numberAll 0 codes)

end Encapsulate.Cpp.Code
