/-!
Finite trees with any number of children. Parsed text and the code read from it
are both trees of this kind, so counting, searching and listing are defined once.
The nodes are listed children first, which is also the order of their numbers.
-/

namespace Encapsulate

inductive Tree (α : Type) where
  | node (info : α) (children : List (Tree α))

namespace Tree

variable {α : Type}

def info : Tree α → α
  | node i _ => i

def children : Tree α → List (Tree α)
  | node _ cs => cs

mutual

def size : Tree α → Nat
  | node _ cs => sizes cs + 1

def sizes : List (Tree α) → Nat
  | [] => 0
  | c :: cs => size c + sizes cs

end

mutual

def any (p : α → Bool) : Tree α → Bool
  | node i cs => p i || anyOf p cs

def anyOf (p : α → Bool) : List (Tree α) → Bool
  | [] => false
  | c :: cs => any p c || anyOf p cs

end

mutual

/-- Every subtree, each after its own children. -/
def subtrees : Tree α → List (Tree α)
  | node i cs => subtreesOf cs ++ [node i cs]

def subtreesOf : List (Tree α) → List (Tree α)
  | [] => []
  | c :: cs => subtrees c ++ subtreesOf cs

end

mutual

/-- The first node on the way down the first children that does not satisfy `p`,
or the last node of that way. -/
def skip (p : α → Bool) : Tree α → Tree α
  | node i cs => if p i then skipFirst p (node i cs) cs else node i cs

def skipFirst (p : α → Bool) (parent : Tree α) : List (Tree α) → Tree α
  | [] => parent
  | c :: _ => skip p c

end

/-- The tree whose nodes, each with its number of children, are listed parents
first. -/
def ofPreorder (nodes : List (α × Nat)) : Option (Tree α) :=
  let forest : List (Tree α) := nodes.foldr
    (fun (i, n) later => node i (later.take n) :: later.drop n) []
  match forest with
  | [t] => some t
  | _ => none

end Tree

end Encapsulate
