import Encapsulate.Cpp.ParseTree
import Encapsulate.Json.Value

/-!
Parse trees as they are stored by a parser. A stored tree is the text it belongs
to, whether it has errors, and its nodes, parents first: the kind, both ends of the
span, the number of children and perhaps the field the node fills. A mark in front
of the kind tells unnamed nodes. A parser made from stored trees knows their texts
only; any other text counts as a file without declarations that could not be read.
-/

namespace Encapsulate.Cpp.TreeFile

open Json

def kindOf (written : String) : Bool × String :=
  match written.toList with
  | '\'' :: cs => (false, String.ofList cs)
  | _ => (true, written)

def nat? : Value → Option Nat
  | .number (.whole n) => if 0 ≤ n then some n.toNat else none
  | _ => none

def fieldOf? : List Value → Option (Option String)
  | [] => some none
  | [.string field] => some (some field)
  | _ => none

def node? : Value → Option (ParseNode × Nat)
  | .array (.string written :: start :: stop :: count :: rest) => do
    let (isNamed, kind) := kindOf written
    return (⟨kind, isNamed, ⟨← nat? start, ← nat? stop⟩, ← fieldOf? rest⟩, ← nat? count)
  | _ => none

def nodes? : List Value → Option (List (ParseNode × Nat))
  | [] => some []
  | v :: vs => (node? v).bind fun n => (nodes? vs).map (n :: ·)

def stored? : Value → Option (String × Parsed)
  | .object members =>
    match members.lookup "text", members.lookup "has_error", members.lookup "nodes" with
    | some (.string text), some (.bool hasErrors), some (.array nodes) =>
      (nodes? nodes).bind fun nodes =>
        (Tree.ofPreorder nodes).map fun tree => (text, ⟨tree, hasErrors⟩)
    | _, _, _ => none
  | _ => none

def trees? : List Value → Option (List (String × Parsed))
  | [] => some []
  | v :: vs => (stored? v).bind fun t => (trees? vs).map (t :: ·)

def unknown : Parsed :=
  ⟨.node ⟨"ERROR", true, ⟨0, 0⟩, none⟩ [], true⟩

def parser (trees : List (String × Parsed)) : Parser :=
  fun text => (trees.lookup text).getD unknown

def ofText? (text : String) : Option (List (String × Parsed)) :=
  match (Document.ofText? text).bind (Document.value? maxDepth) with
  | some (.array items) => trees? items
  | _ => none

end Encapsulate.Cpp.TreeFile
