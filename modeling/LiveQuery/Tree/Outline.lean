import LiveQuery.Tree.Basic
import LiveQuery.Worklist

/-!
# Outlines

A tree as text: one line for each node, the children below their parent in the order in which
they were added, and two spaces deeper.
-/

namespace LiveQuery

namespace Node

/-- The arguments in ascending order of their names, each with the variable it is bound to. -/
def argumentText (n : Node) : String :=
  if n.arguments.isEmpty then ""
  else " (" ++ ", ".intercalate (n.arguments.toList.map fun (name, r) => name ++ "=" ++ toString r.variableId)
    ++ ")"

/-- The line of a node: its indent, its id, the field it selects unless it is the root, its type
and its arguments. -/
def line (n : Node) : String :=
  String.join (List.replicate n.depth "  ") ++ toString n.id
    ++ (match n.parent with | none => " " | some _ => " " ++ n.field ++ ": ")
    ++ n.type.name ++ n.argumentText ++ "\n"

end Node

namespace Tree

/-- Writes the line of a node and asks for its children next. -/
def writeLine (t : Tree) (id : NodeId) (_ : Unit) : List NodeId × Unit × List String :=
  match t.node? id with
  | none => ([], (), [])
  | some n => (n.children, (), [n.line])

/-- The lines of the outline, one for each node. -/
def outlineLines (t : Tree) : List String :=
  (Worklist.run t.writeLine t.size ⟨[.root], (), #[]⟩).output.toList

def outline (t : Tree) : String := String.join t.outlineLines

end Tree

end LiveQuery
