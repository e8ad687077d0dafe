import LiveQuery.Json
import LiveQuery.Selection

/-!
# Batches

What a client sends: variable assignments, and changes to the tree in the order in which they are
to be made.
-/

namespace LiveQuery

structure Assignment where
  variableId : VariableId
  value : Json

inductive Change where
  /-- Adds the selection below the target. -/
  | add (target : NodeId) (selection : Selection)
  /-- Removes the target with everything below it. -/
  | delete (target : NodeId)

/-- The node a change names as the place where it is made. -/
def Change.target : Change → NodeId
  | add target _ => target
  | delete target => target

structure Batch where
  assignments : List Assignment := []
  changes : List Change := []

namespace Batch

/-- Assigns one more variable, after those already there. -/
def withAssignment (b : Batch) (variableId : VariableId) (value : Json) : Batch :=
  { b with assignments := b.assignments ++ [⟨variableId, value⟩] }

/-- Makes one more change, after those already there. -/
def withChange (b : Batch) (change : Change) : Batch :=
  { b with changes := b.changes ++ [change] }

end Batch

end LiveQuery
