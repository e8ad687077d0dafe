import LiveQuery.Id

/-!
# Selections

A selection asks for one field below a node that exists already, together with everything the
client wants below it right away.
-/

namespace LiveQuery

/-- The argument `name` of a field takes the value of a variable. -/
structure Argument where
  name : String
  variableId : VariableId
  deriving DecidableEq

/-- A node to add: the id it is to have, the field it selects on its parent's type, its arguments
and the selections below it. -/
structure Selection where
  id : NodeId
  field : String
  arguments : List Argument := []
  children : List Selection := []

namespace Selection

/-- Passes one more argument, after those already there. -/
def withArgument (s : Selection) (name : String) (variableId : VariableId) : Selection :=
  { s with arguments := s.arguments ++ [⟨name, variableId⟩] }

/-- Nests one more selection, after those already there. -/
def withChild (s child : Selection) : Selection :=
  { s with children := s.children ++ [child] }

end Selection

end LiveQuery
