import LiveQuery.Id
import LiveQuery.Schema.TypeExpr

/-!
# Rejections

Why a change to a tree is refused. Each rejection carries what its message names.
-/

namespace LiveQuery

inductive Rejection where
  | duplicateId (node : NodeId)
  | notSelectable (node parent : NodeId)
  | unknownField (node : NodeId) (field parentType : String)
  /-- `type` is the element of the declared type. -/
  | unresolvedType (node : NodeId) (type : TypeExpr)
  | unknownVariable (node : NodeId) (argument : String) (variableId : VariableId)
  | tooDeep (node : NodeId) (limit : Nat)
  | tooMany (node : NodeId) (limit : Nat)
  | unknownNode (node : NodeId)
  | rootRemoval
  deriving DecidableEq

namespace Rejection

def message : Rejection → String
  | duplicateId node => s!"Invalid node id {node}: already exists."
  | notSelectable node parent => s!"Invalid node {node}: parent {parent} is not selectable."
  | unknownField node field parentType => s!"Invalid node {node}: no field {field} on {parentType}."
  | unresolvedType node type => s!"Invalid node {node}: unable to resolve type {type}."
  | unknownVariable node argument variableId =>
    s!"Invalid node {node}: variable {variableId} not found for argument {argument}."
  | tooDeep node limit => s!"Invalid node {node}: exceeds the maximum depth of {limit}."
  | tooMany node limit => s!"Invalid node {node}: the tree is limited to {limit} nodes."
  | unknownNode node => s!"Unknown node {node}."
  | rootRemoval => "The root node cannot be removed."

instance : ToString Rejection := ⟨message⟩

end Rejection

end LiveQuery
