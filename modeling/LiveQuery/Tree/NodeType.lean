import LiveQuery.Schema.Resolver

/-!
# Node types

The type of a node is a definition or a primitive. Only below an object definition can anything
be selected.
-/

namespace LiveQuery

inductive NodeType where
  | defined (definition : TypeDef)
  | primitive (name : String)
  deriving DecidableEq, Inhabited

namespace NodeType

def name : NodeType → String
  | defined definition => definition.name
  | primitive name => name

/-- The object type whose fields can be selected below a node of this type. -/
def object? : NodeType → Option ObjectDef
  | defined definition => definition.object?
  | primitive _ => none

def isSelectable (t : NodeType) : Bool := t.object?.isSome

def isDefined : NodeType → Bool
  | defined _ => true
  | primitive _ => false

def primitiveName? : NodeType → Option String
  | defined _ => none
  | primitive name => some name

end NodeType

/-- The type of a node that selects a field: a primitive if the element of the declared type is
the bare name of one, and otherwise what the resolver gives for that element. -/
def Resolver.nodeType? (r : Resolver) (declared : TypeExpr) : Option NodeType :=
  match declared.element.name? with
  | some name =>
    if r.isPrimitive name then some (.primitive name)
    else (r.definition? declared.element).map .defined
  | none => (r.definition? declared.element).map .defined

end LiveQuery
