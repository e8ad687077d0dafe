import LiveQuery.Schema.Basic

/-!
# Resolvers

A tree does not depend on a schema but on a resolver: two questions a schema can answer, each by
a function of its argument alone.
-/

namespace LiveQuery

/-- The primitive types every schema knows without defining them. -/
def builtinPrimitives : List String := ["Int", "Float", "String", "Boolean", "ID"]

/-- How field types are resolved. `definition?` gives the definition a type expression stands
for, and `isPrimitive` tells which names are primitive leaves. -/
structure Resolver where
  definition? : TypeExpr → Option TypeDef
  isPrimitive : String → Bool := builtinPrimitives.contains

/-- A schema resolves an expression to the definition of its innermost name. -/
def Schema.resolver (s : Schema) : Resolver where
  definition? := s.resolve?

namespace Resolver

/-- The same definitions with another list of primitive names. -/
def withPrimitives (r : Resolver) (names : List String) : Resolver :=
  { r with isPrimitive := names.contains }

/-- The same resolver, except that it defines no wrapped type. -/
def namedOnly (r : Resolver) : Resolver :=
  { r with definition? := fun t => t.name?.bind fun name => r.definition? (.named name) }

end Resolver

end LiveQuery
