import LiveQuery.Schema.TypeExpr

/-!
# Type definitions

An object type declares fields, which can be selected; scalars and enumerations are leaves.
-/

namespace LiveQuery

structure Field where
  name : String
  type : TypeExpr
  deriving DecidableEq, Inhabited

structure ObjectDef where
  name : String
  fields : List Field := []
  deriving DecidableEq, Inhabited

namespace ObjectDef

/-- Declares one more field, after those already there. -/
def withField (o : ObjectDef) (name : String) (type : TypeExpr) : ObjectDef :=
  { o with fields := o.fields ++ [⟨name, type⟩] }

/-- The first field of that name. -/
def field? (o : ObjectDef) (name : String) : Option Field :=
  o.fields.find? (·.name = name)

end ObjectDef

inductive TypeDef where
  | object (definition : ObjectDef)
  | scalar (name : String)
  | enumeration (name : String) (values : List String)
  deriving DecidableEq, Inhabited

namespace TypeDef

def name : TypeDef → String
  | object o => o.name
  | scalar name => name
  | enumeration name _ => name

/-- The object type, if fields can be selected on this type. -/
def object? : TypeDef → Option ObjectDef
  | object o => some o
  | _ => none

end TypeDef

end LiveQuery
