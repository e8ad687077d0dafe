import Std.Data.ExtTreeMap
import LiveQuery.Schema.Definition

/-!
# Schemas

A schema is a finite map from names to type definitions in which every definition stands under
its own name. It only grows: a name that is taken stays with its first definition.
-/

namespace LiveQuery

/-- The registered definitions by name, enumerated in code point order. -/
@[ext]
structure Schema where
  definitions : Std.ExtTreeMap String TypeDef
  deriving Inhabited

/-- Why a definition cannot be registered. -/
inductive SchemaError where
  | nameTaken (name : String)
  deriving DecidableEq

def SchemaError.message : SchemaError → String
  | nameTaken name => "The schema already defines a type named " ++ name ++ "."

namespace Schema

def empty : Schema := ⟨∅⟩

def get? (s : Schema) (name : String) : Option TypeDef := s.definitions[name]?

def contains (s : Schema) (name : String) : Bool := s.definitions.contains name

def size (s : Schema) : Nat := s.definitions.size

def isEmpty (s : Schema) : Bool := s.definitions.isEmpty

/-- The definitions with the names they stand under, in ascending order of the names. -/
def toList (s : Schema) : List (String × TypeDef) := s.definitions.toList

/-- Adds a definition under its own name, which must be free. -/
def register (s : Schema) (d : TypeDef) : Except SchemaError Schema :=
  if s.contains d.name then .error (.nameTaken d.name)
  else .ok ⟨s.definitions.insert d.name d⟩

/-- Registers the definitions in order and stops at the first whose name is taken. -/
def ofList? (ds : List TypeDef) : Except SchemaError Schema :=
  ds.foldlM register empty

/-- The definition of the innermost name of a type expression. -/
def resolve? (s : Schema) (t : TypeExpr) : Option TypeDef := s.get? t.base

def display (s : Schema) : String :=
  "Schema[" ++ ", ".intercalate s.definitions.keys ++ "]"

instance : ToString Schema := ⟨display⟩

/-! ### What registering does -/

theorem ext_get? {s r : Schema} (h : ∀ name, s.get? name = r.get? name) : s = r :=
  Schema.ext (Std.ExtTreeMap.ext_getElem? h)

@[simp] theorem get?_empty (name : String) : empty.get? name = none := by
  simp [get?, empty]

theorem contains_eq_isSome (s : Schema) (name : String) :
    s.contains name = (s.get? name).isSome :=
  Std.ExtTreeMap.contains_eq_isSome_getElem?

theorem register_eq_error_iff {s : Schema} {d : TypeDef} {e : SchemaError} :
    s.register d = .error e ↔ s.contains d.name = true ∧ e = .nameTaken d.name := by
  cases h : s.contains d.name <;> simp [register, h, eq_comm]

theorem get?_of_register {s r : Schema} {d : TypeDef} (h : s.register d = .ok r) (name : String) :
    r.get? name = if d.name = name then some d else s.get? name := by
  unfold register at h
  split at h
  · cases h
  · cases h
    simp only [get?, Std.ExtTreeMap.getElem?_insert, Std.compare_eq_iff_eq]

end Schema

end LiveQuery
