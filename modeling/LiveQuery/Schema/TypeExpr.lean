/-!
# Type expressions

The type a field is declared with: a name under any number of list and non-null wrappers.
-/

namespace LiveQuery

inductive TypeExpr where
  | named (name : String)
  | list (item : TypeExpr)
  | nonNull (inner : TypeExpr)
  deriving DecidableEq, Inhabited

namespace TypeExpr

/-- A list is written in brackets and a non-null type with an exclamation mark after it. -/
def display : TypeExpr → String
  | named name => name
  | list item => "[" ++ item.display ++ "]"
  | nonNull inner => inner.display ++ "!"

instance : ToString TypeExpr := ⟨display⟩

/-- The innermost name, under all wrappers. -/
def base : TypeExpr → String
  | named name => name
  | list item => item.base
  | nonNull inner => inner.base

/-- The name of an expression that has no wrapper. -/
def name? : TypeExpr → Option String
  | named name => some name
  | _ => none

def stripList : TypeExpr → TypeExpr
  | list item => item
  | t => t

def stripNonNull : TypeExpr → TypeExpr
  | nonNull inner => inner
  | t => t

/-- What one entry of a field of this type is: at most one list wrapper and then at most one
non-null wrapper are taken off, in that order, and whatever is left stays. -/
def element (t : TypeExpr) : TypeExpr :=
  t.stripList.stripNonNull

theorem base_element (t : TypeExpr) : t.element.base = t.base := by
  cases t with
  | named => rfl
  | list item => cases item <;> rfl
  | nonNull => rfl

end TypeExpr

end LiveQuery
