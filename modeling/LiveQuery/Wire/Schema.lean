import LiveQuery.Json
import LiveQuery.Schema.Definition

/-!
# Type definitions on the wire

A type expression is an object with exactly one member, which names the outermost wrapper. Fields
and definitions are records: objects with any further members, or arrays of the members in order.
A definition has the member `kind` before those of its kind.
-/

namespace LiveQuery

namespace TypeExpr

def encode : TypeExpr → Json
  | named name => .object [("named", .string name)]
  | list item => .object [("list", item.encode)]
  | nonNull inner => .object [("nonNull", inner.encode)]

def decode? : Json → Option TypeExpr
  | .object [(key, j)] =>
    if key = "named" then j.string?.map named
    else if key = "list" then (decode? j).map list
    else if key = "nonNull" then (decode? j).map nonNull
    else none
  | _ => none

theorem decode?_encode (t : TypeExpr) : decode? t.encode = some t := by
  induction t with
  | named name => rfl
  | list item ih => simp [encode, decode?, ih]
  | nonNull inner ih => simp [encode, decode?, ih]

end TypeExpr

namespace Field

def encode (f : Field) : Json :=
  .object [("name", .string f.name), ("type", f.type.encode)]

def decode? (j : Json) : Option Field :=
  if j.isRecord 2 then do
    let name ← (← j.member? 0 "name").string?
    let type ← TypeExpr.decode? (← j.member? 1 "type")
    return ⟨name, type⟩
  else none

theorem decode?_encode (f : Field) : decode? f.encode = some f := by
  simp [encode, decode?, Json.string?, TypeExpr.decode?_encode]

end Field

namespace ObjectDef

/-- An object type on its own has no member `kind`. -/
def encode (o : ObjectDef) : Json :=
  .object [("name", .string o.name), ("fields", .array (o.fields.map Field.encode))]

/-- Reads the name and the fields, which stand after `skipped` other members. -/
def decodeAfter? (skipped : Nat) (j : Json) : Option ObjectDef := do
  let name ← (← j.member? skipped "name").string?
  let fields ← (← (← j.member? (skipped + 1) "fields").array?).mapM Field.decode?
  return ⟨name, fields⟩

def decode? (j : Json) : Option ObjectDef :=
  if j.isRecord 2 then decodeAfter? 0 j else none

end ObjectDef

namespace TypeDef

def encode : TypeDef → Json
  | object o => .object [("kind", .string "object"), ("name", .string o.name),
      ("fields", .array (o.fields.map Field.encode))]
  | scalar name => .object [("kind", .string "scalar"), ("name", .string name)]
  | enumeration name values => .object [("kind", .string "enum"), ("name", .string name),
      ("values", .array (values.map .string))]

def decode? (j : Json) : Option TypeDef := do
  let kind ← (← j.member? 0 "kind").string?
  if kind = "object" ∧ j.isRecord 3 then
    return object (← ObjectDef.decodeAfter? 1 j)
  else if kind = "scalar" ∧ j.isRecord 2 then
    return scalar (← (← j.member? 1 "name").string?)
  else if kind = "enum" ∧ j.isRecord 3 then
    let name ← (← j.member? 1 "name").string?
    let values ← (← (← j.member? 2 "values").array?).mapM Json.string?
    return enumeration name values
  else none

end TypeDef

end LiveQuery
