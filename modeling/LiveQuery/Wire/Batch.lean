import LiveQuery.Batch
import LiveQuery.Wire.Id

/-!
# Batches on the wire

All parts of a batch are records: objects with any further members, or arrays of the members in
order. The lists may be left out and are then empty. A change has the member `operation` before
those of its kind.
-/

namespace LiveQuery

namespace Argument

def encode (a : Argument) : Json :=
  .object [("name", .string a.name), ("variableId", a.variableId.encode)]

def decode? (j : Json) : Option Argument :=
  if j.isRecord 2 then do
    let name ← (← j.member? 0 "name").string?
    let variableId ← VariableId.decode? (← j.member? 1 "variableId")
    return ⟨name, variableId⟩
  else none

end Argument

/-- Reads a member that holds a list, or the empty list where the member is missing. -/
def Json.listOr {α : Type} (decode? : Json → Option α) : Option Json → Option (List α)
  | none => some []
  | some j => j.array?.bind (·.mapM decode?)

namespace Selection

mutual

def encode : Selection → Json
  | ⟨id, field, arguments, children⟩ =>
    .object [("id", id.encode), ("fieldName", .string field),
      ("args", .array (arguments.map Argument.encode)), ("children", .array (encodeAll children))]

def encodeAll : List Selection → List Json
  | [] => []
  | s :: rest => s.encode :: encodeAll rest

end

mutual

/-- Reads a selection with everything nested in it. -/
def decode? (j : Json) : Option Selection :=
  if j.isRecord 4 then do
    let id ← NodeId.decode? (← j.member? 0 "id")
    let field ← (← j.member? 1 "fieldName").string?
    let arguments ← Json.listOr Argument.decode? (j.member? 2 "args")
    let children ← match _h : j.member? 3 "children" with
      | none => some []
      | some (.array items) => decodeAll? items
      | some _ => none
    return ⟨id, field, arguments, children⟩
  else none
termination_by sizeOf j
decreasing_by
  have := Json.sizeOf_member?_lt _h
  simp only [Json.array.sizeOf_spec] at this
  omega

def decodeAll? : List Json → Option (List Selection)
  | [] => some []
  | j :: rest => do
    let s ← decode? j
    let ss ← decodeAll? rest
    return s :: ss
termination_by items => sizeOf items

end

end Selection

namespace Change

def encode : Change → Json
  | add target selection => .object [("operation", .string "ADD_CHILD"),
      ("nodeId", target.encode), ("node", selection.encode)]
  | delete target => .object [("operation", .string "DELETE"), ("nodeId", target.encode)]

def decode? (j : Json) : Option Change := do
  let operation ← (← j.member? 0 "operation").string?
  if operation = "ADD_CHILD" ∧ j.isRecord 3 then
    let target ← NodeId.decode? (← j.member? 1 "nodeId")
    let selection ← Selection.decode? (← j.member? 2 "node")
    return add target selection
  else if operation = "DELETE" ∧ j.isRecord 2 then
    return delete (← NodeId.decode? (← j.member? 1 "nodeId"))
  else none

end Change

namespace Assignment

def encode (a : Assignment) : Json :=
  .object [("id", a.variableId.encode), ("value", a.value)]

def decode? (j : Json) : Option Assignment :=
  if j.isRecord 2 then do
    let variableId ← VariableId.decode? (← j.member? 0 "id")
    let value ← j.member? 1 "value"
    return ⟨variableId, value⟩
  else none

end Assignment

namespace Batch

def encode (b : Batch) : Json :=
  .object [("variables", .array (b.assignments.map Assignment.encode)),
    ("nodeOperations", .array (b.changes.map Change.encode))]

def decode? (j : Json) : Option Batch :=
  if j.isRecord 2 then do
    let assignments ← Json.listOr Assignment.decode? (j.member? 0 "variables")
    let changes ← Json.listOr Change.decode? (j.member? 1 "nodeOperations")
    return ⟨assignments, changes⟩
  else none

end Batch

end LiveQuery
