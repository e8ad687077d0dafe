/-!
# JSON values

Variable values are arbitrary JSON and the wire format is JSON, so the library has a value type
of its own. Numbers are exact: an integer, or a decimal with digits after the point.
-/

namespace LiveQuery

/-- A JSON value. The members of an object are listed as they were written, and `decimal m s`
stands for `m / 10 ^ s`. -/
inductive Json where
  | null
  | bool (value : Bool)
  | int (value : Int)
  | decimal (mantissa : Int) (scale : Nat)
  | string (text : String)
  | array (items : List Json)
  | object (members : List (String × Json))
  deriving Inhabited

namespace Json

/-- The number `mantissa / 10 ^ scale`. It is an integer if it has no digits after the point and
fits into 64 bits, with or without a sign; any other is a decimal. -/
def number (mantissa : Int) (scale : Nat) : Json :=
  if scale = 0 ∧ Int64.minValue.toInt ≤ mantissa ∧ mantissa < UInt64.size then .int mantissa
  else .decimal mantissa scale

def bool? : Json → Option Bool
  | .bool b => some b
  | _ => none

def string? : Json → Option String
  | .string s => some s
  | _ => none

def array? : Json → Option (List Json)
  | .array items => some items
  | _ => none

/-- A whole number below `bound`, when the value is one. -/
def natBelow? (bound : Nat) : Json → Option Nat
  | .int (.ofNat n) => if n < bound then some n else none
  | _ => none

/-- A record of at most `arity` members can be written as an object, or as the array of its
members in their fixed order. -/
def isRecord (arity : Nat) : Json → Bool
  | .object _ => true
  | .array items => items.length ≤ arity
  | _ => false

/-- The member of a record that is called `name` in an object and stands at `position` in an
array. -/
def member? (position : Nat) (name : String) : Json → Option Json
  | .object members => members.lookup name
  | .array items => items[position]?
  | _ => none

@[simp] theorem isRecord_object (arity : Nat) (members : List (String × Json)) :
    (object members).isRecord arity = true := rfl

@[simp] theorem isRecord_array (arity : Nat) (items : List Json) :
    (array items).isRecord arity = decide (items.length ≤ arity) := rfl

@[simp] theorem member?_object_cons (position : Nat) (name key : String) (j : Json)
    (rest : List (String × Json)) :
    (object ((key, j) :: rest)).member? position name =
      if name = key then some j else (object rest).member? position name := by
  by_cases h : name = key
  · simp [member?, h]
  · simp [member?, List.lookup_cons, h, beq_eq_false_iff_ne.2 h]

@[simp] theorem member?_array (position : Nat) (name : String) (items : List Json) :
    (array items).member? position name = items[position]? := rfl

theorem natBelow?_eq_some_iff {bound n : Nat} {j : Json} :
    j.natBelow? bound = some n ↔ j = int n ∧ n < bound := by
  cases j with
  | int i =>
    cases i with
    | ofNat m =>
      simp only [natBelow?, int.injEq]
      split <;> grind
    | negSucc m => simp [natBelow?]
  | _ => simp [natBelow?]

theorem sizeOf_lt_of_mem_array {items : List Json} {j : Json} (h : j ∈ items) :
    sizeOf j < sizeOf (array items) := by
  have := List.sizeOf_lt_of_mem h
  simp only [array.sizeOf_spec]
  omega

theorem sizeOf_lt_of_mem_object {members : List (String × Json)} {name : String} {j : Json}
    (h : (name, j) ∈ members) : sizeOf j < sizeOf (object members) := by
  have := List.sizeOf_lt_of_mem h
  simp only [object.sizeOf_spec, Prod.mk.sizeOf_spec] at *
  omega

theorem mem_of_lookup {members : List (String × Json)} {name : String} {j : Json}
    (h : members.lookup name = some j) : (name, j) ∈ members := by
  induction members with
  | nil => simp at h
  | cons m ms ih =>
    obtain ⟨k, v⟩ := m
    rw [List.lookup_cons] at h
    split at h
    · simp_all
    · exact List.mem_cons_of_mem _ (ih h)

/-- Records are well founded: a member is smaller than the record it belongs to. -/
theorem sizeOf_member?_lt {position : Nat} {name : String} {j m : Json}
    (h : j.member? position name = some m) : sizeOf m < sizeOf j := by
  cases j with
  | array items => exact sizeOf_lt_of_mem_array (List.mem_of_getElem? h)
  | object members => exact sizeOf_lt_of_mem_object (mem_of_lookup h)
  | _ => simp [member?] at h

end Json

end LiveQuery
