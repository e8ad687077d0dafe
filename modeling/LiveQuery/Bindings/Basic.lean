import Std.Data.ExtTreeMap
import LiveQuery.Id
import LiveQuery.Json

/-!
# Variable bindings

The values the client assigned to its variables, each with the number of references that are out
to it. A reference keeps the value its variable had when it was taken. A binding can be swept away
once no reference is out.
-/

namespace LiveQuery

structure Binding where
  value : Json
  count : Nat := 0

/-- `unmatched` counts the references that were given back while none was out. Nothing depends on
it: it keeps a record of what the counts, which stop at zero, would hide. -/
@[ext]
structure Bindings where
  entries : Std.ExtTreeMap VariableId Binding
  unmatched : Nat := 0

/-- A counted reference to a binding, with the value it had when the reference was taken. -/
structure Reference where
  variableId : VariableId
  value : Json

namespace Bindings

def empty : Bindings where
  entries := ∅

instance : Inhabited Bindings := ⟨empty⟩

def get? (b : Bindings) (id : VariableId) : Option Binding := b.entries[id]?

def contains (b : Bindings) (id : VariableId) : Bool := b.entries.contains id

/-- How many references are out to a binding. -/
def count? (b : Bindings) (id : VariableId) : Option Nat := (b.get? id).map (·.count)

def size (b : Bindings) : Nat := b.entries.size

def isEmpty (b : Bindings) : Bool := b.entries.isEmpty

/-- The bindings in ascending order of their ids. -/
def toList (b : Bindings) : List (VariableId × Binding) := b.entries.toList

/-- How many references are out altogether. -/
def total (b : Bindings) : Nat := b.toList.foldr (fun (_, binding) n => binding.count + n) 0

/-- Assigns a value. A binding that is there already keeps its count. -/
def put (b : Bindings) (id : VariableId) (value : Json) : Bindings :=
  { b with entries := b.entries.alter id fun
    | some binding => some { binding with value }
    | none => some { value } }

/-- Takes a reference to a binding, if there is one. -/
def acquire? (b : Bindings) (id : VariableId) : Option (Reference × Bindings) :=
  (b.get? id).map fun binding =>
    (⟨id, binding.value⟩,
      { b with entries := b.entries.insert id { binding with count := binding.count + 1 } })

/-- Gives one reference to a binding back. -/
def release (b : Bindings) (id : VariableId) : Bindings where
  entries := b.entries.modify id fun binding => { binding with count := binding.count - 1 }
  unmatched := if (b.count? id).getD 0 = 0 then b.unmatched + 1 else b.unmatched

/-- Removes the bindings to which no reference is out, and tells which they were. -/
def sweep (b : Bindings) : List VariableId × Bindings :=
  ((b.entries.filter fun _ binding => binding.count = 0).keys,
    { b with entries := b.entries.filter fun _ binding => 0 < binding.count })

/-! ### What each operation does to the bindings -/

theorem ext_get? {b c : Bindings} (h : ∀ id, b.get? id = c.get? id)
    (hu : b.unmatched = c.unmatched) : b = c :=
  Bindings.ext (Std.ExtTreeMap.ext_getElem? h) hu

@[simp] theorem get?_empty (id : VariableId) : empty.get? id = none := by
  simp [get?, empty]

theorem get?_put (b : Bindings) (id other : VariableId) (value : Json) :
    (b.put id value).get? other =
      if id = other then some ⟨value, (b.count? id).getD 0⟩ else b.get? other := by
  simp only [get?, put, count?, Std.ExtTreeMap.getElem?_alter, Std.compare_eq_iff_eq]
  cases b.entries[id]? <;> rfl

theorem get?_release (b : Bindings) (id other : VariableId) :
    (b.release id).get? other =
      if id = other then (b.get? other).map fun binding => { binding with count := binding.count - 1 }
      else b.get? other := by
  simp only [get?, release, Std.ExtTreeMap.getElem?_modify, Std.compare_eq_iff_eq]
  split
  · next h => rw [h]
  · rfl

theorem acquire?_eq_none_iff {b : Bindings} {id : VariableId} :
    b.acquire? id = none ↔ b.get? id = none := by
  simp [acquire?]

theorem acquire?_eq_some_iff {b c : Bindings} {id : VariableId} {reference : Reference} :
    b.acquire? id = some (reference, c) ↔ ∃ binding, b.get? id = some binding ∧
      reference = ⟨id, binding.value⟩ ∧
      c = { b with entries := b.entries.insert id { binding with count := binding.count + 1 } } := by
  cases h : b.get? id <;> simp [acquire?, h, eq_comm]

theorem get?_insert (b : Bindings) (id other : VariableId) (binding : Binding) :
    ({ b with entries := b.entries.insert id binding } : Bindings).get? other =
      if id = other then some binding else b.get? other := by
  simp only [get?, Std.ExtTreeMap.getElem?_insert, Std.compare_eq_iff_eq]

theorem get?_sweep (b : Bindings) (id : VariableId) :
    b.sweep.2.get? id = (b.get? id).filter (0 < ·.count) := by
  simp only [get?, sweep, Std.ExtTreeMap.getElem?_filter']

theorem mem_sweep_iff {b : Bindings} {id : VariableId} :
    id ∈ b.sweep.1 ↔ ∃ binding, b.get? id = some binding ∧ binding.count = 0 := by
  simp only [sweep, get?, Std.ExtTreeMap.mem_keys, Std.ExtTreeMap.mem_iff_isSome_getElem?,
    Std.ExtTreeMap.getElem?_filter']
  cases b.entries[id]? with
  | none => simp
  | some binding => simp [Option.filter]

end Bindings

end LiveQuery
