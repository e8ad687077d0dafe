import LiveQuery.Id
import LiveQuery.Json

/-!
# Ids on the wire

Ids are written as plain numbers.
-/

namespace LiveQuery

def NodeId.encode (id : NodeId) : Json := .int id.index.toNat

/-- Reads a whole number that fits into 32 bits. -/
def NodeId.decode? (j : Json) : Option NodeId :=
  (j.natBelow? UInt32.size).map fun n => ⟨.ofNat n⟩

theorem NodeId.decode?_encode (id : NodeId) : decode? id.encode = some id := by
  have h : id.index.toNat < UInt32.size := id.index.toNat_lt_size
  simp [decode?, encode, Json.natBelow?_eq_some_iff.2 ⟨rfl, h⟩]

def VariableId.encode (id : VariableId) : Json := .int id.index.toNat

/-- Reads a whole number that fits into 32 bits. -/
def VariableId.decode? (j : Json) : Option VariableId :=
  (j.natBelow? UInt32.size).map fun n => ⟨.ofNat n⟩

theorem VariableId.decode?_encode (id : VariableId) : decode? id.encode = some id := by
  have h : id.index.toNat < UInt32.size := id.index.toNat_lt_size
  simp [decode?, encode, Json.natBelow?_eq_some_iff.2 ⟨rfl, h⟩]

end LiveQuery
