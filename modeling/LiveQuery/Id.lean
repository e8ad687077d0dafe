import Std.Data.ExtTreeMap
import Std.Data.TreeMap

/-!
# Identifiers

Node and variable ids are 32-bit numbers chosen by the client. Both are ordered by their number,
and the order is lawful, so ids can be keys of extensional maps.
-/

namespace LiveQuery

/-- The id of a node, unique among the live nodes of one tree. -/
@[ext]
structure NodeId where
  index : UInt32
  deriving DecidableEq

namespace NodeId

/-- The id of the root of every tree. -/
def root : NodeId := ⟨0⟩

def isRoot (id : NodeId) : Bool := id = root

instance : Inhabited NodeId := ⟨root⟩

instance : ToString NodeId := ⟨fun id => "#" ++ toString id.index.toNat⟩

instance : Ord NodeId := ⟨compareOn NodeId.index⟩

instance : Std.TransOrd NodeId := inferInstanceAs (Std.TransCmp (compareOn NodeId.index))

instance : Std.LawfulEqOrd NodeId where
  compare_self := Std.ReflOrd.compare_self
  eq_of_compare {a b} h := NodeId.ext (Std.LawfulEqOrd.eq_of_compare (show compare a.index b.index = .eq from h))

@[simp] theorem isRoot_iff {id : NodeId} : id.isRoot = true ↔ id = root := by
  simp [isRoot]

end NodeId

/-- The id of a variable binding. -/
@[ext]
structure VariableId where
  index : UInt32
  deriving DecidableEq

namespace VariableId

instance : ToString VariableId := ⟨fun id => "$" ++ toString id.index.toNat⟩

instance : Ord VariableId := ⟨compareOn VariableId.index⟩

instance : Std.TransOrd VariableId := inferInstanceAs (Std.TransCmp (compareOn VariableId.index))

instance : Std.LawfulEqOrd VariableId where
  compare_self := Std.ReflOrd.compare_self
  eq_of_compare {a b} h := VariableId.ext (Std.LawfulEqOrd.eq_of_compare (show compare a.index b.index = .eq from h))

end VariableId

end LiveQuery
