import LiveQuery.Id

/-!
# Hubs and events

Every node comes with a hub of its own, on which what happens to the node is published: that a
child was added, that a child was removed, and that the node itself is going away.
-/

namespace LiveQuery

/-- The identity of a hub. Serial numbers are never used twice in one tree, while a node id can
come back on a new node and then names another hub. -/
@[ext]
structure HubId where
  serial : Nat
  node : NodeId
  deriving DecidableEq, Inhabited

namespace HubId

instance : Ord HubId := ⟨compareLex (compareOn serial) (compareOn node)⟩

instance : Std.TransOrd HubId :=
  inferInstanceAs (Std.TransCmp (compareLex (compareOn serial) (compareOn node)))

theorem compare_eq_iff {a b : HubId} : compare a b = .eq ↔ a.serial = b.serial ∧ a.node = b.node := by
  change (compare a.serial b.serial).then (compare a.node b.node) = .eq ↔ _
  rw [Ordering.then_eq_eq, Std.compare_eq_iff_eq, Std.compare_eq_iff_eq]

instance : Std.LawfulEqOrd HubId where
  compare_self := Std.ReflOrd.compare_self
  eq_of_compare h := HubId.ext (compare_eq_iff.1 h).1 (compare_eq_iff.1 h).2

end HubId

/-- What an event tells about a child: its id, the field it selects, and its own hub, so that an
observer can go on from there without the tree. -/
structure Child where
  id : NodeId
  field : String
  hub : HubId
  deriving DecidableEq, Inhabited

inductive Event where
  | childAdded (child : Child)
  | childRemoved (child : Child)
  | deleted
  deriving DecidableEq, Inhabited

/-- The child an event is about, if it is about one. -/
def Event.child? : Event → Option Child
  | childAdded child => some child
  | childRemoved child => some child
  | deleted => none

/-- An event on the hub where it is published. -/
structure Publication where
  hub : HubId
  event : Event
  deriving DecidableEq, Inhabited

end LiveQuery
