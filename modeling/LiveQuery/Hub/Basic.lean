import LiveQuery.Hub.Event

/-!
# Observers of one hub

A hub numbers its subscriptions in the order in which they are made and never uses a number twice.
Whoever subscribed holds the number and can take the observer off the hub again.
-/

namespace LiveQuery

/-- A registered observer as its owner holds it: the hub, and the number it has there. -/
@[ext]
structure Subscription where
  hub : HubId
  id : Nat
  deriving DecidableEq, Inhabited

namespace Subscription

instance : Ord Subscription := ⟨compareLex (compareOn hub) (compareOn id)⟩

instance : Std.TransOrd Subscription :=
  inferInstanceAs (Std.TransCmp (compareLex (compareOn hub) (compareOn id)))

theorem compare_eq_iff {a b : Subscription} : compare a b = .eq ↔ a.hub = b.hub ∧ a.id = b.id := by
  change (compare a.hub b.hub).then (compare a.id b.id) = .eq ↔ _
  rw [Ordering.then_eq_eq, Std.compare_eq_iff_eq, Std.compare_eq_iff_eq]

instance : Std.LawfulEqOrd Subscription where
  compare_self := Std.ReflOrd.compare_self
  eq_of_compare h := Subscription.ext (compare_eq_iff.1 h).1 (compare_eq_iff.1 h).2

end Subscription

/-- What an observer does with an event. It is assumed to reach neither the tree nor the bindings,
and no hub but that of the child the event announces. -/
inductive Observer where
  /-- Records it under a label. -/
  | recorder (label : String)
  /-- Records it, and has a like observer follow every child it is told was added. All that
  follow belong to the subscription `origin`. -/
  | follower (label : String) (origin : Subscription)
  /-- Puts it into the queue of a channel. -/
  | forwarder
  deriving DecidableEq, Inhabited

/-- The label under which an observer records events, if it does. -/
def Observer.label? : Observer → Option String
  | recorder label => some label
  | follower label _ => some label
  | forwarder => none

structure Registration where
  id : Nat
  observer : Observer
  deriving DecidableEq, Inhabited

/-- The observers of one hub, in the order in which they subscribed. -/
@[ext]
structure Hub where
  nextId : Nat := 0
  registrations : List Registration := []
  deriving DecidableEq, Inhabited

namespace Hub

def subscribe (h : Hub) (observer : Observer) : Hub where
  nextId := h.nextId + 1
  registrations := h.registrations ++ [⟨h.nextId, observer⟩]

def unsubscribe (h : Hub) (id : Nat) : Hub :=
  { h with registrations := h.registrations.filter (·.id ≠ id) }

/-- The number of observers that are registered. -/
def count (h : Hub) : Nat := h.registrations.length

theorem mem_subscribe {h : Hub} {observer : Observer} {r : Registration} :
    r ∈ (h.subscribe observer).registrations ↔ r ∈ h.registrations ∨ r = ⟨h.nextId, observer⟩ := by
  simp [subscribe]

theorem mem_unsubscribe {h : Hub} {id : Nat} {r : Registration} :
    r ∈ (h.unsubscribe id).registrations ↔ r ∈ h.registrations ∧ r.id ≠ id := by
  simp [unsubscribe]

end Hub

end LiveQuery
