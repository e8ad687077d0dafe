import LiveQuery.Hub.Basic

/-!
# The switchboard

All hubs of a tree with their observers, the queues of the open channels, and what the followers
attached. Publications are delivered one after the other, each to the observers that are
registered on its hub at that moment, in the order in which they subscribed.
-/

namespace LiveQuery

/-- `hubs` has an entry for each hub that was subscribed to, `queues` for each channel that is
open, and `attachments` for each follower at the head of its kind. -/
@[ext]
structure Switchboard where
  hubs : Std.ExtTreeMap HubId Hub := ∅
  queues : Std.ExtTreeMap Subscription (List Event) := ∅
  attachments : Std.ExtTreeMap Subscription (List Subscription) := ∅

/-- An observer told of an event. -/
structure Notice where
  subscription : Subscription
  observer : Observer
  event : Event
  deriving DecidableEq, Inhabited

namespace Switchboard

instance : Inhabited Switchboard := ⟨{}⟩

/-- A hub nobody subscribed to yet has no observers. -/
def hub (b : Switchboard) (id : HubId) : Hub := b.hubs.getD id {}

theorem hub_insert (b : Switchboard) (id other : HubId) (h : Hub) :
    ({ b with hubs := b.hubs.insert id h } : Switchboard).hub other =
      if id = other then h else b.hub other := by
  simp only [hub, Std.ExtTreeMap.getD_insert, Std.compare_eq_iff_eq]

/-- The subscription that the next observer of a hub gets. -/
def nextSubscription (b : Switchboard) (id : HubId) : Subscription := ⟨id, (b.hub id).nextId⟩

/-- Registers an observer under the next subscription of the hub. -/
def subscribe (b : Switchboard) (id : HubId) (observer : Observer) : Switchboard :=
  { b with hubs := b.hubs.insert id ((b.hub id).subscribe observer) }

/-- Registers an observer that follows added children, with nothing attached yet. -/
def follow (b : Switchboard) (id : HubId) (label : String) : Switchboard :=
  let origin := b.nextSubscription id
  let b := b.subscribe id (.follower label origin)
  { b with attachments := b.attachments.insert origin [] }

/-- Registers an observer for `origin` on the hub of a child that was added. -/
def attach (b : Switchboard) (origin : Subscription) (label : String) (id : HubId) : Switchboard :=
  let attached := b.nextSubscription id
  let b := b.subscribe id (.follower label origin)
  { b with attachments := b.attachments.modify origin (· ++ [attached]) }

/-- Registers an observer that forwards to a channel, and opens the channel. -/
def openChannel (b : Switchboard) (id : HubId) : Switchboard :=
  let channel := b.nextSubscription id
  let b := b.subscribe id .forwarder
  { b with queues := b.queues.insert channel [] }

/-- Takes an observer off its hub. -/
def unsubscribe (b : Switchboard) (s : Subscription) : Switchboard :=
  { b with hubs := b.hubs.modify s.hub (·.unsubscribe s.id) }

theorem hub_subscribe (b : Switchboard) (id other : HubId) (observer : Observer) :
    (b.subscribe id observer).hub other =
      if id = other then (b.hub id).subscribe observer else b.hub other :=
  b.hub_insert id other _

theorem hub_unsubscribe (b : Switchboard) (s : Subscription) (other : HubId) :
    (b.unsubscribe s).hub other =
      if s.hub = other then (b.hub other).unsubscribe s.id else b.hub other := by
  simp only [hub, unsubscribe, Std.ExtTreeMap.getD_eq_getD_getElem?, Std.ExtTreeMap.getElem?_modify,
    Std.compare_eq_iff_eq]
  split
  · next h => subst h; cases b.hubs[s.hub]? <;> rfl
  · rfl

/-- What is attached to a subscription. -/
def attached (b : Switchboard) (s : Subscription) : List Subscription := b.attachments.getD s []

/-- Takes an observer off its hub, and with it all that it attached. -/
def dismiss (b : Switchboard) (s : Subscription) : Switchboard :=
  let b := (s :: b.attached s).foldl unsubscribe b
  { b with attachments := b.attachments.erase s }

/-- The events waiting in a channel. -/
def waiting (b : Switchboard) (channel : Subscription) : List Event := b.queues.getD channel []

/-- Takes all waiting events out of a channel, which stays open. -/
def drain (b : Switchboard) (channel : Subscription) : Switchboard :=
  { b with queues := b.queues.modify channel fun _ => [] }

/-- Closes a channel. Its observer stays where it is and forwards to nobody. -/
def closeChannel (b : Switchboard) (channel : Subscription) : Switchboard :=
  { b with queues := b.queues.erase channel }

/-- What happens when a registered observer is told of an event. -/
def tell (event : Event) (id : HubId) (b : Switchboard) (r : Registration) : Switchboard :=
  match r.observer, event with
  | .forwarder, _ => { b with queues := b.queues.modify ⟨id, r.id⟩ (· ++ [event]) }
  | .follower label origin, .childAdded child =>
    b.attach origin (label ++ "/" ++ toString child.id.index.toNat) child.hub
  | _, _ => b

/-- Tells the observers of one hub of an event. -/
def deliver (b : Switchboard) (p : Publication) : List Notice × Switchboard :=
  let registrations := (b.hub p.hub).registrations
  (registrations.map fun r => ⟨⟨p.hub, r.id⟩, r.observer, p.event⟩,
    registrations.foldl (tell p.event p.hub) b)

/-- Delivers publications in order. -/
def deliverAll (b : Switchboard) : List Publication → List Notice × Switchboard
  | [] => ([], b)
  | p :: rest =>
    let (told, b) := b.deliver p
    let (later, b) := b.deliverAll rest
    (told ++ later, b)

end Switchboard

end LiveQuery
