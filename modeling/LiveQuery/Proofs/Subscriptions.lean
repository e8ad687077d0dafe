import LiveQuery.Proofs.Announcements
import LiveQuery.Proofs.Followers

/-!
# Subscriptions

What the hubs of a switchboard do for those who subscribe, whatever is done at them in whatever order.
Each hub numbers its subscriptions one after the other and counts those that were made and not dropped.
An event on the hub reaches each of these once, in the order in which they were made, so a subscription
is told what is published between the moment when it is made and the moment when it is dropped, and this is
what can be read from its channel, also later.
-/

namespace LiveQuery

def Observer.isFollower : Observer → Bool
  | follower _ _ => true
  | _ => false

namespace Switchboard

/-- What can be done at the hubs of a switchboard. -/
inductive Action where
  | subscribe (hub : HubId) (observer : Observer)
  | openChannel (hub : HubId)
  | unsubscribe (subscription : Subscription)
  | publish (p : Publication)
  /-- Reads what is waiting in a channel. -/
  | drain (channel : Subscription)
  deriving DecidableEq

/-- The publication that is delivered, if one is. -/
def Action.publication? : Action → Option Publication
  | publish p => some p
  | _ => none

/-- What is published in the course of some actions. -/
def publications (xs : List Action) : List Publication := xs.filterMap (·.publication?)

/-- Who is told of an event by an action, and what it leaves. -/
def act (b : Switchboard) : Action → List Notice × Switchboard
  | .subscribe hub observer => ([], b.subscribe hub observer)
  | .openChannel hub => ([], b.openChannel hub)
  | .unsubscribe s => ([], b.unsubscribe s)
  | .publish p => b.deliver p
  | .drain channel => ([], b.drain channel)

def actAll (b : Switchboard) : List Action → List Notice × Switchboard
  | [] => ([], b)
  | x :: rest => ((b.act x).1 ++ ((b.act x).2.actAll rest).1, ((b.act x).2.actAll rest).2)

/-- How many observers subscribe to a hub in the course of an action. Followers do so on their own when
a child is announced. -/
def calls (b : Switchboard) (hub : HubId) : Action → Nat
  | .subscribe id _ => if id = hub then 1 else 0
  | .openChannel id => if id = hub then 1 else 0
  | .publish p =>
    if p.event.added?.map (·.hub) = some hub then
      (b.hub p.hub).registrations.countP (·.observer.isFollower)
    else 0
  | _ => 0

def callsAll (b : Switchboard) (hub : HubId) : List Action → Nat
  | [] => 0
  | x :: rest => b.calls hub x + (b.act x).2.callsAll hub rest

/-- What is read from a channel in the course of some actions. -/
def taken (b : Switchboard) (channel : Subscription) : List Action → List Event
  | [] => []
  | x :: rest =>
    (if x = .drain channel then b.waiting channel else []) ++ (b.act x).2.taken channel rest

/-- A subscription is made: nobody is registered under it before the action, and somebody is after it. -/
def Makes (b : Switchboard) (x : Action) (s : Subscription) : Prop :=
  ¬ b.Registered s ∧ (b.act x).2.Registered s

/-- What is done at hubs that nobody subscribed to before, and what it comes to. -/
structure Serves (xs : List Action) : Prop where
  /-- A hub numbers its subscriptions one after the other. -/
  numbered : ∀ before x after, xs = before ++ x :: after → ∀ s,
    (actAll {} before).2.Makes x s ↔
      callsAll {} s.hub before ≤ s.id ∧ s.id < callsAll {} s.hub (before ++ [x])
  /-- A new subscription comes after all that were ever registered on its hub. -/
  ascending : ∀ before x after, xs = before ++ x :: after → ∀ s, (actAll {} before).2.Makes x s →
    ∀ earlier later s', before = earlier ++ later → (actAll {} earlier).2.Registered s' →
      s'.hub = s.hub → s'.id < s.id
  /-- The subscriptions that were made and not dropped are counted, and an event on the hub reaches
  them in the order in which they were made. -/
  live : ∀ hub, ∃ ids : List Nat, ids.Pairwise (· < ·) ∧
    (∀ id, id ∈ ids ↔ ∃ before x after, xs = before ++ x :: after ∧
      (actAll {} before).2.Makes x ⟨hub, id⟩ ∧ .unsubscribe ⟨hub, id⟩ ∉ after) ∧
    ((actAll {} xs).2.hub hub).count = ids.length ∧
    ∀ event, ((actAll {} xs).2.deliver ⟨hub, event⟩).1.map (fun n => (n.subscription, n.event)) =
      ids.map fun id => (⟨hub, id⟩, event)
  /-- A subscription is told what is published on its hub from when it is made until it is dropped. -/
  heard : ∀ before x after, xs = before ++ x :: after → ∀ s, (actAll {} before).2.Makes x s →
    told s (actAll {} xs).1 =
      eventsOn s.hub (publications (after.takeWhile (· ≠ .unsubscribe s)))
  unheard : ∀ s, told s (actAll {} xs).1 ≠ [] → ∃ before x after, xs = before ++ x :: after ∧
    (actAll {} before).2.Makes x s
  /-- Whoever subscribes gets the subscription that is made, and is told of events under it. -/
  subscribed : ∀ before hub observer after, xs = before ++ .subscribe hub observer :: after →
    (∀ s, (actAll {} before).2.Makes (.subscribe hub observer) s ↔
      s = (actAll {} before).2.nextSubscription hub) ∧
    ∀ n ∈ (actAll {} xs).1, n.subscription = (actAll {} before).2.nextSubscription hub →
      n.observer = observer
  /-- So does whoever opens a channel, and reads from it what the subscription is told. -/
  opened : ∀ before hub after s, xs = before ++ .openChannel hub :: after →
    s = (actAll {} before).2.nextSubscription hub →
    (∀ s', (actAll {} before).2.Makes (.openChannel hub) s' ↔ s' = s) ∧
    ((actAll {} before).2.openChannel hub).taken s after ++ (actAll {} xs).2.waiting s =
      eventsOn hub (publications (after.takeWhile (· ≠ .unsubscribe s)))

/-- From `b` to `b'` observers are registered under all numbers that are given out, and none goes. -/
structure Enrols (b b' : Switchboard) : Prop extends Grown b b' where
  enrolled : ∀ s, ¬ b.Given s → b'.Given s → b'.Registered s

/-- The number of the subscription was given out, and nobody but `observer` can be registered under
it. -/
structure Assigned (b : Switchboard) (s : Subscription) (observer : Observer) : Prop where
  given : b.Given s
  eq_observer : ∀ r ∈ (b.hub s.hub).registrations, r.id = s.id → r.observer = observer

section

variable {b b' b'' : Switchboard} {x : Action} {xs : List Action} {s : Subscription} {hub : HubId}
  {observer : Observer} {q : List Event}

namespace Enrols

lemma of_hub_eq (h : ∀ id, b'.hub id = b.hub id) : Enrols b b' where
  toGrown := Grown.of_hub_eq h
  enrolled s hnot hgiven := by
    rw [Given, h] at hgiven
    exact absurd hgiven hnot

lemma trans (h : Enrols b b') (h' : Enrols b' b'') : Enrols b b'' where
  toGrown := h.toGrown.trans h'.toGrown
  enrolled s hnot hgiven := by
    by_cases hmid : b'.Given s
    · exact h'.toGrown.registered (h.enrolled s hnot hmid)
    · exact h'.enrolled s hmid hgiven

lemma registered_iff (h : Enrols b b') (ho : b'.Ordered) :
    b'.Registered s ↔ b.Registered s ∨ ¬ b.Given s ∧ b'.Given s := by
  constructor
  · intro hs
    by_cases hgiven : b.Given s
    · exact .inl (h.toOnward.registered hs hgiven)
    · exact .inr ⟨hgiven, ho.lt_of_registered hs⟩
  · rintro (hs | ⟨hnot, hgiven⟩)
    · exact h.toGrown.registered hs
    · exact h.enrolled s hnot hgiven

end Enrols

lemma enrols_subscribe (b : Switchboard) (hub : HubId) (observer : Observer) :
    Enrols b (b.subscribe hub observer) where
  toGrown := grown_subscribe b hub observer
  enrolled s hnot hgiven := by
    rw [Given, hub_subscribe] at hgiven
    rw [Registered, hub_subscribe]
    split at hgiven
    · next heq =>
      subst heq
      have hid : s.id = (b.hub s.hub).nextId :=
        Nat.le_antisymm (Nat.le_of_lt_succ hgiven) (Nat.le_of_not_lt hnot)
      exact ⟨_, by rw [if_pos rfl]; exact Hub.mem_subscribe.mpr (.inr rfl), hid.symm⟩
    · exact absurd hgiven hnot

lemma enrols_tell (event : Event) (id : HubId) (b : Switchboard) (r : Registration) :
    Enrols b (tell event id b r) := by
  unfold tell
  split
  · exact .of_hub_eq fun _ => rfl
  · next label origin child _ =>
    exact (enrols_subscribe b child.hub (.follower _ origin)).trans (.of_hub_eq fun _ => rfl)
  · exact .of_hub_eq fun _ => rfl

lemma enrols_deliver (b : Switchboard) (p : Publication) : Enrols b (b.deliver p).2 :=
  deliver_induction p (.of_hub_eq fun _ => rfl) fun b' h r _ => h.trans (enrols_tell p.event p.hub b' r)

/-! ### One action -/

lemma enrols_act (hx : ∀ s, x ≠ .unsubscribe s) : Enrols b (b.act x).2 := by
  cases x with
  | subscribe hub observer => exact enrols_subscribe b hub observer
  | openChannel hub => exact (enrols_subscribe b hub .forwarder).trans (.of_hub_eq fun _ => rfl)
  | unsubscribe s => exact absurd rfl (hx s)
  | publish p => exact enrols_deliver b p
  | drain channel => exact .of_hub_eq fun _ => rfl

lemma onward_act (b : Switchboard) (x : Action) : Onward b (b.act x).2 := by
  cases x with
  | unsubscribe s => exact onward_unsubscribe b s
  | _ => exact (enrols_act (by simp)).toOnward

lemma Ordered.act (h : b.Ordered) (x : Action) : (b.act x).2.Ordered := by
  cases x with
  | subscribe hub observer => exact h.subscribe hub observer
  | openChannel hub => exact h.subscribe hub .forwarder
  | unsubscribe s => exact h.unsubscribe s
  | publish p => exact h.deliver p
  | drain channel => exact h

lemma registered_unsubscribe (b : Switchboard) (s s' : Subscription) :
    (b.unsubscribe s').Registered s ↔ b.Registered s ∧ s' ≠ s := by
  simp only [Registered, hub_unsubscribe, ne_eq, Subscription.ext_iff]
  split
  · next heq =>
    simp only [Hub.mem_unsubscribe, heq, true_and]
    constructor
    · rintro ⟨r, ⟨hr, hne⟩, hid⟩
      exact ⟨⟨r, hr, hid⟩, fun h => hne (hid.trans h.symm)⟩
    · rintro ⟨⟨r, hr, hid⟩, hne⟩
      exact ⟨r, ⟨hr, fun h => hne (h.symm.trans hid)⟩, hid⟩
  · next hne => simp [hne]

lemma Ordered.registered_act (h : b.Ordered) (x : Action) (s : Subscription) :
    (b.act x).2.Registered s ↔
      b.Registered s ∧ x ≠ .unsubscribe s ∨ ¬ b.Given s ∧ (b.act x).2.Given s := by
  by_cases hx : ∃ s', x = .unsubscribe s'
  · obtain ⟨s', rfl⟩ := hx
    have hnone : ¬ (¬ b.Given s ∧ (b.unsubscribe s').Given s) := by
      rintro ⟨hnot, hgiven⟩
      rw [Given, hub_unsubscribe] at hgiven
      split at hgiven <;> exact hnot hgiven
    have hiff := registered_unsubscribe b s s'
    simpa [Switchboard.act, hnone] using hiff
  · have hne : ∀ s', x ≠ .unsubscribe s' := fun s' heq => hx ⟨s', heq⟩
    simpa [hne s] using (enrols_act hne).registered_iff (h.act x)

lemma Ordered.makes_iff (h : b.Ordered) :
    b.Makes x s ↔ ¬ b.Given s ∧ (b.act x).2.Given s := by
  constructor
  · rintro ⟨hnot, hs⟩
    exact ((h.registered_act x s).mp hs).resolve_left fun hs => hnot hs.1
  · rintro ⟨hnot, hgiven⟩
    exact ⟨fun hs => hnot (h.lt_of_registered hs), (h.registered_act x s).mpr (.inr ⟨hnot, hgiven⟩)⟩

lemma nextId_tell (event : Event) (id : HubId) (b : Switchboard) (r : Registration) (hub : HubId) :
    ((tell event id b r).hub hub).nextId = (b.hub hub).nextId +
      if event.added?.map (·.hub) = some hub ∧ r.observer.isFollower then 1 else 0 := by
  rcases r with ⟨i, label | ⟨label, origin⟩ | _⟩
  · simp [tell, Observer.isFollower]
  · cases event with
    | childAdded c =>
      have hhub := hub_subscribe b c.hub hub
        (.follower (label ++ "/" ++ toString c.id.index.toNat) origin)
      change ((b.subscribe c.hub _).hub hub).nextId = _
      rw [hhub]
      by_cases hc : c.hub = hub <;> simp [hc, Hub.subscribe, Event.added?, Observer.isFollower]
    | childRemoved c => simp [tell, Event.added?]
    | deleted => simp [tell, Event.added?]
  · change (b.hub hub).nextId = _
    simp [Observer.isFollower]

lemma nextId_deliver (b : Switchboard) (p : Publication) (hub : HubId) :
    ((b.deliver p).2.hub hub).nextId = (b.hub hub).nextId + b.calls hub (.publish p) := by
  simp only [deliver, calls]
  generalize (b.hub p.hub).registrations = rs
  induction rs generalizing b with
  | nil => simp
  | cons r rest ih =>
    rw [List.foldl_cons, ih, nextId_tell, List.countP_cons]
    by_cases hc : p.event.added?.map (·.hub) = some hub
    · simp only [hc, true_and, if_true]
      omega
    · simp [hc]

lemma nextId_act (b : Switchboard) (x : Action) (hub : HubId) :
    ((b.act x).2.hub hub).nextId = (b.hub hub).nextId + b.calls hub x := by
  have hsubscribe : ∀ id observer, ((b.subscribe id observer).hub hub).nextId =
      (b.hub hub).nextId + if id = hub then 1 else 0 := by
    intro id observer
    rw [hub_subscribe]
    split
    · next heq => rw [heq]; rfl
    · rfl
  cases x with
  | subscribe id observer => exact hsubscribe id observer
  | openChannel id => exact hsubscribe id .forwarder
  | unsubscribe s =>
    change ((b.unsubscribe s).hub hub).nextId = _
    rw [hub_unsubscribe]
    split <;> rfl
  | publish p => exact nextId_deliver b p hub
  | drain channel => rfl

lemma Ordered.told_act (h : b.Ordered) (x : Action) (s : Subscription) :
    told s (b.act x).1 = if b.Registered s then eventsOn s.hub (publications [x]) else [] := by
  cases x with
  | publish p =>
    change told s (b.deliver p).1 = if b.Registered s then eventsOn s.hub [p] else []
    rw [h.told_deliver, eventsOn_singleton]
    by_cases hs : b.Registered s <;> simp [hs]
  | _ => exact (ite_self _).symm

/-! ### Runs -/

lemma actAll_append (b : Switchboard) (xs ys : List Action) :
    b.actAll (xs ++ ys) = ((b.actAll xs).1 ++ ((b.actAll xs).2.actAll ys).1,
      ((b.actAll xs).2.actAll ys).2) := by
  induction xs generalizing b with
  | nil => rfl
  | cons x rest ih => simp [actAll, ih]

lemma Ordered.actAll (h : b.Ordered) (xs : List Action) : (b.actAll xs).2.Ordered := by
  induction xs generalizing b with
  | nil => exact h
  | cons x rest ih => exact ih (h.act x)

lemma onward_actAll (b : Switchboard) (xs : List Action) : Onward b (b.actAll xs).2 := by
  induction xs generalizing b with
  | nil => exact Onward.refl b
  | cons x rest ih => exact (onward_act b x).trans (ih _)

lemma nextId_actAll (b : Switchboard) (xs : List Action) (hub : HubId) :
    ((b.actAll xs).2.hub hub).nextId = (b.hub hub).nextId + b.callsAll hub xs := by
  induction xs generalizing b with
  | nil => rfl
  | cons x rest ih => rw [actAll, ih, nextId_act, callsAll, Nat.add_assoc]

/-- Who is registered in the end was there and has stayed, or was made on the way and has stayed since. -/
lemma Ordered.registered_actAll (h : b.Ordered) (xs : List Action) (s : Subscription) :
    (b.actAll xs).2.Registered s ↔ b.Registered s ∧ .unsubscribe s ∉ xs ∨
      ∃ before x after, xs = before ++ x :: after ∧ (b.actAll before).2.Makes x s ∧
        .unsubscribe s ∉ after := by
  induction xs generalizing b with
  | nil => simp [Switchboard.actAll]
  | cons x rest ih =>
    have hx := (h.registered_act x s).trans (or_congr_right h.makes_iff.symm)
    rw [Switchboard.actAll, ih (h.act x), hx]
    constructor
    · rintro (⟨⟨hs, hne⟩ | hmakes, hstays⟩ | ⟨before, y, after, rfl, hmakes, hstays⟩)
      · exact .inl ⟨hs, List.not_mem_cons_of_ne_of_not_mem hne.symm hstays⟩
      · exact .inr ⟨[], x, rest, rfl, hmakes, hstays⟩
      · exact .inr ⟨x :: before, y, after, rfl, hmakes, hstays⟩
    · rintro (⟨hs, hstays⟩ | ⟨_ | ⟨y, before⟩, z, after, heq, hmakes, hstays⟩)
      · have hne : x ≠ .unsubscribe s := fun heq => hstays (heq ▸ List.mem_cons_self)
        exact .inl ⟨.inl ⟨hs, hne⟩, fun hmem => hstays (List.mem_cons_of_mem _ hmem)⟩
      · obtain ⟨rfl, rfl⟩ := List.cons.inj heq
        exact .inl ⟨.inr hmakes, hstays⟩
      · obtain ⟨rfl, rfl⟩ := List.cons.inj heq
        exact .inr ⟨before, z, after, rfl, hmakes, hstays⟩

lemma Ordered.exists_makes (h : b.Ordered) (hnot : ¬ b.Given s) (hgiven : (b.actAll xs).2.Given s) :
    ∃ before x after, xs = before ++ x :: after ∧ (b.actAll before).2.Makes x s := by
  induction xs generalizing b with
  | nil => exact absurd hgiven hnot
  | cons x rest ih =>
    by_cases hx : (b.act x).2.Given s
    · exact ⟨[], x, rest, rfl, h.makes_iff.mpr ⟨hnot, hx⟩⟩
    · obtain ⟨before, y, after, rfl, hmakes⟩ := ih (h.act x) hx hgiven
      exact ⟨x :: before, y, after, rfl, hmakes⟩

lemma Ordered.told_actAll_eq_nil (h : b.Ordered) (hlate : ¬ (b.actAll xs).2.Given s) :
    told s (b.actAll xs).1 = [] := by
  induction xs generalizing b with
  | nil => rfl
  | cons x rest ih =>
    have hnot : ¬ b.Registered s := by
      intro hs
      have hgiven : b.Given s := h.lt_of_registered hs
      exact hlate (hgiven.onward (onward_actAll b (x :: rest)))
    rw [Switchboard.actAll, told_append, h.told_act, if_neg hnot, ih (h.act x) hlate, List.append_nil]

lemma Ordered.told_actAll_of_not_registered (h : b.Ordered) (hgiven : b.Given s)
    (hs : ¬ b.Registered s) (xs : List Action) : told s (b.actAll xs).1 = [] := by
  induction xs generalizing b with
  | nil => rfl
  | cons x rest ih =>
    have hnext : ¬ (b.act x).2.Registered s := fun hs' =>
      hs ((onward_act b x).registered hs' hgiven)
    rw [Switchboard.actAll, told_append, h.told_act, if_neg hs,
      ih (h.act x) (hgiven.onward (onward_act b x)) hnext, List.append_nil]

lemma Ordered.told_actAll (h : b.Ordered) (hs : b.Registered s) (xs : List Action) :
    told s (b.actAll xs).1 =
      eventsOn s.hub (publications (xs.takeWhile (· ≠ .unsubscribe s))) := by
  induction xs generalizing b with
  | nil => rfl
  | cons x rest ih =>
    have hgiven : b.Given s := h.lt_of_registered hs
    rw [Switchboard.actAll, told_append, h.told_act, if_pos hs]
    by_cases hx : x = .unsubscribe s
    · have hnext : ¬ (b.act x).2.Registered s := by
        rw [hx]
        exact fun hs' => ((registered_unsubscribe b s s).mp hs').2 rfl
      rw [(h.act x).told_actAll_of_not_registered (hgiven.onward (onward_act b x)) hnext, hx,
        List.takeWhile_cons_of_neg (by simp)]
      rfl
    · have hnext := (h.registered_act x s).mpr (.inl ⟨hs, hx⟩)
      rw [ih (h.act x) hnext, List.takeWhile_cons_of_pos (by simpa using hx), ← eventsOn_append,
        publications, publications, publications, ← List.filterMap_append]
      rfl

/-! ### Channels -/

namespace Assigned

lemma onward (h : b.Assigned s observer) (ho : Onward b b') : b'.Assigned s observer where
  given := h.given.onward ho
  eq_observer r hr hid := h.eq_observer r (h.given.mem_of_onward ho hr hid) hid

lemma eq_of_mem_act (h : b.Assigned s observer) {n : Notice} (hn : n ∈ (b.act x).1)
    (hs : n.subscription = s) : n.observer = observer := by
  cases x with
  | publish p =>
    obtain ⟨r, hr, rfl⟩ := List.mem_map.mp hn
    subst hs
    exact h.eq_observer r hr rfl
  | _ => exact absurd hn List.not_mem_nil

lemma eq_of_mem_actAll (h : b.Assigned s observer) {n : Notice} (hn : n ∈ (b.actAll xs).1)
    (hs : n.subscription = s) : n.observer = observer := by
  induction xs generalizing b with
  | nil => exact absurd hn List.not_mem_nil
  | cons x rest ih =>
    rcases List.mem_append.mp hn with hn | hn
    · exact h.eq_of_mem_act hn hs
    · exact ih (h.onward (onward_act b x)) hn

end Assigned

lemma Ordered.assigned_subscribe (h : b.Ordered) (hub : HubId) (observer : Observer) :
    (b.subscribe hub observer).Assigned (b.nextSubscription hub) observer where
  given := given_subscribe b hub observer
  eq_observer _ hr hid := h.observer_subscribe hr hid

lemma queues_tell {event : Event} {id : HubId} {r : Registration}
    (hr : (⟨id, r.id⟩ : Subscription) = s → r.observer = .forwarder) :
    (tell event id b r).queues[s]? =
      b.queues[s]?.map (· ++ if (⟨id, r.id⟩ : Subscription) = s then [event] else []) := by
  by_cases heq : (⟨id, r.id⟩ : Subscription) = s
  · have hforwarder := hr heq
    subst heq
    simp only [tell, hforwarder, if_true]
    exact Std.ExtTreeMap.getElem?_modify_self
  · rw [if_neg heq]
    have hsame : (tell event id b r).queues[s]? = b.queues[s]? := by
      unfold tell
      split
      · exact (Std.ExtTreeMap.getElem?_modify).trans
          (if_neg fun hc => heq (Std.LawfulEqCmp.eq_of_compare hc))
      · rfl
      · rfl
    rw [hsame]
    cases b.queues[s]? <;> simp

lemma queues_deliver (p : Publication)
    (h : ∀ r ∈ (b.hub s.hub).registrations, r.id = s.id → r.observer = .forwarder) :
    (b.deliver p).2.queues[s]? = b.queues[s]?.map (· ++ told s (b.deliver p).1) := by
  have hrs : ∀ r ∈ (b.hub p.hub).registrations, (⟨p.hub, r.id⟩ : Subscription) = s →
      r.observer = .forwarder := by
    rintro r hr rfl
    exact h r hr rfl
  unfold deliver
  revert hrs
  generalize (b.hub p.hub).registrations = rs
  clear h
  intro hrs
  dsimp only
  induction rs generalizing b with
  | nil =>
    simp
  | cons r rest ih =>
    have htold : ∀ ns : List Notice, told s (⟨⟨p.hub, r.id⟩, r.observer, p.event⟩ :: ns) =
        (if (⟨p.hub, r.id⟩ : Subscription) = s then [p.event] else []) ++ told s ns := by
      intro ns
      by_cases heq : (⟨p.hub, r.id⟩ : Subscription) = s <;> simp [told, heq]
    rw [List.foldl_cons, ih fun r' hr' => hrs r' (List.mem_cons_of_mem _ hr'),
      queues_tell (hrs r List.mem_cons_self), List.map_cons, htold, Option.map_map]
    simp [Function.comp_def]

lemma Assigned.queues_act (h : b.Assigned s .forwarder) (hq : b.queues[s]? = some q) (x : Action) :
    (b.act x).2.queues[s]? = some (if x = .drain s then [] else q ++ told s (b.act x).1) := by
  cases x with
  | subscribe hub observer => simpa [act, subscribe] using hq
  | openChannel hub =>
    have hne : ¬ compare (b.nextSubscription hub) s = .eq := by
      intro heq
      obtain rfl := Std.LawfulEqCmp.eq_of_compare heq
      exact Nat.lt_irrefl _ h.given
    simp only [act, openChannel, Std.ExtTreeMap.getElem?_insert, if_neg hne]
    simpa [subscribe] using hq
  | unsubscribe s' => simpa [act, unsubscribe] using hq
  | publish p => simp [act, queues_deliver p h.eq_observer, hq]
  | drain channel =>
    simp only [act, drain, Std.ExtTreeMap.getElem?_modify, Std.compare_eq_iff_eq]
    by_cases heq : channel = s
    · simp [heq, hq]
    · simp [heq, hq]

/-- What was taken out of a channel and what is still waiting is, in order, what was waiting and what its
observer was told. -/
lemma Assigned.taken_append_waiting (h : b.Assigned s .forwarder) (hq : b.queues[s]? = some q)
    (xs : List Action) :
    b.taken s xs ++ (b.actAll xs).2.waiting s = q ++ told s (b.actAll xs).1 := by
  induction xs generalizing b q with
  | nil => simp [taken, actAll, waiting, Std.ExtTreeMap.getD_eq_getD_getElem?, hq]
  | cons x rest ih =>
    have hrest := ih (h.onward (onward_act b x)) (h.queues_act hq x)
    rw [taken, actAll, List.append_assoc, hrest, told_append]
    by_cases hx : x = .drain s
    · subst hx
      have hwaiting : b.waiting s = q := by
        simp [waiting, Std.ExtTreeMap.getD_eq_getD_getElem?, hq]
      simp [act, hwaiting]
    · simp [hx]

/-! ### From the start -/

lemma ordered_empty : ({} : Switchboard).Ordered := (Sound.empty 0).ordered

lemma ordered_run (xs : List Action) : (actAll {} xs).2.Ordered := ordered_empty.actAll xs

lemma not_given_empty (s : Subscription) : ¬ ({} : Switchboard).Given s := Nat.not_lt_zero _

lemma given_run_iff (xs : List Action) (s : Subscription) :
    (actAll {} xs).2.Given s ↔ s.id < callsAll {} s.hub xs := by
  rw [Given, nextId_actAll]
  exact iff_of_eq (congrArg (s.id < ·) (Nat.zero_add _))

lemma actAll_concat (b : Switchboard) (xs : List Action) (x : Action) :
    (b.actAll (xs ++ [x])).2 = ((b.actAll xs).2.act x).2 := by
  rw [actAll_append]
  rfl

lemma makes_run_iff (before : List Action) (x : Action) (s : Subscription) :
    (actAll {} before).2.Makes x s ↔
      callsAll {} s.hub before ≤ s.id ∧ s.id < callsAll {} s.hub (before ++ [x]) := by
  rw [(ordered_run before).makes_iff, ← actAll_concat, given_run_iff, given_run_iff, Nat.not_lt]

lemma Ordered.makes_next (h : b.Ordered) (hhub : ∀ id, (b.act x).2.hub id =
      if hub = id then (b.hub hub).subscribe observer else b.hub id) :
    b.Makes x s ↔ s = b.nextSubscription hub := by
  rw [h.makes_iff, Given, Given, hhub, Subscription.ext_iff]
  by_cases heq : hub = s.hub
  · subst heq
    simp only [if_true, Hub.subscribe, nextSubscription, true_and]
    omega
  · rw [if_neg heq]
    exact iff_of_false (fun hs => hs.1 hs.2) fun hs => heq hs.1.symm

lemma not_mem_of_told_eq_nil {ns : List Notice} (h : told s ns = []) {n : Notice} (hn : n ∈ ns) :
    n.subscription ≠ s := by
  intro heq
  have hmem : n.event ∈ told s ns := List.mem_filterMap.mpr ⟨n, hn, by rw [if_pos heq]⟩
  rw [h] at hmem
  cases hmem

lemma Ordered.told_before (h : b.Ordered) {before : List Action}
    (hmakes : (b.actAll before).2.Makes x s) :
    told s (b.actAll (before ++ [x])).1 = [] := by
  have hnot := ((h.actAll before).makes_iff.mp hmakes).1
  rw [actAll_append, told_append, h.told_actAll_eq_nil hnot]
  change told s (((b.actAll before).2.act x).1 ++ []) = []
  rw [List.append_nil, (h.actAll before).told_act, if_neg hmakes.1]

lemma actAll_cut (b : Switchboard) (before after : List Action) (x : Action) :
    b.actAll (before ++ x :: after) = ((b.actAll (before ++ [x])).1 ++
      (((b.actAll before).2.act x).2.actAll after).1, (((b.actAll before).2.act x).2.actAll after).2) := by
  rw [List.append_cons, actAll_append, actAll_concat]

lemma observer_run {before after : List Action} (hmakes : (actAll {} before).2.Makes x s)
    (hassigned : ((actAll {} before).2.act x).2.Assigned s observer) {n : Notice}
    (hn : n ∈ (actAll {} (before ++ x :: after)).1) (hs : n.subscription = s) :
    n.observer = observer := by
  rw [actAll_cut] at hn
  rcases List.mem_append.mp hn with hn | hn
  · exact absurd hs (not_mem_of_told_eq_nil (ordered_empty.told_before hmakes) hn)
  · exact hassigned.eq_of_mem_actAll hn hs

lemma registered_run_iff (xs : List Action) (s : Subscription) :
    (actAll {} xs).2.Registered s ↔ ∃ before x after, xs = before ++ x :: after ∧
      (actAll {} before).2.Makes x s ∧ .unsubscribe s ∉ after := by
  have hnone : ¬ ({} : Switchboard).Registered s := fun hs =>
    not_given_empty s (ordered_empty.lt_of_registered hs)
  exact (ordered_empty.registered_actAll xs s).trans (or_iff_right fun hs => hnone hs.1)

lemma lt_of_makes {s' : Subscription} {earlier later : List Action}
    (hmakes : (actAll {} (earlier ++ later)).2.Makes x s) (hs' : (actAll {} earlier).2.Registered s')
    (hhub : s'.hub = s.hub) : s'.id < s.id := by
  have hgiven : (actAll {} earlier).2.Given s' := (ordered_run earlier).lt_of_registered hs'
  have hnot := ((ordered_run (earlier ++ later)).makes_iff.mp hmakes).1
  rw [actAll_append] at hnot
  have hlater := hgiven.onward (onward_actAll _ later)
  rw [Given, hhub] at hlater
  exact Nat.lt_of_lt_of_le hlater (Nat.not_lt.mp hnot)

lemma told_run {before after : List Action} (hmakes : (actAll {} before).2.Makes x s) :
    told s (actAll {} (before ++ x :: after)).1 =
      eventsOn s.hub (publications (after.takeWhile (· ≠ .unsubscribe s))) := by
  rw [actAll_cut, told_append, ordered_empty.told_before hmakes, List.nil_append]
  exact ((ordered_run before).act x).told_actAll hmakes.2 after

lemma makes_openChannel_iff (before : List Action) (hub : HubId) (s : Subscription) :
    (actAll {} before).2.Makes (.openChannel hub) s ↔
      s = (actAll {} before).2.nextSubscription hub :=
  (ordered_run before).makes_next fun id => hub_subscribe _ hub id .forwarder

lemma taken_run (before : List Action) (hub : HubId) (after : List Action)
    (hs : s = (actAll {} before).2.nextSubscription hub) :
    ((actAll {} before).2.openChannel hub).taken s after ++
        (actAll {} (before ++ .openChannel hub :: after)).2.waiting s =
      told s (actAll {} (before ++ .openChannel hub :: after)).1 := by
  have hassigned : ((actAll {} before).2.openChannel hub).Assigned s .forwarder :=
    hs ▸ ((ordered_run before).assigned_subscribe hub .forwarder).onward (Onward.of_hub_eq fun _ => rfl)
  have hopen : ((actAll {} before).2.openChannel hub).queues[s]? = some [] := by
    rw [hs]
    exact Std.ExtTreeMap.getElem?_insert_self
  have hmakes := (makes_openChannel_iff before hub s).mpr hs
  rw [actAll_cut, told_append, ordered_empty.told_before hmakes]
  exact hassigned.taken_append_waiting hopen after

end

/-- What a hub does for its observers, whatever is done at it and at others, and in whatever order. -/
theorem subscriptions_served (xs : List Action) : Serves xs where
  numbered before x after _ s := makes_run_iff before x s
  ascending before x after _ s hmakes earlier later s' hbefore hs' hhub :=
    lt_of_makes (hbefore ▸ hmakes) hs' hhub
  live hub := by
    refine ⟨((actAll {} xs).2.hub hub).registrations.map (·.id),
      List.pairwise_map.mpr (ordered_run xs hub).ascending, fun id => ?_, (List.length_map _).symm,
      fun event => by simp [deliver]⟩
    rw [List.mem_map]
    exact registered_run_iff xs ⟨hub, id⟩
  heard before x after hxs s hmakes := hxs ▸ told_run hmakes
  unheard s hs := by
    refine ordered_empty.exists_makes (not_given_empty s) ?_
    by_contra hlate
    exact hs (ordered_empty.told_actAll_eq_nil hlate)
  subscribed before hub observer after hxs := by
    have ho := ordered_run before
    have hmakes : ∀ s, (actAll {} before).2.Makes (.subscribe hub observer) s ↔
        s = (actAll {} before).2.nextSubscription hub := fun s =>
      ho.makes_next fun id => hub_subscribe _ hub id observer
    refine ⟨hmakes, fun n hn hs => ?_⟩
    rw [hxs] at hn
    exact observer_run ((hmakes _).mpr rfl) (ho.assigned_subscribe hub observer) hn hs
  opened before hub after s hxs hs := by
    have hmakes := makes_openChannel_iff before hub
    refine ⟨hs ▸ hmakes, ?_⟩
    rw [hxs, taken_run before hub after hs, told_run ((hmakes s).mpr hs), hs]
    rfl

example : taken {} ⟨⟨0, .root⟩, 0⟩ [.openChannel ⟨0, .root⟩, .publish ⟨⟨0, .root⟩, .deleted⟩,
    .unsubscribe ⟨⟨0, .root⟩, 0⟩, .publish ⟨⟨0, .root⟩, .deleted⟩, .drain ⟨⟨0, .root⟩, 0⟩] =
      [.deleted] := by
  cbv

end Switchboard

end LiveQuery
