import LiveQuery.Hub.Switchboard
import LiveQuery.Proofs.Mirror

/-!
# Delivery

What reaches an observer. A registered observer is told of every event on its hub, once each and in
order, and stays registered, while observers that are attached meanwhile get numbers that no other
had before. Where nobody is registered nothing happens at all.
-/

namespace LiveQuery

/-- The events an observer was told, in order. -/
def told (s : Subscription) (notices : List Notice) : List Event :=
  notices.filterMap fun n => if n.subscription = s then some n.event else none

@[simp] lemma told_nil (s : Subscription) : told s [] = [] := rfl

lemma told_append (s : Subscription) (ns later : List Notice) :
    told s (ns ++ later) = told s ns ++ told s later := by
  simp [told]

/-- The numbers ascend, and the next one is greater than all of them. -/
structure Hub.Ordered (h : Hub) : Prop where
  ascending : h.registrations.Pairwise fun r r' => r.id < r'.id
  lt : ∀ r ∈ h.registrations, r.id < h.nextId

namespace Hub.Ordered

variable {h : Hub}

lemma nodup (ho : h.Ordered) : (h.registrations.map (·.id)).Nodup :=
  List.pairwise_map.mpr (ho.ascending.imp Nat.ne_of_lt)

lemma subscribe (ho : h.Ordered) (observer : Observer) : (h.subscribe observer).Ordered where
  ascending := by
    refine List.pairwise_append.mpr ⟨ho.ascending, List.pairwise_singleton _ _, ?_⟩
    intro r hr r' hr'
    obtain rfl := List.mem_singleton.mp hr'
    exact ho.lt r hr
  lt r hr := by
    obtain hr | rfl := mem_subscribe.mp hr
    · exact Nat.lt_succ_of_lt (ho.lt r hr)
    · exact Nat.lt_succ_self _

lemma unsubscribe (ho : h.Ordered) (id : Nat) : (h.unsubscribe id).Ordered where
  ascending := ho.ascending.sublist List.filter_sublist
  lt r hr := ho.lt r (mem_unsubscribe.mp hr).1

lemma filterMap_eq (ho : h.Ordered) (id : Nat) (event : Event) :
    h.registrations.filterMap (fun r => if r.id = id then some event else none) =
      if ∃ r ∈ h.registrations, r.id = id then [event] else [] := by
  have hnodup := ho.nodup
  revert hnodup
  generalize h.registrations = rs
  intro hnodup
  induction rs with
  | nil => simp
  | cons r rest ih =>
    obtain ⟨hr, hrest⟩ := List.nodup_cons.mp hnodup
    by_cases hid : r.id = id
    · have hnone : ¬ ∃ r' ∈ rest, r'.id = id := by
        rintro ⟨r', hr', hid'⟩
        exact hr (List.mem_map.mpr ⟨r', hr', hid'.trans hid.symm⟩)
      simp [hid, ih hrest, hnone]
    · simp [hid, ih hrest]

end Hub.Ordered

namespace Switchboard

def Ordered (b : Switchboard) : Prop := ∀ id, (b.hub id).Ordered

/-- Somebody is registered under a subscription. -/
def Registered (b : Switchboard) (s : Subscription) : Prop :=
  ∃ r ∈ (b.hub s.hub).registrations, r.id = s.id

instance (b : Switchboard) (s : Subscription) : Decidable (b.Registered s) :=
  inferInstanceAs (Decidable (∃ r ∈ (b.hub s.hub).registrations, r.id = s.id))

/-- The numbers that `b` has given out are not given out again. -/
structure Onward (b b' : Switchboard) : Prop where
  nextId_le : ∀ id, (b.hub id).nextId ≤ (b'.hub id).nextId
  fresh : ∀ id, ∀ r ∈ (b'.hub id).registrations,
    r ∈ (b.hub id).registrations ∨ (b.hub id).nextId ≤ r.id

/-- All observers of `b` are still there. -/
structure Grown (b b' : Switchboard) : Prop extends Onward b b' where
  kept : ∀ id, ∀ r ∈ (b.hub id).registrations, r ∈ (b'.hub id).registrations

section

variable {b b' b'' : Switchboard} {s : Subscription} {ps qs : List Publication}

lemma Ordered.lt_of_registered (h : b.Ordered) (hs : b.Registered s) :
    s.id < (b.hub s.hub).nextId := by
  obtain ⟨r, hr, hid⟩ := hs
  exact hid ▸ (h s.hub).lt r hr

namespace Onward

lemma of_hub_eq (h : ∀ id, b'.hub id = b.hub id) : Onward b b' where
  nextId_le id := Nat.le_of_eq (by rw [h id])
  fresh id r hr := by
    rw [h id] at hr
    exact .inl hr

lemma refl (b : Switchboard) : Onward b b := of_hub_eq fun _ => rfl

lemma trans (h : Onward b b') (h' : Onward b' b'') : Onward b b'' where
  nextId_le id := Nat.le_trans (h.nextId_le id) (h'.nextId_le id)
  fresh id r hr := by
    rcases h'.fresh id r hr with hr | hr
    · exact h.fresh id r hr
    · exact .inr (Nat.le_trans (h.nextId_le id) hr)

lemma registered (h : Onward b b') (hs : b'.Registered s) (hlt : s.id < (b.hub s.hub).nextId) :
    b.Registered s := by
  obtain ⟨r, hr, hid⟩ := hs
  rcases h.fresh s.hub r hr with hr | hr
  · exact ⟨r, hr, hid⟩
  · omega

end Onward

namespace Grown

lemma of_hub_eq (h : ∀ id, b'.hub id = b.hub id) : Grown b b' where
  toOnward := Onward.of_hub_eq h
  kept id r hr := by rwa [h id]

lemma refl (b : Switchboard) : Grown b b := of_hub_eq fun _ => rfl

lemma trans (h : Grown b b') (h' : Grown b' b'') : Grown b b'' where
  toOnward := h.toOnward.trans h'.toOnward
  kept id r hr := h'.kept id r (h.kept id r hr)

lemma registered (h : Grown b b') (hs : b.Registered s) : b'.Registered s := by
  obtain ⟨r, hr, hid⟩ := hs
  exact ⟨r, h.kept s.hub r hr, hid⟩

end Grown

/-! ### Registering and taking off -/

lemma grown_subscribe (b : Switchboard) (id : HubId) (observer : Observer) :
    Grown b (b.subscribe id observer) := by
  constructor
  · constructor
    · intro other
      rw [hub_subscribe]
      split
      · next h => subst h; exact Nat.le_succ _
      · exact Nat.le_refl _
    · intro other r hr
      rw [hub_subscribe] at hr
      split at hr
      · next h =>
        subst h
        obtain hr | rfl := Hub.mem_subscribe.mp hr
        · exact .inl hr
        · exact .inr (Nat.le_refl _)
      · exact .inl hr
  · intro other r hr
    rw [hub_subscribe]
    split
    · next h => subst h; exact Hub.mem_subscribe.mpr (.inl hr)
    · exact hr

lemma Ordered.subscribe (h : b.Ordered) (id : HubId) (observer : Observer) :
    (b.subscribe id observer).Ordered := by
  intro other
  rw [hub_subscribe]
  split
  · exact (h id).subscribe observer
  · exact h other

lemma onward_unsubscribe (b : Switchboard) (s : Subscription) : Onward b (b.unsubscribe s) := by
  constructor
  · intro id
    rw [hub_unsubscribe]
    split <;> exact Nat.le_refl _
  · intro id r hr
    rw [hub_unsubscribe] at hr
    split at hr
    · exact .inl (Hub.mem_unsubscribe.mp hr).1
    · exact .inl hr

lemma Ordered.unsubscribe (h : b.Ordered) (s : Subscription) : (b.unsubscribe s).Ordered := by
  intro id
  rw [hub_unsubscribe]
  split
  · exact (h id).unsubscribe s.id
  · exact h id

lemma onward_foldl_unsubscribe (subs : List Subscription) (b : Switchboard) :
    Onward b (subs.foldl unsubscribe b) := by
  induction subs generalizing b with
  | nil => exact Onward.refl b
  | cons s rest ih => exact (onward_unsubscribe b s).trans (ih _)

lemma onward_dismiss (b : Switchboard) (s : Subscription) : Onward b (b.dismiss s) :=
  (onward_foldl_unsubscribe (s :: b.attached s) b).trans (Onward.of_hub_eq fun _ => rfl)

lemma onward_follow (b : Switchboard) (id : HubId) (label : String) :
    Onward b (b.follow id label) :=
  (grown_subscribe b id _).toOnward.trans (Onward.of_hub_eq fun _ => rfl)

lemma onward_openChannel (b : Switchboard) (id : HubId) : Onward b (b.openChannel id) :=
  (grown_subscribe b id .forwarder).toOnward.trans (Onward.of_hub_eq fun _ => rfl)

/-! ### Telling -/

lemma grown_tell (event : Event) (id : HubId) (b : Switchboard) (r : Registration) :
    Grown b (tell event id b r) := by
  unfold tell
  split
  · exact Grown.of_hub_eq fun _ => rfl
  · next label origin child _ =>
    exact (grown_subscribe b child.hub (.follower _ origin)).trans (Grown.of_hub_eq fun _ => rfl)
  · exact Grown.refl b

lemma Ordered.tell (h : b.Ordered) (event : Event) (id : HubId) (r : Registration) :
    (Switchboard.tell event id b r).Ordered := by
  unfold Switchboard.tell
  split
  · exact h
  · next label origin child _ => exact h.subscribe child.hub (.follower _ origin)
  · exact h

/-- What stays when one observer of the hub is told stays when all are. -/
lemma deliver_induction {motive : Switchboard → Prop} (p : Publication) (start : motive b)
    (step : ∀ b', motive b' → ∀ r ∈ (b.hub p.hub).registrations, motive (tell p.event p.hub b' r)) :
    motive (b.deliver p).2 :=
  List.foldlRecOn _ _ start step

lemma deliver_grown (b : Switchboard) (p : Publication) : Grown b (b.deliver p).2 :=
  deliver_induction p (Grown.refl b) fun b' h r _ => h.trans (grown_tell p.event p.hub b' r)

lemma Ordered.deliver (h : b.Ordered) (p : Publication) : (b.deliver p).2.Ordered :=
  deliver_induction p h fun _ h r _ => h.tell p.event p.hub r

lemma Ordered.told_deliver (h : b.Ordered) (p : Publication) (s : Subscription) :
    told s (b.deliver p).1 = if p.hub = s.hub ∧ b.Registered s then [p.event] else [] := by
  have hnotice : ∀ r : Registration, (⟨p.hub, r.id⟩ : Subscription) = s ↔
      p.hub = s.hub ∧ r.id = s.id := fun r => by rw [Subscription.ext_iff]
  simp only [told, Switchboard.deliver, List.filterMap_map, Function.comp_def, hnotice]
  by_cases hhub : p.hub = s.hub
  · simp only [hhub, true_and]
    exact (h s.hub).filterMap_eq s.id p.event
  · simp [hhub]

lemma deliverAll_append (b : Switchboard) (ps qs : List Publication) :
    b.deliverAll (ps ++ qs) = ((b.deliverAll ps).1 ++ ((b.deliverAll ps).2.deliverAll qs).1,
      ((b.deliverAll ps).2.deliverAll qs).2) := by
  induction ps generalizing b with
  | nil => rfl
  | cons p rest ih => simp [deliverAll, ih]

lemma deliverAll_grown (b : Switchboard) (ps : List Publication) :
    Grown b (b.deliverAll ps).2 := by
  induction ps generalizing b with
  | nil => exact Grown.refl b
  | cons p rest ih => exact (deliver_grown b p).trans (ih _)

lemma Ordered.deliverAll (h : b.Ordered) (ps : List Publication) :
    (b.deliverAll ps).2.Ordered := by
  induction ps generalizing b with
  | nil => exact h
  | cons p rest ih => exact ih (h.deliver p)

/-- A registered observer is told of all that is published on its hub. -/
theorem Ordered.told_deliverAll (h : b.Ordered) (hs : b.Registered s) (ps : List Publication) :
    told s (b.deliverAll ps).1 = eventsOn s.hub ps := by
  induction ps generalizing b with
  | nil => rfl
  | cons p rest ih =>
    have hrest := ih (h.deliver p) ((deliver_grown b p).registered hs)
    have happend := eventsOn_append s.hub [p] rest
    rw [eventsOn_singleton] at happend
    rw [Switchboard.deliverAll, told_append, h.told_deliver, hrest]
    simpa [hs] using happend.symm

/-- Under a number that is still to be given out nobody is told anything. -/
lemma Ordered.told_eq_nil (h : b.Ordered) (hlt : ((b.deliverAll ps).2.hub s.hub).nextId ≤ s.id) :
    told s (b.deliverAll ps).1 = [] := by
  induction ps generalizing b with
  | nil => rfl
  | cons p rest ih =>
    have hrest := ih (h.deliver p) hlt
    have hnot : ¬ b.Registered s := by
      intro hs
      have hold := h.lt_of_registered hs
      have hgrown := (deliverAll_grown b (p :: rest)).nextId_le s.hub
      omega
    rw [Switchboard.deliverAll, told_append, h.told_deliver, hrest, if_neg fun hs => hnot hs.2]
    rfl

lemma deliverAll_of_unattended (h : ∀ p ∈ ps, (b.hub p.hub).registrations = []) :
    b.deliverAll ps = ([], b) := by
  induction ps with
  | nil => rfl
  | cons p rest ih =>
    have hp := h p List.mem_cons_self
    have hrest := ih fun q hq => h q (List.mem_cons_of_mem _ hq)
    simp only [deliverAll, deliver, hp, List.map_nil, List.foldl_nil, hrest, List.append_nil]

/-! ### What a switchboard knows of a tree -/

/-- Observers are in order, nobody has ever subscribed to a hub with the serial number `n` or a
later one, and no event in a queue knows of such a hub. -/
structure Sound (n : Nat) (b : Switchboard) : Prop where
  ordered : b.Ordered
  unused : ∀ id : HubId, n ≤ id.serial → b.hub id = {}
  queued : ∀ (channel : Subscription) (events : List Event), b.queues[channel]? = some events →
    ∀ e ∈ events, ∀ c, e.child? = some c → c.hub.serial < n

namespace Sound

variable {n m : Nat}

lemma within (h : Sound n b) (id : HubId) (hid : n ≤ id.serial) :
    (b.hub id).registrations = [] := by
  rw [h.unused id hid]

lemma empty (n : Nat) : Sound n {} where
  ordered id := by
    constructor <;> simp [hub]
  unused id _ := by simp [hub]
  queued channel events h := by simp at h

lemma mono (h : Sound n b) (hnm : n ≤ m) : Sound m b where
  ordered := h.ordered
  unused id hid := h.unused id (Nat.le_trans hnm hid)
  queued channel events hq e he c hc := Nat.lt_of_lt_of_le (h.queued channel events hq e he c hc) hnm

lemma congr (h : Sound n b) (hhubs : b'.hubs = b.hubs) (hqueues : b'.queues = b.queues) :
    Sound n b' := by
  have hhub : ∀ id, b'.hub id = b.hub id := fun id => by rw [hub, hub, hhubs]
  constructor
  · intro id
    rw [hhub]
    exact h.ordered id
  · intro id hid
    rw [hhub]
    exact h.unused id hid
  · rw [hqueues]
    exact h.queued

lemma with_queues (h : Sound n b) {queues : Std.ExtTreeMap Subscription (List Event)}
    (hqueues : ∀ (channel : Subscription) (events : List Event), queues[channel]? = some events →
      ∀ e ∈ events, ∀ c, e.child? = some c → c.hub.serial < n) :
    Sound n { b with queues } where
  ordered := h.ordered
  unused := h.unused
  queued := hqueues

lemma subscribe (h : Sound n b) {id : HubId} (hid : id.serial < n) (observer : Observer) :
    Sound n (b.subscribe id observer) where
  ordered := h.ordered.subscribe id observer
  unused other hother := by
    rw [hub_subscribe, if_neg]
    · exact h.unused other hother
    · rintro rfl
      omega
  queued := h.queued

lemma unsubscribe (h : Sound n b) (s : Subscription) : Sound n (b.unsubscribe s) where
  ordered := h.ordered.unsubscribe s
  unused id hid := by
    rw [hub_unsubscribe, h.unused id hid]
    split <;> rfl
  queued := h.queued

lemma dismiss (h : Sound n b) (s : Subscription) : Sound n (b.dismiss s) := by
  refine congr (b := (s :: b.attached s).foldl Switchboard.unsubscribe b) ?_ rfl rfl
  generalize s :: b.attached s = subscriptions
  induction subscriptions generalizing b with
  | nil => exact h
  | cons s rest ih => exact ih (h.unsubscribe s)

lemma follow (h : Sound n b) {id : HubId} (hid : id.serial < n) (label : String) :
    Sound n (b.follow id label) :=
  (h.subscribe hid (.follower label (b.nextSubscription id))).congr rfl rfl

lemma attach (h : Sound n b) {id : HubId} (hid : id.serial < n) (origin : Subscription)
    (label : String) : Sound n (b.attach origin label id) :=
  (h.subscribe hid (.follower label origin)).congr rfl rfl

lemma openChannel (h : Sound n b) {id : HubId} (hid : id.serial < n) :
    Sound n (b.openChannel id) := by
  refine (h.subscribe hid .forwarder).with_queues fun channel events hq e he c hc => ?_
  rw [Std.ExtTreeMap.getElem?_insert] at hq
  split at hq
  · cases hq
    simp at he
  · exact h.queued channel events hq e he c hc

lemma drain (h : Sound n b) (channel : Subscription) : Sound n (b.drain channel) := by
  refine h.with_queues fun other events hq e he c hc => ?_
  rw [Std.ExtTreeMap.getElem?_modify] at hq
  split at hq
  · obtain ⟨_, -, rfl⟩ := Option.map_eq_some_iff.mp hq
    simp at he
  · exact h.queued other events hq e he c hc

lemma closeChannel (h : Sound n b) (channel : Subscription) : Sound n (b.closeChannel channel) := by
  refine h.with_queues fun other events hq e he c hc => ?_
  rw [Std.ExtTreeMap.getElem?_erase] at hq
  split at hq
  · cases hq
  · exact h.queued other events hq e he c hc

lemma child_lt_of_waiting (h : Sound n b) {channel : Subscription} {e : Event}
    (he : e ∈ b.waiting channel) {c : Child} (hc : e.child? = some c) : c.hub.serial < n := by
  unfold waiting at he
  rw [Std.ExtTreeMap.getD_eq_getD_getElem?] at he
  cases hq : b.queues[channel]? with
  | none => simp [hq] at he
  | some events =>
    rw [hq] at he
    exact h.queued channel events hq e he c hc

lemma tell (h : Sound n b) {event : Event} (hevent : ∀ c, event.child? = some c → c.hub.serial < n)
    (id : HubId) (r : Registration) : Sound n (Switchboard.tell event id b r) := by
  unfold Switchboard.tell
  split
  · refine h.with_queues fun channel events hq e he c hc => ?_
    rw [Std.ExtTreeMap.getElem?_modify] at hq
    split at hq
    · obtain ⟨before, hbefore, rfl⟩ := Option.map_eq_some_iff.mp hq
      rcases List.mem_append.mp he with he | he
      · exact h.queued _ before hbefore e he c hc
      · obtain rfl := List.mem_singleton.mp he
        exact hevent c hc
    · exact h.queued channel events hq e he c hc
  · next label origin child _ => exact h.attach (hevent child rfl) origin _
  · exact h

lemma deliver (h : Sound n b) {p : Publication}
    (hp : ∀ c, p.event.child? = some c → c.hub.serial < n) : Sound n (b.deliver p).2 :=
  deliver_induction p h fun _ h r _ => h.tell hp p.hub r

lemma deliverAll (h : Sound n b)
    (hps : ∀ p ∈ ps, ∀ c, p.event.child? = some c → c.hub.serial < n) :
    Sound n (b.deliverAll ps).2 := by
  induction ps generalizing b with
  | nil => exact h
  | cons p rest ih =>
    exact ih (h.deliver (hps p List.mem_cons_self)) fun q hq => hps q (List.mem_cons_of_mem _ hq)

end Sound

end

end Switchboard

end LiveQuery
