import LiveQuery.Proofs.Stages
import LiveQuery.Proofs.Tethers

/-!
# Counting followers

How many observers on a hub belong to one follower. An event changes the number only if it announces a
child, and only on the hub of the child: whoever follows the hub where the child is announced follows
the hub of the child from then on, as often. Nobody who follows one subscription goes when another is
dismissed.
-/

namespace LiveQuery

/-- The observer belongs to the follower that began as `origin`. -/
def Observer.follows (origin : Subscription) : Observer → Bool
  | follower _ o => o = origin
  | _ => false

lemma Observer.follows_iff {origin : Subscription} {observer : Observer} :
    observer.follows origin ↔ ∃ label, observer = .follower label origin := by
  cases observer <;> simp [follows]

lemma Observer.eq_of_follows {label : String} {origin o : Subscription}
    (h : (Observer.follower label origin).follows o) : o = origin := by
  simpa [follows, eq_comm] using h

namespace Switchboard

/-- How many observers on a hub belong to the follower that began as `origin`. -/
def followers (b : Switchboard) (origin : Subscription) (hub : HubId) : Nat :=
  (b.hub hub).registrations.countP (·.observer.follows origin)

/-- The number of the subscription was given out. -/
def Given (b : Switchboard) (s : Subscription) : Prop := s.id < (b.hub s.hub).nextId

/-- A subscription that was given out, and whose observer can only belong to the follower that began
as `origin`. -/
structure Heads (b : Switchboard) (origin s : Subscription) : Prop where
  given : b.Given s
  eq_origin : ∀ r ∈ (b.hub s.hub).registrations, r.id = s.id → ∀ o, r.observer.follows o → o = origin

/-- All that is attached to a follower belongs to it, and every follower began as a subscription that
was given out. -/
structure Kin (b : Switchboard) : Prop where
  ordered : b.Ordered
  attached : ∀ origin, ∀ s ∈ b.attached origin, b.Heads origin s
  origins : ∀ hub, ∀ r ∈ (b.hub hub).registrations, ∀ o, r.observer.follows o → b.Given o

/-- From `b` to `b'` followers neither come nor go, if they began as a subscription that is kept. -/
structure Spares (keep : Subscription → Prop) (b b' : Switchboard) : Prop extends Onward b b' where
  kin : b'.Kin
  followers_eq : ∀ o, b.Given o → keep o → ∀ hub, b'.followers o hub = b.followers o hub

section

variable {b b' b'' : Switchboard} {s o origin : Subscription} {hub : HubId} {n : Nat}
  {ps nested : List Publication} {keep : Subscription → Prop}

lemma followers_congr (h : b'.hub hub = b.hub hub) (o : Subscription) :
    b'.followers o hub = b.followers o hub := by
  rw [followers, followers, h]

lemma Given.onward (h : b.Given s) (ho : Onward b b') : b'.Given s :=
  Nat.lt_of_lt_of_le h (ho.nextId_le s.hub)

lemma Given.mem_of_onward (h : b.Given s) (ho : Onward b b') {r : Registration}
    (hr : r ∈ (b'.hub s.hub).registrations) (hid : r.id = s.id) :
    r ∈ (b.hub s.hub).registrations := by
  refine (ho.fresh s.hub r hr).resolve_right fun hlate => ?_
  rw [Given, ← hid] at h
  omega

lemma Heads.onward (h : b.Heads origin s) (ho : Onward b b') : b'.Heads origin s where
  given := h.given.onward ho
  eq_origin r hr hid := h.eq_origin r (h.given.mem_of_onward ho hr hid) hid

lemma given_subscribe (b : Switchboard) (hub : HubId) (observer : Observer) :
    (b.subscribe hub observer).Given (b.nextSubscription hub) := by
  rw [Given, nextSubscription, hub_subscribe, if_pos rfl]
  exact Nat.lt_succ_self _

lemma Ordered.observer_subscribe (h : b.Ordered) {hub : HubId} {observer : Observer}
    {r : Registration} (hr : r ∈ ((b.subscribe hub observer).hub hub).registrations)
    (hid : r.id = (b.nextSubscription hub).id) : r.observer = observer := by
  rw [hub_subscribe, if_pos rfl] at hr
  obtain hr | rfl := Hub.mem_subscribe.mp hr
  · exact absurd hid (Nat.ne_of_lt ((h hub).lt r hr))
  · rfl

lemma Ordered.heads_subscribe (h : b.Ordered) (hub : HubId) {observer : Observer}
    (ho : ∀ o, observer.follows o → o = origin) :
    (b.subscribe hub observer).Heads origin (b.nextSubscription hub) where
  given := given_subscribe b hub observer
  eq_origin r hr hid := by
    rw [h.observer_subscribe hr hid]
    exact ho

lemma Ordered.heads_follower (h : b.Ordered) (hub : HubId) (label : String)
    (origin : Subscription) :
    (b.subscribe hub (.follower label origin)).Heads origin (b.nextSubscription hub) :=
  h.heads_subscribe hub fun _ => Observer.eq_of_follows

/-! ### Who belongs to whom -/

namespace Kin

/-- What was attached belongs to its follower for ever, so only what is new has to be looked at. -/
lemma onward (h : b.Kin) (ho : Onward b b') (hordered : b'.Ordered)
    (hattached : ∀ o, ∀ s ∈ b'.attached o, s ∈ b.attached o ∨ b'.Heads o s)
    (horigins : ∀ hub, ∀ r ∈ (b'.hub hub).registrations, r ∈ (b.hub hub).registrations ∨
      ∀ o, r.observer.follows o → b'.Given o) : b'.Kin where
  ordered := hordered
  attached o s hs := (hattached o s hs).elim (fun hs => (h.attached o s hs).onward ho) id
  origins hub r hr :=
    (horigins hub r hr).elim (fun hr o hro => (h.origins hub r hr o hro).onward ho) id

lemma empty : Kin {} where
  ordered := (Sound.empty 0).ordered
  attached o s hs := by simp [Switchboard.attached] at hs
  origins hub r hr := by simp [Switchboard.hub] at hr

lemma congr (h : b.Kin) (hhub : ∀ hub, b'.hub hub = b.hub hub)
    (hattached : ∀ o, b'.attached o = b.attached o) : b'.Kin := by
  refine h.onward (Onward.of_hub_eq hhub) (fun hub => ?_) (fun o s hs => .inl (hattached o ▸ hs))
    fun hub r hr => .inl (hhub hub ▸ hr)
  rw [hhub]
  exact h.ordered hub

lemma subscribe (h : b.Kin) (hub : HubId) (observer : Observer)
    (ho : ∀ o, observer.follows o → (b.subscribe hub observer).Given o) :
    (b.subscribe hub observer).Kin := by
  refine h.onward (grown_subscribe b hub observer).toOnward (h.ordered.subscribe hub observer)
    (fun o s hs => .inl hs) fun other r hr => ?_
  rw [hub_subscribe] at hr
  split at hr
  · next hother =>
    subst hother
    obtain hr | rfl := Hub.mem_subscribe.mp hr
    · exact .inl hr
    · exact .inr ho
  · exact .inl hr

lemma follow (h : b.Kin) (hub : HubId) (label : String) : (b.follow hub label).Kin := by
  have hheads := h.ordered.heads_follower hub label (b.nextSubscription hub)
  have hsubscribe := h.subscribe hub (.follower label (b.nextSubscription hub)) fun o ho =>
    (Observer.eq_of_follows ho).symm ▸ hheads.given
  refine hsubscribe.onward (Onward.of_hub_eq fun _ => rfl) hsubscribe.ordered (fun o s hs => ?_)
    fun _ r hr => .inl hr
  have hold : s ∈ b.attached o := mem_attached_follow hs
  exact .inl hold

lemma attach (h : b.Kin) (ho : b.Given o) (label : String) (hub : HubId) :
    (b.attach o label hub).Kin := by
  have hgiven := ho.onward (grown_subscribe b hub (.follower label o)).toOnward
  have hsubscribe := h.subscribe hub (.follower label o) fun o' ho' =>
    (Observer.eq_of_follows ho').symm ▸ hgiven
  have hsame : Onward (b.subscribe hub (.follower label o)) (b.attach o label hub) :=
    Onward.of_hub_eq fun _ => rfl
  refine hsubscribe.onward hsame hsubscribe.ordered (fun o' s hs => ?_) fun _ r hr => .inl hr
  obtain hold | ⟨rfl, rfl⟩ := mem_attached_attach hs
  · exact .inl hold
  · exact .inr ((h.ordered.heads_follower hub label o').onward hsame)

lemma dismiss (h : b.Kin) (s : Subscription) : (b.dismiss s).Kin := by
  refine h.onward (onward_dismiss b s) ?_ (fun o s' hs' => .inl (mem_attached_dismiss hs'))
    fun _ r hr => .inl (mem_of_mem_foldl_unsubscribe hr)
  have hordered : ∀ subs : List Subscription, (subs.foldl unsubscribe b).Ordered := by
    intro subs
    have ho := h.ordered
    clear h
    induction subs generalizing b with
    | nil => exact ho
    | cons s' rest ih => exact ih (ho.unsubscribe s')
  exact hordered (s :: b.attached s)

lemma tell (h : b.Kin) (event : Event) (hub : HubId) {r : Registration}
    (hr : ∀ o, r.observer.follows o → b.Given o) : (Switchboard.tell event hub b r).Kin := by
  unfold Switchboard.tell
  split
  · exact h.congr (fun _ => rfl) fun _ => rfl
  · next label o child hobserver =>
    exact h.attach (hr o (Observer.follows_iff.mpr ⟨label, hobserver⟩)) _ child.hub
  · exact h

lemma deliver (h : b.Kin) (p : Publication) : (b.deliver p).2.Kin := by
  refine (deliver_induction (motive := fun b' => b'.Kin ∧ Onward b b') p ⟨h, Onward.refl b⟩ ?_).1
  rintro b' ⟨hkin, honward⟩ r hr
  exact ⟨hkin.tell p.event p.hub fun o ho => (h.origins p.hub r hr o ho).onward honward,
    honward.trans (grown_tell p.event p.hub b' r).toOnward⟩

lemma deliverAll (h : b.Kin) (ps : List Publication) : (b.deliverAll ps).2.Kin := by
  induction ps generalizing b with
  | nil => exact h
  | cons p rest ih => exact ih (h.deliver p)

lemma followers_eq_zero (h : b.Kin) (ho : ¬ b.Given o) (hub : HubId) : b.followers o hub = 0 :=
  List.countP_eq_zero.mpr fun r hr hfollows => ho (h.origins hub r hr o hfollows)

end Kin

/-! ### Counting -/

lemma followers_subscribe (b : Switchboard) (id : HubId) (observer : Observer) (o : Subscription)
    (hub : HubId) : (b.subscribe id observer).followers o hub =
      b.followers o hub + if id = hub ∧ observer.follows o then 1 else 0 := by
  rw [followers, followers, hub_subscribe]
  by_cases hid : id = hub
  · subst hid
    simp [Hub.subscribe, List.countP_append, List.countP_singleton]
  · simp [hid]

lemma Kin.followers_follow (h : b.Kin) (hub : HubId) (label : String) :
    (b.follow hub label).followers (b.nextSubscription hub) hub = 1 := by
  have hone := b.followers_subscribe hub (.follower label (b.nextSubscription hub))
    (b.nextSubscription hub) hub
  rwa [h.followers_eq_zero (Nat.lt_irrefl _), if_pos ⟨rfl, by simp [Observer.follows]⟩] at hone

lemma followers_unsubscribe (h : b.Heads origin s) (ho : o ≠ origin) (hub : HubId) :
    (b.unsubscribe s).followers o hub = b.followers o hub := by
  rw [followers, followers, hub_unsubscribe]
  split
  · next hhub =>
    subst hhub
    rw [Hub.unsubscribe, List.countP_filter]
    refine List.countP_congr fun r hr => ?_
    have hne : r.observer.follows o → r.id ≠ s.id := fun hfollows hid =>
      ho (h.eq_origin r hr hid o hfollows)
    simpa using hne
  · rfl

lemma Kin.followers_dismiss (h : b.Kin) (hs : b.Heads s s) (ho : o ≠ s) (hub : HubId) :
    (b.dismiss s).followers o hub = b.followers o hub := by
  have hsubs : ∀ x ∈ s :: b.attached s, b.Heads s x := List.forall_mem_cons.mpr ⟨hs, h.attached s⟩
  change ((s :: b.attached s).foldl unsubscribe b).followers o hub = b.followers o hub
  generalize s :: b.attached s = subs at hsubs
  clear h hs
  induction subs generalizing b with
  | nil => rfl
  | cons x rest ih =>
    obtain ⟨hx, hrest⟩ := List.forall_mem_cons.mp hsubs
    rw [List.foldl_cons, ih fun y hy => (hrest y hy).onward (onward_unsubscribe b x),
      followers_unsubscribe hx ho]

lemma followers_deliver_added (b : Switchboard) (id : HubId) (c : Child) (o : Subscription)
    (hub : HubId) : (b.deliver ⟨id, .childAdded c⟩).2.followers o hub =
      b.followers o hub + if c.hub = hub then b.followers o id else 0 := by
  have htell : ∀ (rs : List Registration) (b : Switchboard),
      (rs.foldl (tell (.childAdded c) id) b).followers o hub = b.followers o hub +
        if c.hub = hub then rs.countP (·.observer.follows o) else 0 := by
    intro rs
    induction rs with
    | nil => simp
    | cons r rest ih =>
      intro b
      have hone : (tell (.childAdded c) id b r).followers o hub =
          b.followers o hub + if c.hub = hub ∧ r.observer.follows o then 1 else 0 := by
        rcases r with ⟨i, label | ⟨label, origin⟩ | _⟩
        · simp [tell, Observer.follows]
        · exact followers_subscribe b c.hub (.follower _ origin) o hub
        · simp only [Observer.follows, Bool.false_eq_true, and_false, if_false]
          rfl
      rw [List.foldl_cons, ih, hone, List.countP_cons]
      by_cases hc : c.hub = hub
      · simp only [hc, true_and, if_true]
        omega
      · simp [hc]
  exact htell (b.hub id).registrations b

lemma hub_deliverAll (h : ∀ e ∈ ps, ∀ c, e.event ≠ .childAdded c) (b : Switchboard) (hub : HubId) :
    (b.deliverAll ps).2.hub hub = b.hub hub := by
  induction ps generalizing b with
  | nil => rfl
  | cons p rest ih =>
    exact (ih (fun e he => h e (List.mem_cons_of_mem _ he)) _).trans
      (hub_deliver (fun c hc => absurd hc (h p List.mem_cons_self c)) b)

/-- An announcement that comes after events on hubs that nobody knows yet. -/
lemma Sound.followers_announcement (h : b.Sound n) (hnested : ∀ e ∈ nested, n ≤ e.hub.serial)
    (id : HubId) (c : Child) (o : Subscription) (hub : HubId) :
    (b.deliverAll (nested ++ [⟨id, .childAdded c⟩])).2.followers o hub =
      b.followers o hub + if c.hub = hub then b.followers o id else 0 := by
  have hunattended : b.deliverAll nested = ([], b) :=
    deliverAll_of_unattended fun e he => h.within e.hub (hnested e he)
  rw [deliverAll_append, hunattended]
  exact followers_deliver_added b id c o hub

lemma Sound.followers_eq_zero (h : b.Sound n) (hlate : n ≤ hub.serial) (o : Subscription) :
    b.followers o hub = 0 := by
  rw [followers, h.within hub hlate]
  rfl

/-! ### What spares followers -/

namespace Spares

lemma refl (h : b.Kin) : Spares keep b b := ⟨Onward.refl b, h, fun _ _ _ _ => rfl⟩

lemma trans (h : Spares keep b b') (h' : Spares keep b' b'') : Spares keep b b'' where
  toOnward := h.toOnward.trans h'.toOnward
  kin := h'.kin
  followers_eq o ho hkeep hub := by
    rw [h'.followers_eq o (ho.onward h.toOnward) hkeep hub, h.followers_eq o ho hkeep hub]

lemma congr (h : b.Kin) (hhub : ∀ hub, b'.hub hub = b.hub hub)
    (hattached : ∀ o, b'.attached o = b.attached o) : Spares keep b b' :=
  ⟨Onward.of_hub_eq hhub, h.congr hhub hattached, fun o _ _ hub => followers_congr (hhub hub) o⟩

lemma subscribe (h : b.Kin) (hub : HubId) (observer : Observer)
    (ho : ∀ o, ¬ observer.follows o) : Spares keep b (b.subscribe hub observer) where
  toOnward := (grown_subscribe b hub observer).toOnward
  kin := h.subscribe hub observer fun o hfollows => absurd hfollows (ho o)
  followers_eq o _ _ other := by simp [followers_subscribe, ho o]

lemma follow (h : b.Kin) (hub : HubId) (label : String) : Spares keep b (b.follow hub label) where
  toOnward := onward_follow b hub label
  kin := h.follow hub label
  followers_eq o ho _ other := by
    have hnew : ¬ (Observer.follower label (b.nextSubscription hub)).follows o := fun hfollows =>
      Nat.lt_irrefl _ (Observer.eq_of_follows hfollows ▸ ho)
    have hsubscribe := followers_subscribe b hub (.follower label (b.nextSubscription hub)) o other
    rwa [if_neg fun h => hnew h.2] at hsubscribe

lemma openChannel (h : b.Kin) (hub : HubId) : Spares keep b (b.openChannel hub) := by
  have hsubscribe : Spares keep b (b.subscribe hub .forwarder) :=
    subscribe h hub .forwarder fun _ => Bool.false_ne_true
  exact hsubscribe.trans (congr hsubscribe.kin (fun _ => rfl) fun _ => rfl)

lemma dismiss (h : b.Kin) (hs : b.Heads s s) (hnot : ¬ keep s) : Spares keep b (b.dismiss s) where
  toOnward := onward_dismiss b s
  kin := h.dismiss s
  followers_eq _ _ hkeep hub := h.followers_dismiss hs (fun ho => hnot (ho ▸ hkeep)) hub

end Spares

end

end Switchboard

end LiveQuery
