import LiveQuery.Proofs.Announcements
import LiveQuery.Proofs.Edits

/-!
# Tethers

A follower has like observers on the hubs of the children that it is told of, and dismissing it takes
them all off. As nothing in a tree ever moves, those on hubs of live nodes are all below the node where
the follower began. So nothing that is dismissed after its node has gone is on the hub of a live node,
though a live node may have the same id and an observer there the same number.
-/

namespace LiveQuery

namespace Tree

/-- The node that has `hub` is the node that has `origin`, which lives, or below it. -/
def Within (t : Tree) (origin hub : HubId) : Prop := t.Owns origin ∧ t.Below origin.node hub.node

section

variable {root : TypeDef} {t t' : Tree} {ps : List Publication} {origin hub : HubId} {c : Child}

lemma Within.congr (h : t.Within origin hub) (hnodes : t'.nodes = t.nodes) :
    t'.Within origin hub := by
  refine ⟨(owns_congr hnodes).mpr h.1, h.2.mono fun y p hp => ?_⟩
  rw [← hp]
  simp only [parentOf, node?_congr hnodes]

lemma Within.child (hw : t.WellFormed root) (h : t.Within origin hub) (hc : c ∈ t.family hub) :
    t.Within origin c.hub := by
  obtain ⟨hnode, -, hp⟩ := hw.hub_of_mem_family hc
  exact ⟨h.1, hnode.symm ▸ .step hp h.2⟩

lemma Within.advance (h : t.WellFormed root) (ha : Advances root t ps t')
    (hlineage : ∀ hub c, c.hub.serial < t.nextHub → c ∈ t'.family hub → c ∈ t.family hub)
    (hin : t.Within origin hub) (hown : t.Owns hub) (hown' : t'.Owns hub) :
    t'.Within origin hub := by
  obtain ⟨horigin, hbelow⟩ := hin
  generalize hx : hub.node = x at hbelow
  induction hbelow generalizing hub with
  | refl =>
    obtain ⟨n, hn, rfl⟩ := hown
    obtain ⟨m, hm, rfl⟩ := horigin
    rw [hx, hm] at hn
    cases hn
    exact ⟨hown', .refl⟩
  | @step p x hp _ ih =>
    obtain ⟨n, hn, rfl⟩ := hown
    rw [hx] at hn
    obtain ⟨m, hm, -⟩ := h.parent_live hn ((parentOf_eq hn).symm.trans hp)
    have hmnode := (h.hub hm).1
    have hmem : n.asChild ∈ t.family m.hub := by
      rw [h.mem_family_iff (owns_hub h hm) hn, hp, hmnode]
    have hmem' := h.mem_family_of_owns ha.wellFormed hlineage hmem hown'
    exact (ih (owns_hub h hm) (owns_of_mem_family hmem') hmnode).child ha.wellFormed hmem'

end

end Tree

namespace Switchboard

/-- Followers on hubs of live nodes are within the tree of the node where they began, and so is all
that they attached. -/
structure Tethered (t : Tree) (b : Switchboard) : Prop where
  follower : ∀ hub : HubId, ∀ r ∈ (b.hub hub).registrations, ∀ label origin,
    r.observer = .follower label origin → t.Owns hub → t.Within origin.hub hub
  attached : ∀ origin, ∀ s ∈ b.attached origin, t.Owns s.hub → t.Within origin.hub s.hub
  known : ∀ origin, ∀ s ∈ b.attached origin, s.hub.serial < t.nextHub

section

variable {root : TypeDef} {t t' : Tree} {b b' : Switchboard} {s : Subscription}
  {ps : List Publication} {hub : HubId}

lemma hub_foldl_unsubscribe (subs : List Subscription) (b : Switchboard)
    (h : ∀ s ∈ subs, s.hub ≠ hub) : (subs.foldl unsubscribe b).hub hub = b.hub hub := by
  induction subs generalizing b with
  | nil => rfl
  | cons s rest ih =>
    rw [List.foldl_cons, ih _ fun s' hs' => h s' (List.mem_cons_of_mem _ hs'), hub_unsubscribe,
      if_neg (h s List.mem_cons_self)]

lemma mem_of_mem_foldl_unsubscribe {subs : List Subscription} {b : Switchboard} {r : Registration}
    (h : r ∈ ((subs.foldl unsubscribe b).hub hub).registrations) :
    r ∈ (b.hub hub).registrations := by
  induction subs generalizing b with
  | nil => exact h
  | cons s rest ih =>
    have hr := ih h
    rw [hub_unsubscribe] at hr
    split at hr
    · exact (Hub.mem_unsubscribe.mp hr).1
    · exact hr

lemma attachments_foldl_unsubscribe (subs : List Subscription) (b : Switchboard) :
    (subs.foldl unsubscribe b).attachments = b.attachments := by
  induction subs generalizing b with
  | nil => rfl
  | cons s rest ih => exact ih _

lemma mem_attached_follow {label : String} {origin : Subscription}
    (h : s ∈ (b.follow hub label).attached origin) : s ∈ b.attached origin := by
  rw [attached, follow, Std.ExtTreeMap.getD_insert] at h
  split at h
  · cases h
  · exact h

lemma mem_attached_attach {label : String} {o origin : Subscription}
    (h : s ∈ (b.attach o label hub).attached origin) :
    s ∈ b.attached origin ∨ origin = o ∧ s = b.nextSubscription hub := by
  have hattached : ∀ o, b.attached o = b.attachments[o]?.getD [] :=
    fun _ => Std.ExtTreeMap.getD_eq_getD_getElem?
  rw [attached, attach, Std.ExtTreeMap.getD_eq_getD_getElem?, Std.ExtTreeMap.getElem?_modify] at h
  rw [hattached]
  split at h
  · next ho =>
    obtain rfl := Std.compare_eq_iff_eq.mp ho
    rw [subscribe] at h
    cases hold : b.attachments[o]? with
    | none => simp [hold] at h
    | some before =>
      simp only [hold, Option.map_some, Option.getD_some, List.mem_append,
        List.mem_singleton, true_and] at h ⊢
      exact h
  · exact .inl h

lemma mem_attached_dismiss {s' origin : Subscription} (h : s' ∈ (b.dismiss s).attached origin) :
    s' ∈ b.attached origin := by
  rw [attached, dismiss, Std.ExtTreeMap.getD_erase] at h
  split at h
  · cases h
  · rwa [attachments_foldl_unsubscribe] at h

namespace Tethered

lemma empty (t : Tree) : Tethered t {} where
  follower hub r hr := by simp [Switchboard.hub] at hr
  attached origin s hs := by simp [Switchboard.attached] at hs
  known origin s hs := by simp [Switchboard.attached] at hs

lemma congr (h : Tethered t b) (hnodes : t'.nodes = t.nodes) (hnext : t'.nextHub = t.nextHub)
    (hhubs : ∀ hub, b'.hub hub = b.hub hub) (hattached : ∀ s, b'.attached s = b.attached s) :
    Tethered t' b' where
  follower hub r hr label origin ho hown := by
    rw [hhubs] at hr
    exact (h.follower hub r hr label origin ho ((Tree.owns_congr hnodes).mp hown)).congr hnodes
  attached origin s hs hown := by
    rw [hattached] at hs
    exact (h.attached origin s hs ((Tree.owns_congr hnodes).mp hown)).congr hnodes
  known origin s hs := by
    rw [hattached] at hs
    exact hnext ▸ h.known origin s hs

lemma subscribe (h : Tethered t b) {id : HubId} {observer : Observer}
    (ho : ∀ label origin, observer = .follower label origin → t.Owns id → t.Within origin.hub id) :
    Tethered t (b.subscribe id observer) where
  follower hub r hr label origin heq hown := by
    rw [hub_subscribe] at hr
    split at hr
    · next hid =>
      subst hid
      obtain hr | rfl := Hub.mem_subscribe.mp hr
      · exact h.follower id r hr label origin heq hown
      · exact ho label origin heq hown
    · exact h.follower hub r hr label origin heq hown
  attached := h.attached
  known := h.known

lemma record (h : Tethered t b) (id : HubId) (label : String) :
    Tethered t (b.subscribe id (.recorder label)) :=
  h.subscribe fun _ _ heq => nomatch heq

lemma with_attachments (h : Tethered t b)
    {attachments : Std.ExtTreeMap Subscription (List Subscription)}
    (hattached : ∀ origin, ∀ s ∈ ({ b with attachments } : Switchboard).attached origin,
      (t.Owns s.hub → t.Within origin.hub s.hub) ∧ s.hub.serial < t.nextHub) :
    Tethered t { b with attachments } where
  follower := h.follower
  attached origin s hs := (hattached origin s hs).1
  known origin s hs := (hattached origin s hs).2

lemma follow (h : Tethered t b) (id : HubId) (label : String) : Tethered t (b.follow id label) := by
  have hsubscribe : Tethered t (b.subscribe id (.follower label (b.nextSubscription id))) := by
    refine h.subscribe fun label' origin heq hown => ?_
    cases heq
    exact ⟨hown, .refl⟩
  refine hsubscribe.with_attachments fun origin s hs => ?_
  have hold := mem_attached_follow hs
  exact ⟨h.attached origin s hold, h.known origin s hold⟩

lemma attach (h : Tethered t b) {id : HubId} {origin : Subscription} (label : String)
    (hin : t.Owns id → t.Within origin.hub id) (hlt : id.serial < t.nextHub) :
    Tethered t (b.attach origin label id) := by
  have hsubscribe : Tethered t (b.subscribe id (.follower label origin)) := by
    refine h.subscribe fun label' origin' heq hown => ?_
    cases heq
    exact hin hown
  refine hsubscribe.with_attachments fun o s hs => ?_
  obtain hold | ⟨rfl, rfl⟩ := mem_attached_attach hs
  · exact ⟨h.attached o s hold, h.known o s hold⟩
  · exact ⟨hin, hlt⟩

lemma openChannel (h : Tethered t b) (id : HubId) : Tethered t (b.openChannel id) := by
  have hsubscribe : Tethered t (b.subscribe id .forwarder) :=
    h.subscribe fun _ _ heq => nomatch heq
  exact hsubscribe.congr rfl rfl (fun _ => rfl) fun _ => rfl

lemma drain (h : Tethered t b) (channel : Subscription) : Tethered t (b.drain channel) :=
  h.congr rfl rfl (fun _ => rfl) fun _ => rfl

lemma closeChannel (h : Tethered t b) (channel : Subscription) :
    Tethered t (b.closeChannel channel) :=
  h.congr rfl rfl (fun _ => rfl) fun _ => rfl

lemma dismiss (h : Tethered t b) (s : Subscription) : Tethered t (b.dismiss s) where
  follower hub r hr := h.follower hub r (mem_of_mem_foldl_unsubscribe hr)
  attached origin s' hs' := h.attached origin s' (mem_attached_dismiss hs')
  known origin s' hs' := h.known origin s' (mem_attached_dismiss hs')

theorem hub_dismiss (h : Tethered t b) (hgone : ¬ t.Owns s.hub) (hown : t.Owns hub) :
    (b.dismiss s).hub hub = b.hub hub := by
  change ((s :: b.attached s).foldl unsubscribe b).hub hub = b.hub hub
  refine hub_foldl_unsubscribe _ b fun s' hs' => ?_
  rintro rfl
  obtain rfl | hs' := List.mem_cons.mp hs'
  · exact hgone hown
  · exact hgone (h.attached s s' hs' hown).1

/-! ### Telling -/

lemma tell (h : Tethered t b) (hw : t.WellFormed root) {event : Event} {id : HubId}
    {r : Registration}
    (hr : ∀ label origin, r.observer = .follower label origin → t.Owns id → t.Within origin.hub id)
    (hevent : ∀ c, event = .childAdded c →
      c.hub.serial < t.nextHub ∧ (t.Owns c.hub → c ∈ t.family id)) :
    Tethered t (Switchboard.tell event id b r) := by
  unfold Switchboard.tell
  split
  · exact h.congr rfl rfl (fun _ => rfl) fun _ => rfl
  · next label origin child ho =>
    obtain ⟨hlt, hfamily⟩ := hevent child rfl
    refine h.attach _ (fun hown => ?_) hlt
    have hmem := hfamily hown
    exact (hr label origin ho (Tree.owns_of_mem_family hmem)).child hw hmem
  · exact h

lemma deliver (h : Tethered t b) (hw : t.WellFormed root) {p : Publication}
    (hp : ∀ c, p.event = .childAdded c →
      c.hub.serial < t.nextHub ∧ (t.Owns c.hub → c ∈ t.family p.hub)) :
    Tethered t (b.deliver p).2 := by
  have hfollower := h.follower p.hub
  exact deliver_induction p h fun b' h' r hr => h'.tell hw (hfollower r hr) hp

/-- If a child that was announced is where its announcement says, as long as it lives, then followers
stay tethered when it is delivered. -/
lemma deliverAll (h : Tethered t b) (hw : t.WellFormed root)
    (hps : ∀ e ∈ ps, ∀ c, e.event = .childAdded c →
      c.hub.serial < t.nextHub ∧ (t.Owns c.hub → c ∈ t.family e.hub)) :
    Tethered t (b.deliverAll ps).2 := by
  induction ps generalizing b with
  | nil => exact h
  | cons p rest ih =>
    exact ih (h.deliver hw (hps p List.mem_cons_self)) fun q hq =>
      hps q (List.mem_cons_of_mem _ hq)

/-- A tree that advances keeps its followers tethered, before what was published is delivered. -/
lemma advance (h : Tethered t b) (hb : b.Sound t.nextHub) (hw : t.WellFormed root)
    (ha : Tree.Advances root t ps t')
    (hlineage : ∀ hub c, c.hub.serial < t.nextHub → c ∈ t'.family hub → c ∈ t.family hub) :
    Tethered t' b where
  follower hub r hr label origin ho hown' := by
    have hlt : hub.serial < t.nextHub := by
      by_contra hlate
      rw [hb.within hub (by omega)] at hr
      cases hr
    have hown := ha.owns hub hown' hlt
    exact (h.follower hub r hr label origin ho hown).advance hw ha hlineage hown hown'
  attached origin s hs hown' := by
    have hown := ha.owns s.hub hown' (h.known origin s hs)
    exact (h.attached origin s hs hown).advance hw ha hlineage hown hown'
  known origin s hs := Nat.lt_of_lt_of_le (h.known origin s hs) ha.nextHub_le

lemma of_empty (h : Tethered t b) (hempty : ∀ hub, ¬ t'.Owns hub) (hnext : t'.nextHub = t.nextHub) :
    Tethered t' b where
  follower hub _ _ _ _ _ hown := absurd hown (hempty hub)
  attached _ s _ hown := absurd hown (hempty s.hub)
  known origin s hs := hnext ▸ h.known origin s hs

lemma edit {a : Session} (e : Edit) (h : Tethered a.tree a.switchboard) :
    Tethered (e.apply a).tree (e.apply a).switchboard := by
  have hbindings : ∀ bindings : Bindings, Tethered { a.tree with bindings } a.switchboard :=
    fun _ => h.congr rfl rfl (fun _ => rfl) fun _ => rfl
  cases e with
  | put id value => exact hbindings _
  | acquire id => exact hbindings _
  | release id => exact hbindings _
  | sweep => exact hbindings _
  | record hub label => exact h.record hub label
  | follow hub label => exact h.follow hub label
  | openChannel hub => exact h.openChannel hub
  | dismiss subscription => exact h.dismiss subscription
  | drain channel => exact h.drain channel
  | closeChannel channel => exact h.closeChannel channel

end Tethered

end

end Switchboard

namespace Server

/-- All followers of all sessions are tethered. -/
def Tethered (s : Server) : Prop :=
  ∀ (k : Nat) (a : Session), s.sessions[k]? = some a → a.switchboard.Tethered a.tree

section

variable {root : TypeDef} {s : Server} {k j : Nat}

namespace Tethered

lemma modifySession (h : s.Tethered) {f : Session → Session}
    (hf : ∀ a : Session, s.sessions[k]? = some a → a.switchboard.Tethered a.tree →
      (f a).switchboard.Tethered (f a).tree) : (s.modifySession k f).Tethered := by
  intro i a hi
  obtain ⟨b, hb, rfl⟩ := of_getElem?_modifySession hi
  split
  · next hk => subst hk; exact hf b hb (h k b hb)
  · exact h i b hb

lemma tended {P : Edit → Prop} {s' : Server} (h : s.Tethered) (htended : s.Tended P s') :
    s'.Tethered := by
  intro k a' hk
  obtain ⟨a, ha, hkept⟩ := htended.session
    (R := fun a b => a.switchboard.Tethered a.tree → b.switchboard.Tethered b.tree)
    (fun _ => id) (fun _ _ _ hab hbc => hbc ∘ hab) (fun _ e _ => Switchboard.Tethered.edit e) hk
  exact hkept (h k a ha)

theorem step (h : s.Tethered) (hs : s.Sound root) (k : Nat) (c : Command) :
    (s.step k c).server.Tethered := by
  by_cases hc : c.isOperation
  · by_cases hdead : ∀ a : Session, s.sessions[k]? = some a → ¬ a.tree.isLive
    · rw [(step_of_dead hc hdead).1]
      exact h
    · push Not at hdead
      obtain ⟨session, hk, hlive⟩ := hdead
      obtain ⟨t, ps, hd⟩ := step_of_live hc hk hlive
      rw [hd.server, setSession_eq hk]
      refine h.modifySession fun a ha htethered => ?_
      obtain rfl : session = a := Option.some.inj (hk.symm.trans ha)
      have hw := hs.wellFormed k session hk
      rcases effect?_cases hd.effect with ⟨-, rfl, rfl⟩ | ⟨hne, hevolves⟩
      · refine htethered.of_empty (fun hub hown => ?_) rfl
        obtain ⟨n, hn, -⟩ := hown
        simp [Session.after, Tree.node?, Tree.discard] at hn
      · have ha := (hevolves hw).advances
        have hi := (Tree.compositional_introduces root session.setting).effect hw hne hd.effect
        have hbefore := htethered.advance (hs.switchboard k session hk) hw ha hi.lineage
        refine hbefore.deliverAll ha.wellFormed fun e he c hec => ⟨?_, hi.stays e he c hec⟩
        exact ha.child_lt e he c (by rw [hec]; rfl)
  · exact h.tended (s.tended_step k hc)

lemma run (h : s.Tethered) (hs : s.Sound root) (cs : List (Nat × Command)) :
    (s.run cs).Tethered := by
  induction cs generalizing s with
  | nil => exact h
  | cons c rest ih => exact ih (h.step hs c.1 c.2) (hs.step c.1 c.2)

end Tethered

lemma tethered_start (setting : Setting) (root : TypeDef) (count : Nat) :
    (start setting root count).Tethered := by
  intro k a hk
  have ha : a = .start setting root := List.eq_of_mem_replicate (List.mem_of_getElem? hk)
  rw [ha]
  exact Switchboard.Tethered.empty _

end

end Server

end LiveQuery
