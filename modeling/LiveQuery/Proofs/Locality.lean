import LiveQuery.Proofs.Admission
import LiveQuery.Proofs.Flattening
import LiveQuery.Proofs.Histories
import LiveQuery.Proofs.Stages

/-!
# Local notices

Who is told of an operation. An accepted selection is told to the observers of the node below which it
goes and to nobody else, however much is nested in it. A removal is told to the observers of the nodes
that go and of their parent. Nobody is told of an operation that is refused. Always those are told who
are registered when the operation starts.
-/

namespace LiveQuery

/-- What a change has to do with a node, if anything: it adds a child below it, or it removes the node,
a child of it, or something above it. -/
def Change.Concerns (t : Tree) (id : NodeId) : Change → Prop
  | .add target _ => target = id
  | .delete target => target ≠ .root ∧ (t.Below target id ∨ t.parentOf target = some id)

namespace Switchboard

/-- The observers of a hub are told of an event, once each. -/
def alerts (b : Switchboard) (hub : HubId) (event : Event) : List Notice :=
  (b.hub hub).registrations.map fun r => ⟨⟨hub, r.id⟩, r.observer, event⟩

/-- The observer that is told something was registered as it says. -/
def Enlists (b : Switchboard) (x : Notice) : Prop :=
  ⟨x.subscription.id, x.observer⟩ ∈ (b.hub x.subscription.hub).registrations

section

variable {b : Switchboard} {n : Nat} {ps nested : List Publication} {x : Notice} {hub : HubId}

lemma mem_alerts {event : Event} :
    x ∈ b.alerts hub event ↔ x.subscription.hub = hub ∧ x.event = event ∧ b.Enlists x := by
  simp only [alerts, List.mem_map, Enlists]
  constructor
  · rintro ⟨r, hr, rfl⟩
    exact ⟨rfl, rfl, hr⟩
  · rintro ⟨rfl, rfl, hr⟩
    exact ⟨_, hr, rfl⟩

lemma Ordered.ascending_alerts (h : b.Ordered) (hub : HubId) (event : Event) :
    (b.alerts hub event).Pairwise fun x y => x.subscription.id < y.subscription.id :=
  List.pairwise_map.mpr (h hub).ascending

lemma alerts_congr {b' : Switchboard} (h : b'.hub hub = b.hub hub) (event : Event) :
    b'.alerts hub event = b.alerts hub event := by
  rw [alerts, alerts, h]

lemma deliverAll_removals (h : ∀ e ∈ ps, ∀ c, e.event ≠ .childAdded c) :
    (b.deliverAll ps).1 = ps.flatMap fun e => b.alerts e.hub e.event := by
  induction ps generalizing b with
  | nil => rfl
  | cons p rest ih =>
    have hhub : ∀ hub, (b.deliver p).2.hub hub = b.hub hub := fun hub =>
      hub_deliver (fun c hc => absurd hc (h p List.mem_cons_self c)) b
    have hrest := ih (b := (b.deliver p).2) fun e he => h e (List.mem_cons_of_mem _ he)
    simp only [alerts_congr (hhub _)] at hrest
    simp only [deliverAll, hrest]
    rfl

lemma filter_deliverAll (h : ∀ e ∈ ps, ∀ c, e.event ≠ .childAdded c) (hub : HubId) :
    (b.deliverAll ps).1.filter (·.subscription.hub = hub) =
      (eventsOn hub ps).flatMap (b.alerts hub) := by
  rw [deliverAll_removals h]
  clear h
  induction ps with
  | nil => rfl
  | cons p rest ih =>
    have hsplit : eventsOn hub (p :: rest) = eventsOn hub [p] ++ eventsOn hub rest :=
      eventsOn_append hub [p] rest
    rw [List.flatMap_cons, List.filter_append, ih, hsplit, List.flatMap_append, eventsOn_singleton]
    congr 1
    by_cases hp : p.hub = hub
    · simp [hp, alerts, List.filter_map, Function.comp_def]
    · simp [hp, alerts, List.filter_map, Function.comp_def]

lemma Sound.deliverAll_announcement (h : b.Sound n) (hnested : ∀ e ∈ nested, n ≤ e.hub.serial)
    (hub : HubId) (event : Event) :
    (b.deliverAll (nested ++ [⟨hub, event⟩])).1 = b.alerts hub event := by
  have hunattended : b.deliverAll nested = ([], b) :=
    deliverAll_of_unattended fun e he => h.within e.hub (hnested e he)
  rw [deliverAll_append, hunattended]
  simp [Switchboard.deliverAll, Switchboard.deliver, alerts]

lemma Sound.mem_deliverAll (h : b.Sound n) (hps : Unheard n ps) (hx : x ∈ (b.deliverAll ps).1) :
    b.Enlists x ∧ x.subscription.hub.serial < n ∧ ∃ e ∈ ps, e.hub = x.subscription.hub := by
  have hmem : b.Enlists x ∧ ∃ e ∈ ps, e.hub = x.subscription.hub := by
    rcases hps with hps | ⟨nested, last, rfl, hlast, hnested⟩
    · rw [deliverAll_removals hps] at hx
      obtain ⟨e, he, hx⟩ := List.mem_flatMap.mp hx
      obtain ⟨hhub, -, henlists⟩ := mem_alerts.mp hx
      exact ⟨henlists, e, he, hhub.symm⟩
    · cases last with
      | nil =>
        have hunattended : b.deliverAll nested = ([], b) :=
          deliverAll_of_unattended fun e he => h.within e.hub (hnested e he)
        rw [List.append_nil, hunattended] at hx
        cases hx
      | cons p rest =>
        obtain rfl : rest = [] := by simpa using hlast
        rw [h.deliverAll_announcement hnested] at hx
        obtain ⟨hhub, -, henlists⟩ := mem_alerts.mp hx
        exact ⟨henlists, p, by simp, hhub.symm⟩
  refine ⟨hmem.1, ?_, hmem.2⟩
  by_contra hlate
  have hnobody := h.within x.subscription.hub (by omega)
  have henlists := hmem.1
  rw [Enlists, hnobody] at henlists
  cases henlists

end

end Switchboard

namespace Tree

section

variable {root : TypeDef} {s : Setting} {t t' : Tree} {id p target : NodeId} {n m : Node}
  {sel : Selection} {ps : List Publication} {e : Publication}

lemma WellFormed.mem_dismantle (h : t.WellFormed root) (he : e ∈ (t.dismantle id).published) :
    t.Owns e.hub ∧ (t.Below id e.hub.node ∨ t.parentOf id = some e.hub.node) := by
  cases hn : t.node? id with
  | none =>
    rw [dismantle_of_absent hn] at he
    cases he
  | some n =>
    obtain ⟨b, rfl, hb, -, hpublished⟩ := h.dismantle_farewell hn
    rw [hpublished] at he
    have hown : t.Owns e.hub := by
      obtain ⟨x, k, hk, rfl⟩ | ⟨x, k, p, m, -, -, hm, rfl⟩ := mem_farewell he
      · exact owns_hub h hk
      · exact owns_hub h hm
    refine ⟨hown, ?_⟩
    have hevents := h.eventsOn_farewell b hown hb.holds hb.nodup fun p hp hmem =>
      h.not_below_child hp ((hb.mem_ids p).mp hmem)
    have hmem : e.event ∈ eventsOn e.hub (t.farewell b) :=
      List.mem_filterMap.mpr ⟨e, he, if_pos rfl⟩
    rw [hevents] at hmem
    split at hmem
    · next hin => exact .inl ((hb.mem_ids _).mp hin)
    · split at hmem
      · next hp => exact .inr hp
      · cases hmem

lemma WellFormed.eventsOn_dismantle (h : t.WellFormed root) (hn : t.node? id = some n)
    (hp : n.parent = some p) (hm : t.node? p = some m) :
    eventsOn m.hub (t.dismantle id).published = [.childRemoved n.asChild] := by
  obtain ⟨b, rfl, hb, -, hpublished⟩ := h.dismantle_farewell hn
  have hparent : t.parentOf b.id = some m.hub.node := by rw [parentOf_eq hn, hp, (h.hub hm).1]
  have hevents := h.eventsOn_farewell b (owns_hub h hm) hb.holds hb.nodup fun p hp hmem =>
    h.not_below_child hp ((hb.mem_ids p).mp hmem)
  have hnot : m.hub.node ∉ b.ids := fun hmem =>
    h.not_below_child hparent ((hb.mem_ids _).mp hmem)
  rw [hpublished, hevents, if_neg hnot, if_pos hparent, records_singleton hn]
  rfl

lemma WellFormed.published_add (h : t.WellFormed root) (hadd : t.add s target sel = ⟨.ok id, t', ps⟩) :
    ∃ m n nested, t.node? target = some m ∧ t.node? sel.id = none ∧ t'.node? sel.id = some n ∧
      n.field = sel.field ∧ ps = nested ++ [⟨m.hub, .childAdded n.asChild⟩] ∧
      ∀ e ∈ nested, t.nextHub ≤ e.hub.serial := by
  rcases sel with ⟨x, field, arguments, children⟩
  rcases hsprout : t.sprout s target x field arguments with ⟨e | k, u⟩
  · simp [Tree.add, Tree.grow, hsprout, Except.map] at hadd
  · obtain ⟨hx, hplants⟩ := sprout_plants h hsprout
    obtain ⟨_, _, _, _, _, hk, -⟩ := admits_of_sprout hsprout
    have hfield : k.field = field := by rw [hk, sprouted]
    obtain ⟨new, hnested⟩ := hplants.wellFormed.growsAll (s := s) k.id children
    rcases hgrow : growAll s x children (u.attach target k) with ⟨e | ⟨⟩, u', qs⟩
    · simp [Tree.add, Tree.grow, hsprout, hgrow, Except.map] at hadd
    · rw [hx, hgrow] at hnested
      simp only [Tree.add, Tree.grow, hsprout, hgrow, Transition.mk.injEq] at hadd
      obtain ⟨-, rfl, rfl⟩ := hadd
      obtain ⟨m, hm⟩ := hplants.parent_live
      obtain ⟨m', hm', -, hhub⟩ := (hplants.extends_nested (hx ▸ hnested)).kept hm
      have hlive := hnested.old x k (hx ▸ hplants.live)
      rw [if_pos rfl] at hlive
      refine ⟨m, _, qs, hm, hx ▸ hplants.absent, hlive, hfield, ?_, hplants.quiet_nested (hx ▸ hnested)⟩
      simp only [announcement, hm', hlive, hhub]

lemma Concerns.congr {c : Change} (h : c.Concerns t id) (hnodes : t'.nodes = t.nodes) :
    c.Concerns t' id := by
  have hparent : ∀ x, t'.parentOf x = t.parentOf x := fun x => by
    rw [parentOf, parentOf, node?_congr hnodes]
  cases c with
  | add target sel => exact h
  | delete target =>
    obtain ⟨hroot, hbelow | hp⟩ := h
    · exact ⟨hroot, .inl (hbelow.mono fun x q hq => (hparent x).trans hq)⟩
    · exact ⟨hroot, .inr ((hparent target).trans hp)⟩

lemma WellFormed.change_delete (h : t.WellFormed root)
    (happlied : (t.change s (.delete id)).result = .applied) :
    (t.change s (.delete id)).published = (t.dismantle id).published ∧
      ∃ n p m, t.node? id = some n ∧ n.parent = some p ∧ t.node? p = some m := by
  unfold change at happlied ⊢
  split at happlied
  · next hlive =>
    dsimp only at happlied
    split at happlied
    · cases happlied
    · next hroot =>
      rw [Change.target, contains_eq_isSome, Option.isSome_iff_exists] at hlive
      obtain ⟨n, hn⟩ := hlive
      have hne : id ≠ .root := fun heq => hroot (heq ▸ rfl)
      cases hp : n.parent with
      | none => exact absurd (h.eq_root hn hp) hne
      | some p =>
        obtain ⟨m, hm, -⟩ := h.parent_live hn hp
        refine ⟨?_, n, p, m, hn, hp, hm⟩
        simp [Change.target, contains_eq_isSome, hn, hroot]
  · cases happlied

lemma WellFormed.silent_change (h : t.WellFormed root) (c : Change)
    (hnot : (t.change s c).result ≠ .applied) :
    ∀ e ∈ (t.change s c).published, t.nextHub ≤ e.hub.serial := by
  unfold change at hnot ⊢
  split
  · next hlive =>
    rw [if_pos hlive] at hnot
    cases c with
    | add target sel =>
      have hgrow := h.grows (s := s) target sel
      rcases hg : t.grow s target sel with ⟨e | ⟨⟩, t', ps⟩
      · simp only [hg] at hgrow
        simpa [Tree.add, hg, Except.map] using hgrow.silent
      · simp [Tree.add, hg, Except.map] at hnot
    | delete target =>
      dsimp only at hnot ⊢
      split at hnot
      · next hroot => simp [hroot]
      · exact absurd rfl hnot
  · simp

/-- What a change publishes on hubs that were there before, it publishes on the hub of a node that it
has to do with. -/
lemma WellFormed.concerns_change (h : t.WellFormed root) (c : Change)
    (he : e ∈ (t.change s c).published) (hold : e.hub.serial < t.nextHub) :
    t.Owns e.hub ∧ c.Concerns t e.hub.node := by
  unfold change at he
  split at he
  · cases c with
    | add target sel =>
      have hpublished : e ∈ (t.add s target sel).published := by
        dsimp only at he
        split at he <;> exact he
      obtain ⟨new, hgrows⟩ := h.grows_add (s := s) target sel
      obtain hlate | ⟨m, hm, hhub⟩ := hgrows.quiet e hpublished
      · omega
      · rw [hhub]
        exact ⟨owns_hub h hm, (h.hub hm).1.symm⟩
    | delete target =>
      dsimp only at he
      split at he
      · cases he
      · next hroot =>
        obtain ⟨hown, hnear⟩ := h.mem_dismantle he
        exact ⟨hown, fun heq => hroot (heq ▸ rfl), hnear⟩
  · cases he

end

end Tree

namespace Server

/-- Who is told of the operations on the tree of session `a`, the `k`-th one, and of what. -/
structure Local (s : Server) (k : Nat) (a : Session) : Prop where
  /-- The observers of a hub are told in the order in which they subscribed. -/
  ascending : ∀ hub event,
    (a.switchboard.alerts hub event).Pairwise fun x y => x.subscription.id < y.subscription.id
  added : ∀ target sel id, (s.step k (.add target sel)).reply = .added id →
    ∃ (b : Session) (m n : Node), (s.step k (.add target sel)).server.sessions[k]? = some b ∧
      a.tree.node? target = some m ∧ a.tree.node? sel.id = none ∧ b.tree.node? sel.id = some n ∧
      (s.step k (.add target sel)).notices =
        a.switchboard.alerts m.hub (.childAdded ⟨sel.id, sel.field, n.hub⟩)
  removed : ∀ id, (s.step k (.remove id)).reply = .removed → ∃ n p m, a.tree.node? id = some n ∧
    n.parent = some p ∧ a.tree.node? p = some m ∧
    (s.step k (.remove id)).notices.filter (·.subscription.hub = m.hub) =
      a.switchboard.alerts m.hub (.childRemoved ⟨id, n.field, n.hub⟩) ∧
    ∀ x ∈ (s.step k (.remove id)).notices, a.switchboard.Enlists x ∧
      a.tree.Owns x.subscription.hub ∧
      (x.subscription.hub = m.hub ∨ a.tree.Below id x.subscription.hub.node)
  failed : ∀ c : Change, ¬ (s.step k c.command).reply.accepts → (s.step k c.command).notices = []
  /-- A batch goes from a cut of it that nobody is told of to the whole of it. -/
  whole : ∀ batch : Batch, (s.step k ((Command.apply batch).cut 0)).notices = [] ∧
    (Command.apply batch).cut batch.changes.length = .apply batch
  /-- One change more in a batch is told to observers of nodes it has to do with. -/
  batch : ∀ (batch : Batch) (i : Nat) (c : Change), batch.changes[i]? = some c →
    ∃ (b : Session) (told : List Notice),
      (s.step k ((Command.apply batch).cut i)).server.sessions[k]? = some b ∧
      (s.step k ((Command.apply batch).cut (i + 1))).notices =
        (s.step k ((Command.apply batch).cut i)).notices ++ told ∧
      ∀ x ∈ told, b.switchboard.Enlists x ∧ b.tree.Owns x.subscription.hub ∧
        c.Concerns b.tree x.subscription.hub.node

section

variable {root : TypeDef} {s : Server} {k : Nat} {a : Session} {target id : NodeId}
  {sel : Selection}

lemma notices_of_live (hk : s.sessions[k]? = some a) (hlive : a.tree.isLive) {c : Command} {t : Tree}
    {ps : List Publication} (heffect : c.effect? a.setting a.tree = some (t, ps)) :
    (s.step k c).notices = (a.switchboard.deliverAll ps).1 := by
  rw [notices_eq hk, publishes_of_live hk hlive heffect]

lemma step_change_of_dead (hk : s.sessions[k]? = some a) (hdead : ¬ a.tree.isLive) (c : Change) :
    s.step k c.command = ⟨.refused .noTree, [], s⟩ := by
  have hsession : s.live? k = .error .noTree := by simp [live?, session?, hk, hdead]
  cases c <;> simp only [Change.command, step, onTree, hsession]

lemma live_of_accepts (hk : s.sessions[k]? = some a) {c : Change}
    (haccepts : (s.step k c.command).reply.accepts) : a.tree.isLive := by
  by_contra hdead
  rw [step_change_of_dead hk hdead] at haccepts
  cases haccepts

lemma Sound.notices_added (hs : s.Sound root) (hk : s.sessions[k]? = some a)
    (hreply : (s.step k (.add target sel)).reply = .added id) :
    ∃ (b : Session) (m n : Node), (s.step k (.add target sel)).server.sessions[k]? = some b ∧
      a.tree.node? target = some m ∧ a.tree.node? sel.id = none ∧ b.tree.node? sel.id = some n ∧
      (s.step k (.add target sel)).notices =
        a.switchboard.alerts m.hub (.childAdded ⟨sel.id, sel.field, n.hub⟩) := by
  have hw := hs.wellFormed k a hk
  have hlive := live_of_accepts hk (c := .add target sel) (by rw [Change.command, hreply]; rfl)
  rcases hadd : a.tree.add a.setting target sel with ⟨e | x, t, ps⟩
  · rw [step_add_error hk hlive (by rw [hadd])] at hreply
    cases hreply
  · have ht := (hw.evolves_add (s := a.setting) target sel).wellFormed
    rw [hadd] at ht
    obtain ⟨m, n, nested, hm, habsent, hn, hfield, rfl, hnested⟩ := hw.published_add hadd
    have hnotices := notices_of_live hk hlive (c := .add target sel)
      (by rw [Command.effect?, hadd])
    rw [(hs.switchboard k a hk).deliverAll_announcement hnested] at hnotices
    refine ⟨a.after t (nested ++ [⟨m.hub, .childAdded n.asChild⟩]), m, n, ?_, hm, habsent, hn, ?_⟩
    · rw [(step_add_ok hk hlive hadd).2]
      exact getElem?_setSession hk _
    · rw [hnotices, ← hfield, ← ht.id_eq hn]
      rfl

lemma Sound.notices_removed (hs : s.Sound root) (hk : s.sessions[k]? = some a)
    (hreply : (s.step k (.remove id)).reply = .removed) : ∃ n p m, a.tree.node? id = some n ∧
      n.parent = some p ∧ a.tree.node? p = some m ∧
      (s.step k (.remove id)).notices.filter (·.subscription.hub = m.hub) =
        a.switchboard.alerts m.hub (.childRemoved ⟨id, n.field, n.hub⟩) ∧
      ∀ x ∈ (s.step k (.remove id)).notices, a.switchboard.Enlists x ∧
        a.tree.Owns x.subscription.hub ∧
        (x.subscription.hub = m.hub ∨ a.tree.Below id x.subscription.hub.node) := by
  have hw := hs.wellFormed k a hk
  have hlive := live_of_accepts hk (c := .delete id) (by rw [Change.command, hreply]; rfl)
  obtain ⟨-, hnotices, hverdict, -⟩ := step_change hw hk hlive (.delete id)
  rw [Change.command] at hnotices hverdict
  rw [hreply] at hverdict
  obtain ⟨hpublished, n, p, m, hn, hp, hm⟩ := hw.change_delete hverdict.symm
  rw [hpublished] at hnotices
  have hunheard := Tree.unheard_dismantle a.tree id a.tree.nextHub
  refine ⟨n, p, m, hn, hp, hm, ?_, fun x hx => ?_⟩
  · rw [hnotices, Switchboard.filter_deliverAll (Tree.removals_dismantle a.tree id),
      hw.eventsOn_dismantle hn hp hm, List.flatMap_singleton, ← hw.id_eq hn]
    rfl
  · rw [hnotices] at hx
    obtain ⟨henlists, -, e, he, hhub⟩ := (hs.switchboard k a hk).mem_deliverAll hunheard hx
    obtain ⟨hown, hnear⟩ := hw.mem_dismantle he
    rw [hhub] at hown hnear
    refine ⟨henlists, hown, hnear.symm.imp_left fun hparent => ?_⟩
    obtain ⟨m', hm', heq⟩ := hown
    rw [Tree.parentOf_eq hn, hp, Option.some.injEq] at hparent
    rw [← hparent, hm] at hm'
    cases hm'
    exact heq.symm

lemma Sound.notices_failed (hs : s.Sound root) (hk : s.sessions[k]? = some a) {c : Change}
    (hreply : ¬ (s.step k c.command).reply.accepts) : (s.step k c.command).notices = [] := by
  have hw := hs.wellFormed k a hk
  by_cases hlive : a.tree.isLive
  · obtain ⟨-, hnotices, hverdict, hanswered⟩ := step_change hw hk hlive c
    have hnot : (a.tree.change a.setting c).result ≠ .applied := by
      rw [← hverdict]
      exact fun h => hreply ((Reply.verdict_eq_applied_iff hanswered).mp h)
    rw [hnotices, Switchboard.deliverAll_of_unattended fun e he =>
      (hs.switchboard k a hk).within e.hub (hw.silent_change c hnot e he)]
  · rw [step_change_of_dead hk hlive]

lemma step_apply_of_dead (hk : s.sessions[k]? = some a) (hdead : ¬ a.tree.isLive) (batch : Batch) :
    (s.step k (.apply batch)).server = s ∧ (s.step k (.apply batch)).notices = [] :=
  step_of_dead rfl fun b hb => by
    obtain rfl := Option.some.inj (hk.symm.trans hb)
    exact hdead

lemma notices_cut_zero (hk : s.sessions[k]? = some a) (batch : Batch) :
    (s.step k ((Command.apply batch).cut 0)).notices = [] := by
  rw [Command.cut, List.take_zero]
  by_cases hlive : a.tree.isLive
  · rw [step_apply hk hlive ⟨batch.assignments, []⟩ rfl rfl]
    rfl
  · exact (step_apply_of_dead hk hlive _).2

/-- One change more in a batch is made on the tree that is left before it, not swept yet. -/
lemma Sound.cut_succ (hs : s.Sound root) (hk : s.sessions[k]? = some a) (hlive : a.tree.isLive)
    (batch : Batch) {i : Nat} {c : Change} (hc : batch.changes[i]? = some c) :
    ∃ (b : Session) (t : Tree),
      (s.step k ((Command.apply batch).cut i)).server.sessions[k]? = some b ∧
      t.WellFormed root ∧ b.tree = { t with bindings := t.bindings.sweep.2 } ∧
      s.publishes k k ((Command.apply batch).cut (i + 1)) =
        s.publishes k k ((Command.apply batch).cut i) ++ (t.change a.setting c).published ∧
      (s.step k ((Command.apply batch).cut (i + 1))).notices =
        (s.step k ((Command.apply batch).cut i)).notices ++
          (b.switchboard.deliverAll (t.change a.setting c).published).1 := by
  obtain ⟨a', ha'⟩ : ∃ a', a' = a.withBindings (a.tree.bindings.putAll batch.assignments) := ⟨_, rfl⟩
  have hw := (hs.wellFormed k a hk).withBindings ha'
  have hsetting : a'.setting = a.setting := by rw [ha']; rfl
  have hswitchboard : a'.switchboard = a.switchboard := by rw [ha']; rfl
  obtain ⟨r, hr⟩ : ∃ r, r = a'.tree.changeAll a'.setting 0 (batch.changes.take i) := ⟨_, rfl⟩
  have hevolves := hw.evolves_changeAll (s := a'.setting) 0 (batch.changes.take i)
  rw [← hr] at hevolves
  have hpublishes : ∀ j, s.publishes k k ((Command.apply batch).cut j) =
      (a'.tree.changeAll a'.setting 0 (batch.changes.take j)).published := fun j =>
    publishes_of_live hk hlive (by rw [ha']; rfl)
  have htake : batch.changes.take (i + 1) = batch.changes.take i ++ [c] := by
    rw [List.take_add_one, hc]
    rfl
  have hnext : s.publishes k k ((Command.apply batch).cut (i + 1)) =
      s.publishes k k ((Command.apply batch).cut i) ++ (r.tree.change a.setting c).published := by
    rw [hpublishes, hpublishes, htake,
      (Tree.changeAll_append a'.setting 0 (batch.changes.take i) [c] a'.tree).2, ← hr, ← hsetting]
    simp [Tree.changeAll]
  have hstep := step_apply hk hlive ⟨batch.assignments, batch.changes.take i⟩ ha' hr
  refine ⟨(a'.after r.tree r.published).withBindings r.tree.bindings.sweep.2, r.tree, ?_,
    hevolves.wellFormed, rfl, hnext, ?_⟩
  · rw [Command.cut, hstep]
    exact getElem?_setSession hk _
  · rw [notices_eq hk, notices_eq hk, hnext, Switchboard.deliverAll_append, hpublishes, ← hr,
      ← hswitchboard]
    rfl

lemma Sound.notices_batch (hs : s.Sound root) (hk : s.sessions[k]? = some a) (batch : Batch) {i : Nat}
    {c : Change} (hc : batch.changes[i]? = some c) : ∃ (b : Session) (told : List Notice),
      (s.step k ((Command.apply batch).cut i)).server.sessions[k]? = some b ∧
      (s.step k ((Command.apply batch).cut (i + 1))).notices =
        (s.step k ((Command.apply batch).cut i)).notices ++ told ∧
      ∀ x ∈ told, b.switchboard.Enlists x ∧ b.tree.Owns x.subscription.hub ∧
        c.Concerns b.tree x.subscription.hub.node := by
  by_cases hlive : a.tree.isLive
  · obtain ⟨b, t, hb, ht, htree, -, hnotices⟩ := hs.cut_succ hk hlive batch hc
    refine ⟨b, _, hb, hnotices, fun x hx => ?_⟩
    have hswitchboard := (hs.step k ((Command.apply batch).cut i)).switchboard k b hb
    rw [htree] at hswitchboard ⊢
    obtain ⟨henlists, hlt, e, he, hhub⟩ := hswitchboard.mem_deliverAll (ht.unheard_change c) hx
    rw [← hhub] at hlt ⊢
    obtain ⟨hown, hconcerns⟩ := ht.concerns_change c he hlt
    exact ⟨henlists, hown, Tree.Concerns.congr hconcerns rfl⟩
  · obtain ⟨hserver, hnotices⟩ := step_apply_of_dead hk hlive ⟨batch.assignments, batch.changes.take i⟩
    obtain ⟨-, hnotices'⟩ :=
      step_apply_of_dead hk hlive ⟨batch.assignments, batch.changes.take (i + 1)⟩
    refine ⟨a, [], ?_, ?_, by simp⟩
    · rw [Command.cut, hserver, hk]
    · rw [Command.cut, Command.cut, hnotices, hnotices', List.append_nil]

end

/-- Whatever happened before and whoever subscribed to what, notices are local: an operation is told
to observers of the nodes it has to do with, and to no others. -/
theorem notices_local (setting : Setting) (root : TypeDef) (count : Nat) (cs : List (Nat × Command))
    (k : Nat) (a : Session) (hk : ((start setting root count).run cs).sessions[k]? = some a) :
    ((start setting root count).run cs).Local k a where
  ascending := ((sound_run setting root count cs).switchboard k a hk).ordered.ascending_alerts
  added _ _ _ := (sound_run setting root count cs).notices_added hk
  removed _ := (sound_run setting root count cs).notices_removed hk
  failed _ := (sound_run setting root count cs).notices_failed hk
  whole batch := ⟨notices_cut_zero hk batch, by rw [Command.cut, List.take_length]⟩
  batch batch _ _ := (sound_run setting root count cs).notices_batch hk batch

namespace Sample

/-- A child with a child of its own. -/
def nested : Selection where
  id := ⟨2⟩
  field := "friend"
  children := [{ id := ⟨3⟩, field := "name" }]

end Sample

theorem notices_local_nested : ∃ (a : Session) (m n : Node),
    ((start Sample.setting Sample.person 1).run Sample.watched).sessions[0]? = some a ∧
    ((start Sample.setting Sample.person 1).run Sample.watched).Local 0 a ∧
    (((start Sample.setting Sample.person 1).run Sample.watched).step 0
      (.add .root Sample.nested)).reply = .added ⟨2⟩ ∧
    a.tree.node? .root = some m ∧
    (((start Sample.setting Sample.person 1).run Sample.watched).step 0
      (.add .root Sample.nested)).notices =
        a.switchboard.alerts m.hub (.childAdded ⟨⟨2⟩, "friend", n.hub⟩) ∧
    (((start Sample.setting Sample.person 1).run Sample.watched).step 0
      (.add .root Sample.nested)).notices.map (·.observer) = [.follower "all" ⟨⟨0, .root⟩, 0⟩] := by
  have hstart : (((start Sample.setting Sample.person 1).run Sample.watched).sessions[0]?).map
      (·.tree.isLive) = some true := by cbv
  obtain ⟨a, hk, -⟩ := Option.map_eq_some_iff.mp hstart
  have hlocal := notices_local Sample.setting Sample.person 1 Sample.watched 0 a hk
  have hreply : (((start Sample.setting Sample.person 1).run Sample.watched).step 0
      (.add .root Sample.nested)).reply = .added ⟨2⟩ := by cbv
  obtain ⟨b, m, n, -, hm, -, -, hnotices⟩ := hlocal.added .root Sample.nested ⟨2⟩ hreply
  have hobserver : (((start Sample.setting Sample.person 1).run Sample.watched).step 0
      (.add .root Sample.nested)).notices.map (·.observer) =
        [.follower "all" ⟨⟨0, .root⟩, 0⟩] := by cbv
  exact ⟨a, m, n, hk, hlocal, hreply, hm, hnotices, hobserver⟩

end Server

end LiveQuery
