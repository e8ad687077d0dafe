import LiveQuery.Proofs.Clearances

/-!
# Reversals

An accepted selection that is removed again leaves no trace: the nodes, the bindings and the observers
of the nodes that were there before are as they were. Those who observe the node below which it went
hear of it twice, that it came and that it went, and the hub they hear of is the same.
-/

namespace LiveQuery

namespace Switchboard

section

variable {b : Switchboard} {n : Nat} {nested : List Publication}

lemma Sound.hub_announcement (h : b.Sound n) (hnested : ∀ e ∈ nested, n ≤ e.hub.serial)
    (id : HubId) {c : Child} {hub : HubId} (hne : c.hub ≠ hub) :
    (b.deliverAll (nested ++ [⟨id, .childAdded c⟩])).2.hub hub = b.hub hub := by
  have hunattended : b.deliverAll nested = ([], b) :=
    deliverAll_of_unattended fun e he => h.within e.hub (hnested e he)
  rw [deliverAll_append, hunattended]
  refine hub_deliver (fun c' hc => ?_) b
  cases hc
  exact hne

end

end Switchboard

namespace Tree

section

variable {root : TypeDef} {s : Setting} {t u : Tree} {target id : NodeId} {sel : Selection}
  {m n : Node} {ps : List Publication} {out : List Reference}

namespace Accepts

variable (h : Accepts root s t target sel out u)
include h

/-- What was added goes when it is removed, and nothing else does. -/
theorem nodes_dismantle (hw : t.WellFormed root) (hm : t.node? target = some m)
    (hn : u.node? sel.id = some n) :
    (u.dismantle sel.id).tree.nodes = t.nodes := by
  have hclears := h.wellFormed.clears_dismantle h.accounts hn
  apply nodes_ext
  intro x
  cases hx : t.node? x with
  | some k =>
    have hout : ¬ u.Below sel.id x := h.toExtends.not_below hw h.absent_id hx
    rw [hclears.kept x _ (h.old x k hx) hout, h.parentOf_id hm]
    by_cases hxt : x = target
    · have hnot : sel.id ∉ k.children := by
        intro hmem
        obtain ⟨c, hc, -⟩ := hw.child_live hx hmem
        rw [h.absent_id] at hc
        cases hc
      simp [hxt, List.erase_append_right _ hnot]
    · have hxt' : ¬ target = x := fun heq => hxt heq.symm
      simp [hxt, hxt']
  | none =>
    rw [← Option.not_isSome_iff_eq_none, ← contains_eq_isSome, hclears.contains_iff]
    rintro ⟨hlive, hout⟩
    rw [contains_eq_isSome, Option.isSome_iff_exists] at hlive
    obtain ⟨k, hk⟩ := hlive
    obtain ⟨-, c, hc, hbelow⟩ := h.fresh x k hk hx
    obtain rfl := List.mem_singleton.mp hc
    exact hout hbelow

lemma bindings_dismantle (ha : t.Accounts out) (hw : t.WellFormed root)
    (hm : t.node? target = some m) (hn : u.node? sel.id = some n) : (u.dismantle sel.id).tree.bindings = t.bindings := by
  have hclears := h.wellFormed.clears_dismantle h.accounts hn
  have haccounts := (h.wellFormed.evolves_dismantle sel.id).accounts out h.accounts
  rw [Accounts, held_congr_nodes (h.nodes_dismantle hw hm hn)] at haccounts
  exact (Bindings.Exact.eq_of_sameValues ha haccounts (h.values.trans hclears.values)).symm

end Accepts

lemma WellFormed.told_dismantle (h : t.WellFormed root) (ha : t.Accounts out)
    (hadd : t.add s target sel = ⟨.ok id, u, ps⟩) : ∃ m n nested, t.node? target = some m ∧
      u.node? sel.id = some n ∧ ps = nested ++ [⟨m.hub, .childAdded n.asChild⟩] ∧
      (∀ e ∈ nested, t.nextHub ≤ e.hub.serial) ∧ t.nextHub ≤ n.hub.serial ∧
      n.asChild = ⟨sel.id, sel.field, n.hub⟩ ∧ sel.id ≠ .root ∧
      eventsOn m.hub ps = [.childAdded n.asChild] ∧
      eventsOn m.hub (u.dismantle sel.id).published = [.childRemoved n.asChild] := by
  have hu := h.accepts ha hadd
  obtain ⟨m, n, nested, hm, habsent, hn, hfield, rfl, hnested⟩ := h.published_add hadd
  obtain ⟨m', hm', -, hhub⟩ := hu.kept hm
  have hparent := (parentOf_eq hn).symm.trans (hu.parentOf_id hm)
  refine ⟨m, n, nested, hm, hn, rfl, hnested, (hu.fresh sel.id n hn habsent).1, ?_, ?_, ?_, ?_⟩
  · rw [Node.asChild, hu.wellFormed.id_eq hn, hfield]
  · rintro heq
    obtain ⟨r, hr⟩ := h.root_live hm
    rw [heq, hr] at habsent
    cases habsent
  · have hnone : eventsOn m.hub nested = [] := eventsOn_eq_nil fun e he heq => by
      have hold := (h.hub hm).2
      have hnew := hnested e he
      rw [heq] at hnew
      omega
    rw [eventsOn_append, hnone, eventsOn_singleton, if_pos rfl]
    rfl
  · rw [← hhub]
    exact hu.wellFormed.eventsOn_dismantle hn hparent hm'

end

end Tree

namespace Server

/-- An accepted addition to the tree of session `a`, the `k`-th one, is undone by removing the new node
again. -/
structure Reverts (s : Server) (k : Nat) (a : Session) (target : NodeId) (sel : Selection) (b : Session)
    (c : Child) : Prop where
  reply : ((s.step k (.add target sel)).server.step k (.remove sel.id)).reply = .removed
  /-- No other session and no handle has changed. -/
  server : ((s.step k (.add target sel)).server.step k (.remove sel.id)).server = s.setSession k b
  setting_eq : b.setting = a.setting
  nodes_eq : b.tree.nodes = a.tree.nodes
  bindings_eq : b.tree.bindings = a.tree.bindings
  /-- The hubs of the nodes that are there have the observers they had. -/
  hub_eq : ∀ hub, a.tree.Owns hub → b.switchboard.hub hub = a.switchboard.hub hub
  child_eq : c.id = sel.id ∧ c.field = sel.field
  told : ∀ m σ, a.tree.node? target = some m → σ.hub = m.hub → a.switchboard.Registered σ →
    told σ (s.step k (.add target sel)).notices = [.childAdded c] ∧
    told σ ((s.step k (.add target sel)).server.step k (.remove sel.id)).notices = [.childRemoved c]

section

variable {root : TypeDef} {s : Server} {k : Nat} {a : Session} {target id : NodeId} {sel : Selection}

lemma Sound.reverts (hs : s.Sound root) (hk : s.sessions[k]? = some a)
    (hreply : (s.step k (.add target sel)).reply = .added id) :
    id = sel.id ∧ ∃ b c, s.Reverts k a target sel b c := by
  have hw := hs.wellFormed k a hk
  have hb := hs.switchboard k a hk
  have hlive := live_of_accepts hk (c := .add target sel) (by rw [Change.command, hreply]; rfl)
  obtain ⟨u, ps, hadd, hserver⟩ := add_of_reply hk hlive hreply
  have hu := hw.accepts (hs.accounted k a hk) hadd
  have hlive' := hw.isLive_add (s := a.setting) hlive target sel
  rw [hadd] at hlive'
  obtain ⟨m, n, nested, hm, hn, hps, hnested, hnew, hchild, hroot, hadded, hremoved⟩ :=
    hw.told_dismantle (hs.accounted k a hk) hadd
  have hk' := getElem?_setSession hk (a.after u ps)
  rw [← hserver] at hk'
  obtain ⟨hreply', hserver'⟩ := step_remove_ok hk' hlive' hn hroot
  refine ⟨(Tree.grow_of_add hadd).2,
    (a.after u ps).after (u.dismantle sel.id).tree (u.dismantle sel.id).published, n.asChild, hreply',
    ?_, rfl, hu.nodes_dismantle hw hm hn,
    hu.bindings_dismantle (hs.accounted k a hk) hw hm hn, fun hub hown => ?_, ?_,
    fun m' σ hm' hσ hregistered => ?_⟩
  · rw [hserver', hserver, setSession_setSession]
    rfl
  · have hne : n.asChild.hub ≠ hub := by
      obtain ⟨x, hx, rfl⟩ := hown
      have hold := (hw.hub hx).2
      rintro heq
      rw [← heq] at hold
      exact absurd hnew (Nat.not_le_of_lt hold)
    exact (Switchboard.hub_deliverAll (Tree.removals_dismantle u sel.id) _ hub).trans
      (hps ▸ hb.hub_announcement hnested m.hub hne)
  · rw [hchild]
    exact ⟨rfl, rfl⟩
  · obtain rfl := Option.some.inj (hm.symm.trans hm')
    have hgrown := Switchboard.deliverAll_grown a.switchboard ps
    have hfirst := notices_of_live hk hlive (c := .add target sel) (by rw [Command.effect?, hadd])
    have hremove : (Command.remove sel.id).effect? a.setting u =
        some ((u.dismantle sel.id).tree, (u.dismantle sel.id).published) := by
      rw [Command.effect?, Tree.remove_eq hn hroot]
    have hsecond := notices_of_live hk' hlive' hremove
    rw [hfirst, hsecond, hb.ordered.told_deliverAll hregistered, hσ, hadded]
    refine ⟨rfl, ?_⟩
    have htold := (hb.ordered.deliverAll ps).told_deliverAll (hgrown.registered hregistered)
      (u.dismantle sel.id).published
    rw [hσ, hremoved] at htold
    exact htold

end

/-- Whatever happened before, an accepted addition is undone by removing what was added, and those who
observe the target hear that it came and that it went. -/
theorem addition_reverted (setting : Setting) (root : TypeDef) (count : Nat)
    (cs : List (Nat × Command)) (k : Nat) (a : Session)
    (hk : ((start setting root count).run cs).sessions[k]? = some a) (target id : NodeId)
    (sel : Selection)
    (hreply : (((start setting root count).run cs).step k (.add target sel)).reply = .added id) :
    id = sel.id ∧ ∃ b c, ((start setting root count).run cs).Reverts k a target sel b c :=
  (sound_run setting root count cs).reverts hk hreply

namespace Sample

/-- Two children below each other, with one argument name twice and several arguments on one
variable. -/
def tangled : Selection where
  id := ⟨2⟩
  field := "friend"
  arguments := [⟨"since", year⟩, ⟨"since", year⟩, ⟨"until", year⟩]
  children := [{ id := ⟨3⟩, field := "name", arguments := [⟨"since", year⟩] }]

end Sample

theorem addition_reverted_tangled : ∃ (a b : Session) (c : Child),
    ((start Sample.setting Sample.person 1).run Sample.watched).sessions[0]? = some a ∧
    (((start Sample.setting Sample.person 1).run Sample.watched).step 0
      (.add .root Sample.tangled)).reply = .added ⟨2⟩ ∧
    ((start Sample.setting Sample.person 1).run Sample.watched).Reverts 0 a .root Sample.tangled b c ∧
    a.tree.bindings.count? Sample.year = some 1 ∧
    ((((start Sample.setting Sample.person 1).run Sample.watched).step 0
      (.add .root Sample.tangled)).server.sessions[0]?).bind
        (·.tree.bindings.count? Sample.year) = some 4 ∧
    told ⟨⟨0, .root⟩, 0⟩ (((start Sample.setting Sample.person 1).run Sample.watched).step 0
      (.add .root Sample.tangled)).notices = [.childAdded c] := by
  have hstart : (((start Sample.setting Sample.person 1).run Sample.watched).sessions[0]?).map
      (fun a => (a.tree.bindings.count? Sample.year, (a.tree.node? .root).map (·.hub),
        decide (a.switchboard.Registered ⟨⟨0, .root⟩, 0⟩))) =
        some (some 1, some ⟨0, .root⟩, true) := by cbv
  obtain ⟨a, hk, hstart⟩ := Option.map_eq_some_iff.mp hstart
  obtain ⟨hcount, hstart⟩ := Prod.mk.inj hstart
  obtain ⟨hroot, hregistered⟩ := Prod.mk.inj hstart
  obtain ⟨m, hm, hhub⟩ := Option.map_eq_some_iff.mp hroot
  have hreply : (((start Sample.setting Sample.person 1).run Sample.watched).step 0
      (.add .root Sample.tangled)).reply = .added ⟨2⟩ := by cbv
  obtain ⟨-, b, c, hreverts⟩ := addition_reverted Sample.setting Sample.person 1 Sample.watched 0 a hk
    .root ⟨2⟩ Sample.tangled hreply
  obtain ⟨htold, -⟩ := hreverts.told m ⟨⟨0, .root⟩, 0⟩ hm hhub.symm (of_decide_eq_true hregistered)
  exact ⟨a, b, c, hk, hreply, hreverts, hcount, by cbv, htold⟩

end Server

end LiveQuery
