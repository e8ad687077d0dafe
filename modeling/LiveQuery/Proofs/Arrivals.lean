import LiveQuery.Proofs.Deletions
import LiveQuery.Proofs.Dismissals
import LiveQuery.Proofs.Hearing
import LiveQuery.Proofs.Locality
import LiveQuery.Proofs.Replays

/-!
# Arrivals

Nodes come into a tree by selections that are accepted, one at the top of each, the others nested in
it. All are announced, but what is nested is announced on hubs that nobody can know yet. So a follower
gets to a node at the top if it is at the hub of the parent, and never gets to a node that was nested.
-/

namespace LiveQuery

/-- An accepted selection: the tree before it, the tree that has all of it, and the id of the node at
the top. -/
structure Arrival where
  before : Tree
  after : Tree
  top : NodeId

namespace Arrival

/-- The hub belongs to the node at the top. -/
def Tops (arrival : Arrival) (hub : HubId) : Prop :=
  ∃ n, arrival.after.node? arrival.top = some n ∧ n.hub = hub

/-- The hub belongs to a node that came with the one at the top, nested in the selection. -/
def Nests (arrival : Arrival) (hub : HubId) : Prop :=
  ∃ x n, x ≠ arrival.top ∧ arrival.before.node? x = none ∧ arrival.after.node? x = some n ∧
    n.hub = hub

end Arrival

/-- The hub belongs to a node that was at the top when it arrived. -/
def Topped (arrivals : List Arrival) (hub : HubId) : Prop := ∃ arrival ∈ arrivals, arrival.Tops hub

/-- The hub belongs to a node that was nested when it arrived. -/
def Nested (arrivals : List Arrival) (hub : HubId) : Prop := ∃ arrival ∈ arrivals, arrival.Nests hub

namespace Tree

/-- The arrival of a selection, if it is accepted. -/
def arrivals (s : Setting) (target : NodeId) (selection : Selection) (t : Tree) : List Arrival :=
  match t.add s target selection with
  | ⟨.ok id, t', _⟩ => [⟨t, t', id⟩]
  | ⟨.error _, _, _⟩ => []

def changeArrivals (s : Setting) (c : Change) (t : Tree) : List Arrival :=
  if t.contains c.target then
    match c with
    | .add target selection => t.arrivals s target selection
    | .delete _ => []
  else []

def changeAllArrivals (s : Setting) : List Change → Tree → List Arrival
  | [], _ => []
  | c :: rest, t => t.changeArrivals s c ++ changeAllArrivals s rest (t.change s c).tree

def addChainArrivals (s : Setting) (field : String) : Nat → NodeId → NodeId → Tree → List Arrival
  | 0, _, _, _ => []
  | count + 1, target, first, t =>
    match t.add s target { id := first, field } with
    | ⟨.error _, _, _⟩ => []
    | ⟨.ok id, t', _⟩ => ⟨t, t', id⟩ :: addChainArrivals s field count id id.next t'

end Tree

/-- What arrives when a command is carried out on a tree. -/
def Command.arrivals (s : Setting) (t : Tree) : Command → List Arrival
  | .apply batch =>
    { t with bindings := t.bindings.putAll batch.assignments }.changeAllArrivals s batch.changes
  | .add target selection => t.arrivals s target selection
  | .addChain target first count field => t.addChainArrivals s field count target first
  | _ => []

namespace Server

/-- What arrives in the tree of session `k` when a command is sent to session `j`. -/
def arrives (s : Server) (k j : Nat) (c : Command) : List Arrival :=
  match s.live? k with
  | .ok a => if j = k then c.arrivals a.setting a.tree else []
  | .error _ => []

/-- All that arrives in the tree of session `k` while commands are carried out, in order. -/
def arrivals (s : Server) (k : Nat) : List (Nat × Command) → List Arrival
  | [] => []
  | (j, c) :: rest => s.arrives k j c ++ (s.step j c).server.arrivals k rest

end Server

/-- The observers that belong to `origin` are on the hub of the root once, and on the hub of any other
node as often as on the hub of its parent if the node was at the top when it arrived, but never if it
was nested. -/
structure Followed (origin : Subscription) (arrivals : List Arrival) (past : List Publication)
    (t : Tree) (b : Switchboard) : Prop where
  root : t.isLive → b.followers origin ⟨0, .root⟩ = 1
  came : ∀ hub, ∀ c ∈ t.family hub, Topped arrivals c.hub ∨ Nested arrivals c.hub
  topped : ∀ hub, ∀ c ∈ t.family hub, Topped arrivals c.hub →
    b.followers origin c.hub = b.followers origin hub
  nested : ∀ hub, Nested arrivals hub → b.followers origin hub = 0 ∧ ¬ Topped arrivals hub ∧
    ∃ e ∈ past, ∃ c, e.event = .childAdded c ∧ c.hub = hub
  given : ∀ hub, Topped arrivals hub ∨ Nested arrivals hub → hub.serial < t.nextHub

section

variable {root : TypeDef} {s : Setting} {t t' t'' : Tree} {b b' : Switchboard} {n : Node}
  {id target x : NodeId} {sel : Selection} {hub : HubId} {c : Child} {origin : Subscription}
  {arrivals later : List Arrival} {past ps qs : List Publication} {arrival : Arrival}

lemma topped_append : Topped (arrivals ++ later) hub ↔ Topped arrivals hub ∨ Topped later hub := by
  simp only [Topped, List.mem_append, or_and_right, exists_or]

lemma nested_append : Nested (arrivals ++ later) hub ↔ Nested arrivals hub ∨ Nested later hub := by
  simp only [Nested, List.mem_append, or_and_right, exists_or]

@[simp] lemma topped_singleton : Topped [arrival] hub ↔ arrival.Tops hub := by simp [Topped]

@[simp] lemma nested_singleton : Nested [arrival] hub ↔ arrival.Nests hub := by simp [Nested]

namespace Tree

lemma grows_of_add (h : t.WellFormed root) (hadd : t.add s target sel = ⟨.ok id, t', ps⟩) :
    Grows root t target [sel.id] ps t' := by
  have hgrows := h.grows (s := s) target sel
  rw [(grow_of_add hadd).1] at hgrows
  exact hgrows.1

lemma WellFormed.announced_add (h : t.WellFormed root)
    (hadd : t.add s target sel = ⟨.ok id, t', ps⟩) (hx : t.node? x = none)
    (hn : t'.node? x = some n) : ∃ e ∈ ps, e.event = .childAdded n.asChild := by
  have hgrows := grows_of_add h hadd
  have hw' := hgrows.wellFormed
  obtain ⟨m, hm⟩ : ∃ m, t.node? target = some m := by
    obtain ⟨m, -, -, hm, -⟩ := h.published_add hadd
    exact ⟨m, hm⟩
  have hroot : x ≠ .root := by
    rintro rfl
    obtain ⟨r, hr⟩ := h.root_live hm
    rw [hx] at hr
    cases hr
  obtain ⟨hub, hmem⟩ := hw'.exists_family hn hroot
  have hhub : t.Owns hub ∨ t.nextHub ≤ hub.serial := by
    by_cases hlate : t.nextHub ≤ hub.serial
    · exact .inr hlate
    · exact .inl ((hgrows.evolves h).advances.owns hub (owns_of_mem_family hmem) (by omega))
  have hchronicles := (compositional_chronicles root s).add h target sel
  rw [hadd] at hchronicles
  obtain ⟨life, hlife, -, hliving, -⟩ := hchronicles.lives hub hhub
  rw [hliving (owns_of_mem_family hmem)] at hlife
  obtain hold | hadded := Life.mem_of_living_after hlife hmem
  · obtain ⟨-, k, hk, -⟩ := h.mem_family hold
    have hid : n.asChild.id = x := hw'.id_eq hn
    rw [hid, hx] at hk
    cases hk
  · obtain ⟨e, he, hevent⟩ := List.mem_filterMap.mp hadded
    refine ⟨e, he, ?_⟩
    split at hevent
    · exact Option.some.inj hevent
    · cases hevent

lemma WellFormed.nests (h : t.WellFormed root) (hadd : t.add s target sel = ⟨.ok id, t', ps⟩)
    (hn : t'.node? id = some n) (hnests : (⟨t, t', id⟩ : Arrival).Nests hub) :
    t.nextHub ≤ hub.serial ∧ hub.serial < t'.nextHub ∧ n.hub ≠ hub ∧
      ∃ e ∈ ps, ∃ c, e.event = .childAdded c ∧ c.hub = hub := by
  obtain ⟨x, k, hne, hx, hk, rfl⟩ := hnests
  have hgrows := grows_of_add h hadd
  have hw' := hgrows.wellFormed
  refine ⟨(hgrows.fresh x k hk hx).1, (hw'.hub hk).2, fun heq => hne ?_, ?_⟩
  · rw [← (hw'.hub hk).1, ← heq, (hw'.hub hn).1]
  · obtain ⟨e, he, hevent⟩ := h.announced_add hadd hx hk
    exact ⟨e, he, k.asChild, hevent, rfl⟩

lemma WellFormed.tops_or_nests (h : t.WellFormed root)
    (hadd : t.add s target sel = ⟨.ok id, t', ps⟩) (hc : c ∈ t'.family hub)
    (hlate : t.nextHub ≤ c.hub.serial) :
    (⟨t, t', id⟩ : Arrival).Tops c.hub ∨ (⟨t, t', id⟩ : Arrival).Nests c.hub := by
  have hgrows := grows_of_add h hadd
  obtain ⟨-, k, hk, rfl⟩ := hgrows.wellFormed.mem_family hc
  by_cases hid : k.asChild.id = id
  · exact .inl ⟨k, hid ▸ hk, rfl⟩
  · refine .inr ⟨_, k, hid, ?_, hk, rfl⟩
    cases hx : t.node? k.asChild.id with
    | none => rfl
    | some k₀ =>
      obtain ⟨k', hk', -, hhub⟩ := hgrows.kept hx
      obtain rfl : k = k' := Option.some.inj (hk.symm.trans hk')
      have hlt := (h.hub hx).2
      rw [← hhub] at hlt
      exact absurd hlate (Nat.not_le.mpr hlt)

/-- The observers on the hub of the parent come to the node at the top, and nobody to any other. -/
lemma WellFormed.followers_add (h : t.WellFormed root) (hb : b.Sound t.nextHub)
    (hadd : t.add s target sel = ⟨.ok id, t', ps⟩) : ∃ m n, t.node? target = some m ∧
      t'.node? id = some n ∧ t.nextHub ≤ n.hub.serial ∧ n.asChild ∈ t'.family m.hub ∧
      ∀ origin hub, (b.deliverAll ps).2.followers origin hub =
        b.followers origin hub + if n.hub = hub then b.followers origin m.hub else 0 := by
  obtain rfl := (grow_of_add hadd).2
  have hpresent := h.present_add hadd
  obtain ⟨m, n, nested, hm, habsent, hn, -, rfl, hnested⟩ := h.published_add hadd
  refine ⟨m, n, hm, hn, ((grows_of_add h hadd).fresh _ n hn habsent).1, ?_, fun origin hub =>
    hb.followers_announcement hnested m.hub n.asChild origin hub⟩
  obtain ⟨c, hevent, hc⟩ := hpresent ⟨m.hub, .childAdded n.asChild⟩ (by simp)
  cases hevent
  exact hc

end Tree

namespace Followed

lemma shrink (h : Followed origin arrivals past t b) (hlive : t'.isLive → t.isLive)
    (hfamily : ∀ hub, ∀ c ∈ t'.family hub, c ∈ t.family hub) (hnext : t.nextHub ≤ t'.nextHub)
    (hsame : ∀ hub, b'.followers origin hub = b.followers origin hub) (ps : List Publication) :
    Followed origin arrivals (past ++ ps) t' b' where
  root hroot := by rw [hsame, h.root (hlive hroot)]
  came hub c hc := h.came hub c (hfamily hub c hc)
  topped hub c hc htopped := by rw [hsame, hsame, h.topped hub c (hfamily hub c hc) htopped]
  nested hub hnested := by
    obtain ⟨hnobody, hnot, e, he, htold⟩ := h.nested hub hnested
    exact ⟨(hsame hub).trans hnobody, hnot, e, List.mem_append_left _ he, htold⟩
  given hub hhub := Nat.lt_of_lt_of_le (h.given hub hhub) hnext

/-- Once a selection has been accepted, its nodes are followed as they should be. -/
lemma arrive (h : Followed origin arrivals past t b) (hw : t.WellFormed root)
    (hb : b.Sound t.nextHub) (hadd : t.add s target sel = ⟨.ok id, t', ps⟩) :
    Followed origin (arrivals ++ [⟨t, t', id⟩]) (past ++ ps) t' (b.deliverAll ps).2 := by
  have hgrows := Tree.grows_of_add hw hadd
  have hw' := hgrows.wellFormed
  obtain ⟨m, n, hm, hn, hnlate, hmember, hcount⟩ := hw.followers_add hb hadd
  have hsame : ∀ hub, n.hub ≠ hub →
      (b.deliverAll ps).2.followers origin hub = b.followers origin hub := by
    intro hub hne
    rw [hcount, if_neg hne, Nat.add_zero]
  have hold : ∀ hub : HubId, hub.serial < t.nextHub →
      (b.deliverAll ps).2.followers origin hub = b.followers origin hub := by
    intro hub hlt
    refine hsame hub ?_
    rintro rfl
    omega
  have htops : ∀ hub, (⟨t, t', id⟩ : Arrival).Tops hub ↔ n.hub = hub := by
    simp [Arrival.Tops, hn]
  constructor
  case root =>
    intro _
    obtain ⟨r, hr⟩ := hw.root_live hm
    have hlt := (hw.hub hr).2
    rw [(hw.root_eq hr).2.2.2] at hlt
    rw [hold _ hlt, h.root (Tree.isLive_iff.mpr ⟨r, hr⟩)]
  case came =>
    intro hub c hc
    rw [topped_append, nested_append, topped_singleton, nested_singleton]
    by_cases hlt : c.hub.serial < t.nextHub
    · exact (h.came hub c (hgrows.lineage hw hub c hlt hc)).imp .inl .inl
    · exact (hw.tops_or_nests hadd hc (by omega)).imp .inr .inr
  case topped =>
    intro hub c hc htopped
    rw [topped_append, topped_singleton, htops] at htopped
    obtain htopped | heq := htopped
    · have hlt := h.given c.hub (.inl htopped)
      have hc' := hgrows.lineage hw hub c hlt hc
      rw [hold _ hlt, hold _ (hw.serial_lt (Tree.owns_of_mem_family hc')),
        h.topped hub c hc' htopped]
    · have hid : c.id = n.asChild.id := by
        rw [← (hw'.hub_of_mem_family hc).1, ← heq]
        exact (hw'.hub_of_mem_family hmember).1
      obtain ⟨-, rfl⟩ := hw'.family_unique hc hmember hid
      rw [hcount, if_pos heq, hold m.hub (hw.hub hm).2, ← heq, hb.followers_eq_zero hnlate,
        Nat.zero_add]
  case nested =>
    intro hub hnested
    rw [nested_append, nested_singleton] at hnested
    rw [topped_append, topped_singleton, htops]
    obtain hnested | hnests := hnested
    · have hlt := h.given hub (.inr hnested)
      obtain ⟨hnobody, hnot, e, he, htold⟩ := h.nested hub hnested
      refine ⟨(hold hub hlt).trans hnobody, ?_, e, List.mem_append_left _ he, htold⟩
      rintro (htopped | rfl)
      · exact hnot htopped
      · omega
    · obtain ⟨hlate, -, hne, e, he, htold⟩ := hw.nests hadd hn hnests
      refine ⟨(hsame hub hne).trans (hb.followers_eq_zero hlate origin), ?_, e,
        List.mem_append_right _ he, htold⟩
      rintro (htopped | heq)
      · have hlt := h.given hub (.inl htopped)
        omega
      · exact hne heq
  case given =>
    intro hub hhub
    rw [topped_append, nested_append, topped_singleton, nested_singleton, htops] at hhub
    rcases hhub with (htopped | rfl) | (hnested | hnests)
    · exact Nat.lt_of_lt_of_le (h.given hub (.inl htopped)) hgrows.nextHub_le
    · exact (hw'.hub hn).2
    · exact Nat.lt_of_lt_of_le (h.given hub (.inr hnested)) hgrows.nextHub_le
    · exact (hw.nests hadd hn hnests).2.1

end Followed

/-! ### Operations -/

namespace Tree

/-- From `t` to `t'` the observers come to what arrives as they should. -/
def Leads (t : Tree) (arrivals : List Arrival) (ps : List Publication) (t' : Tree) : Prop :=
  ∀ origin earlier past b, b.Sound t.nextHub → Followed origin earlier past t b →
    Followed origin (earlier ++ arrivals) (past ++ ps) t' (b.deliverAll ps).2

lemma leads_shrink (hlive : t'.isLive → t.isLive) (hfamily : ∀ hub, ∀ c ∈ t'.family hub, c ∈ t.family hub)
    (hnext : t.nextHub ≤ t'.nextHub)
    (hsame : ∀ b : Switchboard, b.Sound t.nextHub → ∀ hub, (b.deliverAll ps).2.hub hub = b.hub hub) :
    t.Leads [] ps t' := by
  intro origin earlier past b hb h
  rw [List.append_nil]
  exact h.shrink hlive hfamily hnext
    (fun hub => Switchboard.followers_congr (hsame b hb hub) origin) ps

lemma leads_of_nodes_eq (hnodes : t'.nodes = t.nodes) (hnext : t.nextHub ≤ t'.nextHub)
    (hps : ∀ e ∈ ps, t.nextHub ≤ e.hub.serial) : t.Leads [] ps t' := by
  refine leads_shrink (fun hlive => ?_) (fun hub c hc => ?_) hnext fun b hb hub => ?_
  · simpa only [isLive, contains, hnodes] using hlive
  · rwa [family_congr hnodes] at hc
  · rw [Switchboard.deliverAll_of_unattended fun e he => hb.within e.hub (hps e he)]

lemma leads_bindings (t : Tree) (b : Bindings) : t.Leads [] [] { t with bindings := b } :=
  leads_of_nodes_eq rfl (Nat.le_refl _) (by simp)

lemma leads_refl (t : Tree) : t.Leads [] [] t := t.leads_bindings t.bindings

lemma Leads.trans (h : t.Leads arrivals ps t') (he : Evolves root t ps t')
    (h' : t'.Leads later qs t'') : t.Leads (arrivals ++ later) (ps ++ qs) t'' := by
  intro origin earlier past b hb hf
  rw [Switchboard.deliverAll_append, ← List.append_assoc, ← List.append_assoc]
  exact h' origin _ _ _ ((hb.mono he.nextHub_le).deliverAll he.child_lt)
    (h origin earlier past b hb hf)

lemma leads_discard (t : Tree) : t.Leads [] [] t.discard := by
  have hnone : ∀ x, t.discard.node? x = none := fun x => by simp [node?, discard]
  refine leads_shrink (fun hlive => ?_) (fun hub c hc => ?_) (Nat.le_refl _) fun _ _ _ => rfl
  · obtain ⟨r, hr⟩ := isLive_iff.mp hlive
    rw [hnone] at hr
    cases hr
  · obtain ⟨n, hn, -⟩ := owns_of_mem_family hc
    rw [hnone] at hn
    cases hn

namespace WellFormed

lemma leads_add (h : t.WellFormed root) (target : NodeId) (sel : Selection) :
    t.Leads (t.arrivals s target sel) (t.add s target sel).published (t.add s target sel).tree := by
  rcases hadd : t.add s target sel with ⟨e | id, t', ps⟩
  · have hgrow := h.grows (s := s) target sel
    rcases hg : t.grow s target sel with ⟨e | ⟨⟩, u, qs⟩
    · simp only [hg] at hgrow
      simp only [Tree.add, hg, Transition.mk.injEq] at hadd
      obtain ⟨-, rfl, rfl⟩ := hadd
      simp only [arrivals, Tree.add, hg, Except.map]
      exact leads_of_nodes_eq hgrow.nodes_eq hgrow.nextHub_le hgrow.silent
    · simp [Tree.add, hg, Except.map] at hadd
  · simp only [arrivals, hadd]
    exact fun origin earlier past b hb hf => hf.arrive h hb hadd

lemma leads_dismantle (h : t.WellFormed root) (id : NodeId) :
    t.Leads [] (t.dismantle id).published (t.dismantle id).tree := by
  have hevolves := h.evolves_dismantle id
  have hnext : t.nextHub = (t.dismantle id).tree.nextHub := (nextHub_dismantle t id).symm
  refine leads_shrink (fun hlive => ?_) (fun hub c hc => ?_) (Nat.le_of_eq hnext)
    fun b _ hub => Switchboard.hub_deliverAll (removals_dismantle t id) b hub
  · obtain ⟨r, hr⟩ := isLive_iff.mp hlive
    have hlt := (hevolves.wellFormed.hub hr).2
    obtain ⟨m, hm, -⟩ := hevolves.hub_old .root r hr (hnext ▸ hlt)
    exact isLive_iff.mpr ⟨m, hm⟩
  · have hlt := hevolves.wellFormed.serial_lt (hevolves.wellFormed.hub_of_mem_family hc).2.1
    exact (h.introduces_dismantle id).lineage hub c (hnext ▸ hlt) hc

lemma leads_remove (h : t.WellFormed root) (id : NodeId) :
    t.Leads [] (t.remove id).published (t.remove id).tree := by
  unfold Tree.remove
  split
  · exact t.leads_refl
  · split
    · exact h.leads_dismantle id
    · exact t.leads_refl

lemma leads_change (h : t.WellFormed root) (c : Change) :
    t.Leads (t.changeArrivals s c) (t.change s c).published (t.change s c).tree := by
  unfold Tree.change changeArrivals
  split
  · cases c with
    | add target sel =>
      have hadd := h.leads_add (s := s) target sel
      dsimp only
      split <;> exact hadd
    | delete target =>
      dsimp only
      split
      · exact t.leads_refl
      · exact h.leads_dismantle target
  · exact t.leads_refl

lemma leads_changeAll (h : t.WellFormed root) (index : Nat) (cs : List Change) :
    t.Leads (t.changeAllArrivals s cs) (t.changeAll s index cs).published
      (t.changeAll s index cs).tree := by
  induction cs generalizing t index with
  | nil => exact t.leads_refl
  | cons c rest ih =>
    have hevolves := h.evolves_change (s := s) c
    exact (h.leads_change c).trans hevolves (ih hevolves.wellFormed (index + 1))

lemma leads_apply (h : t.WellFormed root) (batch : Batch) :
    t.Leads ((Command.apply batch).arrivals s t) (t.apply s batch).published
      (t.apply s batch).tree := by
  have hput := h.evolves_bindings fun _ hb => hb.putAll batch.assignments
  have hchange := hput.wellFormed.evolves_changeAll (s := s) 0 batch.changes
  have hmiddle := (t.leads_bindings _).trans hput
    (hput.wellFormed.leads_changeAll (s := s) 0 batch.changes)
  have hall : t.Leads _ _ (t.apply s batch).tree :=
    hmiddle.trans (hput.trans hchange) (leads_bindings _ _)
  simpa [Tree.apply, Command.arrivals] using hall

lemma leads_addChain (h : t.WellFormed root) (field : String) (count : Nat)
    (target first : NodeId) : t.Leads (t.addChainArrivals s field count target first)
      (t.addChain s field count target first).published
      (t.addChain s field count target first).tree := by
  induction count generalizing t target first with
  | zero => exact t.leads_refl
  | succ count ih =>
    have hevolves := h.evolves_add (s := s) target { id := first, field }
    have hadd := h.leads_add (s := s) target { id := first, field }
    unfold Tree.addChain addChainArrivals
    rw [arrivals] at hadd
    rcases hg : t.add s target { id := first, field } with ⟨e | id, t', ps⟩
    · rwa [hg] at hadd
    · rw [hg] at hevolves hadd
      exact hadd.trans hevolves (ih hevolves.wellFormed id id.next)

/-- In every operation observers come to what arrives as they should. -/
theorem leads_effect (h : t.WellFormed root) {c : Command}
    (heffect : c.effect? s t = some (t', ps)) : t.Leads (c.arrivals s t) ps t' := by
  cases c <;> simp only [Command.effect?, Option.some.injEq, Prod.mk.injEq, reduceCtorEq] at heffect
  case apply batch => exact heffect.1 ▸ heffect.2 ▸ h.leads_apply batch
  case add target sel => exact heffect.1 ▸ heffect.2 ▸ h.leads_add target sel
  case addChain target first count field =>
    exact heffect.1 ▸ heffect.2 ▸ h.leads_addChain field count target first
  case remove node => exact heffect.1 ▸ heffect.2 ▸ h.leads_remove node
  case teardown => exact heffect.1 ▸ heffect.2 ▸ h.leads_dismantle .root
  case discard => exact heffect.1 ▸ heffect.2 ▸ t.leads_discard

end WellFormed

end Tree

end

end LiveQuery
