import LiveQuery.Proofs.Lives

/-!
# Announced children

What hubs tell about children is true when they tell it. A child is announced once, with a hub that was
never given out before, on the hub of the node below which it was put, and stays there as long as its own
hub belongs to a live node. So the hubs of a tree form a tree of their own, in which nothing ever moves.
-/

namespace LiveQuery

/-- The child an event announces, if it does. -/
def Event.added? : Event → Option Child
  | childAdded c => some c
  | _ => none

/-- The children that are announced, in order. -/
def announced (ps : List Publication) : List Child := ps.filterMap (·.event.added?)

lemma announced_append (ps qs : List Publication) :
    announced (ps ++ qs) = announced ps ++ announced qs :=
  List.filterMap_append

lemma mem_announced_iff {ps : List Publication} {c : Child} :
    c ∈ announced ps ↔ ∃ e ∈ ps, e.event = .childAdded c := by
  simp only [announced, List.mem_filterMap]
  refine exists_congr fun e => and_congr_right fun _ => ?_
  cases e.event <;> simp [Event.added?]

namespace Tree

/-- What is published tells of children as they were, though they may have gone since. -/
def Truthful (root : TypeDef) (published : List Publication) : Prop :=
  ∀ e ∈ published, ∀ c, e.event.child? = some c →
    ∃ t : Tree, t.WellFormed root ∧ c ∈ t.family e.hub

/-- Children are announced with hubs that `t` did not give out yet, no hub twice. -/
structure Announces (root : TypeDef) (t : Tree) (published : List Publication) : Prop where
  truthful : Truthful root published
  fresh : ∀ c ∈ announced published, t.nextHub ≤ c.hub.serial
  nodup : ((announced published).map (·.hub)).Nodup

/-- From `t` to `t'` children were announced, and no child that stayed has moved. -/
structure Introduces (root : TypeDef) (t : Tree) (published : List Publication) (t' : Tree) :
    Prop extends Announces root t published where
  /-- A child whose hub was given out before is where it was. -/
  lineage : ∀ hub c, c.hub.serial < t.nextHub → c ∈ t'.family hub → c ∈ t.family hub
  stays : ∀ e ∈ published, ∀ c, e.event = .childAdded c → t'.Owns c.hub → c ∈ t'.family e.hub

section

variable {root : TypeDef} {s : Setting} {t t' t'' : Tree} {id parent : NodeId} {n m : Node}
  {hub hub' : HubId} {ps qs : List Publication} {new : List NodeId} {c c' : Child}

lemma Truthful.append (h : Truthful root ps) (h' : Truthful root qs) : Truthful root (ps ++ qs) :=
  fun e he => (List.mem_append.mp he).elim (h e) (h' e)

lemma owns_of_mem_family (hc : c ∈ t.family hub) : t.Owns hub := by
  by_contra hnot
  rw [family_of_not_owns hnot] at hc
  cases hc

namespace WellFormed

lemma hub_of_mem_family (h : t.WellFormed root) (hc : c ∈ t.family hub) :
    c.hub.node = c.id ∧ t.Owns c.hub ∧ t.parentOf c.id = some hub.node := by
  obtain ⟨hp, n, hn, rfl⟩ := h.mem_family hc
  exact ⟨(h.hub hn).1, owns_hub h hn, hp⟩

lemma hub_ne_of_mem_family (h : t.WellFormed root) (hc : c ∈ t.family hub) : c.hub ≠ hub := by
  obtain ⟨hnode, -, hp⟩ := h.hub_of_mem_family hc
  rintro rfl
  exact h.parent_ne hp hnode

lemma family_unique (h : t.WellFormed root) (hc : c ∈ t.family hub) (hc' : c' ∈ t.family hub')
    (hid : c.id = c'.id) : c = c' ∧ hub = hub' := by
  obtain ⟨hp, n, hn, rfl⟩ := h.mem_family hc
  obtain ⟨hp', n', hn', rfl⟩ := h.mem_family hc'
  rw [hid] at hn hp
  obtain rfl := Option.some.inj (hn.symm.trans hn')
  refine ⟨rfl, ?_⟩
  have hnode : hub.node = hub'.node := Option.some.inj (hp.symm.trans hp')
  obtain ⟨m, hm, rfl⟩ := owns_of_mem_family hc
  obtain ⟨m', hm', rfl⟩ := owns_of_mem_family hc'
  rw [hnode, hm'] at hm
  cases hm
  rfl

lemma exists_family (h : t.WellFormed root) (hn : t.node? id = some n) (hid : id ≠ .root) :
    ∃ hub, n.asChild ∈ t.family hub := by
  cases hp : n.parent with
  | none => exact absurd (h.eq_root hn hp) hid
  | some p =>
    obtain ⟨m, hm, -⟩ := h.parent_live hn hp
    refine ⟨m.hub, (h.mem_family_iff (owns_hub h hm) hn).mpr ?_⟩
    rw [parentOf_eq hn, hp, (h.hub hm).1]

lemma id_ne_root_of_mem_family (h : t.WellFormed root) (hc : c ∈ t.family hub) :
    c.id ≠ .root := by
  obtain ⟨hp, n, hn, -⟩ := h.mem_family hc
  intro hroot
  rw [hroot] at hp hn
  rw [parentOf_eq hn, (h.root_eq hn).1] at hp
  cases hp

end WellFormed

/-- A child whose own hub still belongs to a live node is still where it was. -/
lemma WellFormed.mem_family_of_owns (h : t.WellFormed root) (h' : t'.WellFormed root)
    (hlineage : ∀ hub c, c.hub.serial < t.nextHub → c ∈ t'.family hub → c ∈ t.family hub)
    (hc : c ∈ t.family hub) (hown : t'.Owns c.hub) : c ∈ t'.family hub := by
  obtain ⟨hnode, howned, -⟩ := h.hub_of_mem_family hc
  obtain ⟨n, hn, hhub⟩ := hown
  have hroot := h.id_ne_root_of_mem_family hc
  rw [← hnode] at hroot
  obtain ⟨hub', hmem⟩ := h'.exists_family hn hroot
  have hid : n.asChild.id = c.id := (h'.id_eq hn).trans hnode
  have hold := hlineage hub' n.asChild (by rw [Node.asChild, hhub]; exact h.serial_lt howned) hmem
  obtain ⟨rfl, rfl⟩ := h.family_unique hold hc hid
  exact hmem

namespace Announces

lemma nil (t : Tree) : Announces root t [] where
  truthful := by simp [Truthful]
  fresh := by simp [announced]
  nodup := by simp [announced]

lemma mono (h : Announces root t' ps) (hnext : t.nextHub ≤ t'.nextHub) : Announces root t ps where
  truthful := h.truthful
  fresh c hc := Nat.le_trans hnext (h.fresh c hc)
  nodup := h.nodup

lemma append (h : Announces root t ps) (h' : Announces root t qs)
    (hne : ∀ c ∈ announced ps, ∀ c' ∈ announced qs, c.hub ≠ c'.hub) :
    Announces root t (ps ++ qs) where
  truthful := h.truthful.append h'.truthful
  fresh c hc := by
    rw [announced_append, List.mem_append] at hc
    exact hc.elim (h.fresh c) (h'.fresh c)
  nodup := by
    rw [announced_append, List.map_append, List.nodup_append]
    refine ⟨h.nodup, h'.nodup, fun x hx y hy => ?_⟩
    obtain ⟨c, hc, rfl⟩ := List.mem_map.mp hx
    obtain ⟨c', hc', rfl⟩ := List.mem_map.mp hy
    exact hne c hc c' hc'

lemma trans (h : Announces root t ps) (he : Advances root t ps t') (h' : Announces root t' qs) :
    Announces root t (ps ++ qs) := by
  refine h.append (h'.mono he.nextHub_le) fun c hc c' hc' heq => ?_
  obtain ⟨e, hemem, hec⟩ := mem_announced_iff.mp hc
  have hlt := he.child_lt e hemem c (by rw [hec]; rfl)
  have hge := h'.fresh c' hc'
  rw [heq] at hlt
  omega

end Announces

namespace Introduces

lemma of_nodes_eq (hnodes : t'.nodes = t.nodes) : Introduces root t [] t' where
  toAnnounces := Announces.nil t
  lineage hub c _ hc := by rwa [family_congr hnodes] at hc
  stays := by simp

lemma trans (hi : Introduces root t ps t') (he : Advances root t ps t')
    (he' : Advances root t' qs t'') (hi' : Introduces root t' qs t'') :
    Introduces root t (ps ++ qs) t'' where
  toAnnounces := hi.toAnnounces.trans he hi'.toAnnounces
  lineage hub c hlt hc :=
    hi.lineage hub c hlt (hi'.lineage hub c (Nat.lt_of_lt_of_le hlt he.nextHub_le) hc)
  stays e hemem c hec hown := by
    rcases List.mem_append.mp hemem with hemem | hemem
    · have hlt := he.child_lt e hemem c (by rw [hec]; rfl)
      have hc := hi.stays e hemem c hec (he'.owns _ hown hlt)
      exact he.wellFormed.mem_family_of_owns he'.wellFormed hi'.lineage hc hown
    · exact hi'.stays e hemem c hec hown

end Introduces

/-! ### Removals -/

lemma Without.mem_family {gone : List NodeId} (h : t.Without gone t') (hw : t.WellFormed root)
    (hc : c ∈ t'.family hub) : c ∈ t.family hub := by
  obtain ⟨-, hkept⟩ := h.owns.mp (owns_of_mem_family hc)
  rw [h.family hw hkept] at hc
  exact (List.mem_filter.mp hc).1

theorem WellFormed.introduces_dismantle (h : t.WellFormed root) (id : NodeId) :
    Introduces root t (t.dismantle id).published (t.dismantle id).tree := by
  cases hn : t.node? id with
  | none =>
    rw [dismantle_of_absent hn]
    exact Introduces.of_nodes_eq rfl
  | some n =>
    obtain ⟨b, rfl, hb, hwithout, hpublished⟩ := h.dismantle_farewell hn
    rw [hpublished]
    have hnone : ∀ e ∈ t.farewell b, ∀ c, e.event ≠ .childAdded c := by
      intro e he c hec
      obtain ⟨x, k, -, rfl⟩ | ⟨x, k, p, m, -, -, -, rfl⟩ := mem_farewell he <;> cases hec
    have hannounced : announced (t.farewell b) = [] := by
      rw [List.eq_nil_iff_forall_not_mem]
      intro c hc
      obtain ⟨e, he, hec⟩ := mem_announced_iff.mp hc
      exact hnone e he c hec
    refine ⟨⟨fun e he c hc => ⟨t, h, ?_⟩, by simp [hannounced], by simp [hannounced]⟩,
      fun hub c _ hc => hwithout.mem_family h hc, fun e he c hec => absurd hec (hnone e he c)⟩
    obtain ⟨x, k, -, rfl⟩ | ⟨x, k, p, m, hk, hp, hm, rfl⟩ := mem_farewell he
    · cases hc
    · obtain rfl := Option.some.inj hc
      rw [h.mem_family_iff (owns_hub h hm) hk, parentOf_eq hk, hp, (h.hub hm).1]

/-! ### Additions -/

lemma Extends.mem_family (h : t.Extends parent new t') (hw : t.WellFormed root)
    (hc : c ∈ t.family hub) : c ∈ t'.family hub := by
  rw [h.family hw (owns_of_mem_family hc)]
  exact List.mem_append_left _ hc

lemma Grows.lineage (h : Grows root t parent new ps t') (hw : t.WellFormed root) (hub : HubId)
    (c : Child) (hlt : c.hub.serial < t.nextHub) (hc : c ∈ t'.family hub) : c ∈ t.family hub := by
  obtain ⟨hnode, hown', -⟩ := h.wellFormed.hub_of_mem_family hc
  obtain ⟨n, hn, hhub⟩ := (h.evolves hw).advances.owns _ hown' hlt
  have hroot := h.wellFormed.id_ne_root_of_mem_family hc
  rw [← hnode] at hroot
  obtain ⟨hub', hmem⟩ := hw.exists_family hn hroot
  have hid : n.asChild.id = c.id := (hw.id_eq hn).trans hnode
  obtain ⟨rfl, rfl⟩ := h.wellFormed.family_unique (h.mem_family hw hmem) hc hid
  exact hmem

/-- All that was published announced children that are still there. -/
def Present (published : List Publication) (t : Tree) : Prop :=
  ∀ e ∈ published, ∃ c, e.event = .childAdded c ∧ c ∈ t.family e.hub

lemma Plants.announces {t₁ t₂ : Tree} (h : Plants root t parent n t₁)
    (hg : Grows root t₁ n.id new ps t₂) (ha : Announces root t₁ ps) (hp : Present ps t₂) :
    Announces root t (ps ++ t₂.announcement parent n.id) ∧
      Present (ps ++ t₂.announcement parent n.id) t₂ := by
  have hext := h.extends_nested hg
  have hw₂ := hg.wellFormed
  obtain ⟨m, hm⟩ := h.parent_live
  obtain ⟨m', hm', -, -⟩ := hext.kept hm
  obtain ⟨n', hn', hparent, hhub⟩ := hg.kept h.live
  have hannounced : t₂.announcement parent n.id = [⟨m'.hub, .childAdded n'.asChild⟩] := by
    simp only [announcement, hm', hn']
  have hmem : n'.asChild ∈ t₂.family m'.hub := by
    rw [hw₂.mem_family_iff (owns_hub hw₂ hm') hn', parentOf_eq hn', hparent, h.parent_eq,
      (hw₂.hub hm').1]
  have hserial : n'.asChild.hub.serial = t.nextHub := by
    rw [Node.asChild, hhub, h.hub_eq]
  rw [hannounced]
  constructor
  · refine (ha.mono h.nextHub_le).append ⟨?_, ?_, ?_⟩ fun c hc c' hc' heq => ?_
    · intro e he c hc
      obtain rfl := List.mem_singleton.mp he
      obtain rfl := Option.some.inj hc
      exact ⟨t₂, hw₂, hmem⟩
    · intro c hc
      obtain rfl := List.mem_singleton.mp hc
      exact Nat.le_of_eq hserial.symm
    · exact List.nodup_singleton _
    · obtain rfl := List.mem_singleton.mp hc'
      -- the node's own hub was given out before those of the nodes nested in it
      have hnested := ha.fresh c hc
      have hown := (h.wellFormed.hub h.live).2
      rw [heq, hserial] at hnested
      rw [h.hub_eq] at hown
      omega
  · intro e he
    rcases List.mem_append.mp he with he | he
    · exact hp e he
    · obtain rfl := List.mem_singleton.mp he
      exact ⟨_, rfl, hmem⟩

mutual

theorem WellFormed.announces_grow {t : Tree} (h : t.WellFormed root) (parent : NodeId)
    (sel : Selection) :
    match grow s parent sel t with
    | ⟨.ok (), t', ps⟩ => Announces root t ps ∧ Present ps t'
    | ⟨.error _, _, ps⟩ => Announces root t ps := by
  match sel with
  | ⟨id, field, arguments, children⟩ =>
    rcases hsprout : t.sprout s parent id field arguments with ⟨e | n, t'⟩
    · simp only [Tree.grow, hsprout]
      exact Announces.nil t
    · obtain ⟨rfl, hplants⟩ := sprout_plants h hsprout
      obtain ⟨new, hnested⟩ := hplants.wellFormed.growsAll (s := s) n.id children
      have hannounces := hplants.wellFormed.announces_growAll n.id children
      rcases hgrow : growAll s n.id children (t'.attach parent n) with ⟨e | ⟨⟩, t'', ps⟩
      · simp only [hgrow] at hannounces
        simp only [Tree.grow, hsprout, hgrow]
        exact hannounces.mono hplants.nextHub_le
      · simp only [hgrow] at hnested hannounces
        simp only [Tree.grow, hsprout, hgrow]
        exact hplants.announces hnested hannounces.1 hannounces.2

theorem WellFormed.announces_growAll {t : Tree} (h : t.WellFormed root) (parent : NodeId)
    (sels : List Selection) :
    match growAll s parent sels t with
    | ⟨.ok (), t', ps⟩ => Announces root t ps ∧ Present ps t'
    | ⟨.error _, _, ps⟩ => Announces root t ps := by
  match sels with
  | [] => exact ⟨Announces.nil t, by simp [Present]⟩
  | sel :: rest =>
    have hfirst := h.grows (s := s) parent sel
    have hannounces := h.announces_grow parent sel
    rcases hgrow : Tree.grow s parent sel t with ⟨e | ⟨⟩, t', ps⟩
    · rw [hgrow] at hannounces
      simp only [growAll, hgrow]
      exact hannounces
    · rw [hgrow] at hfirst hannounces
      have hw' := hfirst.1.wellFormed
      have hadvances := (hfirst.1.evolves h).advances
      obtain ⟨new, hrest⟩ := hw'.growsAll (s := s) parent rest
      have hlater := hw'.announces_growAll parent rest
      rcases hgrowAll : growAll s parent rest t' with ⟨e | ⟨⟩, t'', qs⟩
      · simp only [hgrowAll] at hlater
        simp only [growAll, hgrow, hgrowAll]
        exact hannounces.1.trans hadvances hlater
      · simp only [hgrowAll] at hrest hlater
        simp only [growAll, hgrow, hgrowAll]
        refine ⟨hannounces.1.trans hadvances hlater.1, fun e he => ?_⟩
        rcases List.mem_append.mp he with he | he
        · obtain ⟨c, hec, hc⟩ := hannounces.2 e he
          exact ⟨c, hec, hrest.mem_family hw' hc⟩
        · exact hlater.2 e he

end

/-- All that an accepted addition published announced children that are there after it. -/
theorem WellFormed.present_add (h : t.WellFormed root) {target : NodeId} {sel : Selection}
    (hadd : t.add s target sel = ⟨.ok id, t', ps⟩) : Present ps t' := by
  have hannounces := h.announces_grow (s := s) target sel
  unfold Tree.add at hadd
  rcases hg : t.grow s target sel with ⟨e | ⟨⟩, t₁, qs⟩
  · simp [hg, Except.map] at hadd
  · simp only [hg, Transition.mk.injEq] at hadd hannounces
    obtain ⟨-, rfl, rfl⟩ := hadd
    exact hannounces.2

theorem WellFormed.introduces_add (h : t.WellFormed root) (target : NodeId) (sel : Selection) :
    Introduces root t (t.add s target sel).published (t.add s target sel).tree := by
  obtain ⟨new, hgrows⟩ := h.grows_add (s := s) target sel
  have hannounces := h.announces_grow (s := s) target sel
  have hfirst := h.grows (s := s) target sel
  refine ⟨?_, fun hub c => hgrows.lineage h hub c, ?_⟩
  · unfold Tree.add
    rcases hg : t.grow s target sel with ⟨e | ⟨⟩, t₁, qs⟩
    · simp only [hg] at hannounces
      exact hannounces
    · simp only [hg] at hannounces
      exact hannounces.1
  · intro e he c hec hown
    unfold Tree.add at he hown ⊢
    rcases hg : t.grow s target sel with ⟨e' | ⟨⟩, t₁, qs⟩
    · simp only [hg] at hannounces hfirst he hown
      have hnew := hannounces.fresh c (mem_announced_iff.mpr ⟨e, he, hec⟩)
      exact absurd ((owns_congr hfirst.nodes_eq).mp hown) (h.not_owns hnew)
    · simp only [hg] at hannounces he ⊢
      obtain ⟨c', hec', hc'⟩ := hannounces.2 e he
      rw [hec] at hec'
      cases hec'
      exact hc'

/-- Every operation that evolves a tree introduces children. -/
theorem compositional_introduces (root : TypeDef) (s : Setting) :
    Compositional root s (Introduces root) where
  bindings _ _ := Introduces.of_nodes_eq rfl
  trans _ he he' hi hi' := hi.trans he.advances he'.advances hi'
  add h target sel := h.introduces_add target sel
  dismantle h id := h.introduces_dismantle id

end

end Tree

end LiveQuery
