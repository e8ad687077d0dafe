import LiveQuery.Proofs.Composition
import LiveQuery.Proofs.Farewells
import LiveQuery.Proofs.Life

/-!
# Lives of hubs

What happens to a tree takes the hub of every live node on with its life, and begins the lives of the
hubs that are given out. Hubs that were not given out yet, or whose node is gone, are silent.
-/

namespace LiveQuery

namespace Tree

/-- From `t` to `t'` no hub was given out twice, and none was told of that is still to be given out. -/
structure Advances (root : TypeDef) (t : Tree) (published : List Publication) (t' : Tree) :
    Prop where
  wellFormed : t'.WellFormed root
  nextHub_le : t.nextHub ≤ t'.nextHub
  owns : ∀ hub, t'.Owns hub → hub.serial < t.nextHub → t.Owns hub
  child_lt : ∀ e ∈ published, ∀ c, e.event.child? = some c → c.hub.serial < t'.nextHub

/-- From `t` to `t'` every hub of a live node, and every hub that is given out, goes on with its life
by what is published. All others are silent. -/
structure Chronicles (t : Tree) (published : List Publication) (t' : Tree) : Prop where
  lives : ∀ hub : HubId, t.Owns hub ∨ t.nextHub ≤ hub.serial → ∃ life : Life,
    (Life.living (t.family hub)).after (eventsOn hub published) = some life ∧ life.Settled ∧
    (t'.Owns hub → life = .living (t'.family hub)) ∧
    (t.Owns hub → ¬ t'.Owns hub → life = .leaving [])
  gone : ∀ hub : HubId, hub.serial < t.nextHub → ¬ t.Owns hub → eventsOn hub published = []
  late : ∀ hub : HubId, t'.nextHub ≤ hub.serial → eventsOn hub published = []

section

variable {root : TypeDef} {s : Setting} {t t' t'' : Tree} {id parent : NodeId} {n m : Node}
  {hub : HubId} {ps qs : List Publication} {new : List NodeId} {c : Child}

/-! ### Hubs that are given out -/

lemma WellFormed.serial_lt (h : t.WellFormed root) (hown : t.Owns hub) :
    hub.serial < t.nextHub := by
  obtain ⟨n, hn, rfl⟩ := hown
  exact (h.hub hn).2

lemma WellFormed.not_owns (h : t.WellFormed root) (hlate : t.nextHub ≤ hub.serial) :
    ¬ t.Owns hub := fun hown => by
  have := h.serial_lt hown
  omega

lemma owns_congr (h : t'.nodes = t.nodes) : t'.Owns hub ↔ t.Owns hub := by
  simp only [Owns, node?_congr h]

lemma Evolves.advances (h : Evolves root t ps t') : Advances root t ps t' where
  wellFormed := h.wellFormed
  nextHub_le := h.nextHub_le
  owns hub hown hlt := by
    obtain ⟨n, hn, rfl⟩ := hown
    exact h.hub_old _ n hn hlt
  child_lt := h.child_lt

namespace Advances

lemma of_nodes_eq (h : t.WellFormed root) (hnodes : t'.nodes = t.nodes)
    (hnext : t'.nextHub = t.nextHub) : Advances root t [] t' where
  wellFormed := h.congr hnodes (Nat.le_of_eq hnext.symm)
  nextHub_le := Nat.le_of_eq hnext.symm
  owns _ hown _ := (owns_congr hnodes).mp hown
  child_lt := by simp

lemma trans (h : Advances root t ps t') (h' : Advances root t' qs t'') :
    Advances root t (ps ++ qs) t'' where
  wellFormed := h'.wellFormed
  nextHub_le := Nat.le_trans h.nextHub_le h'.nextHub_le
  owns hub hown hlt := h.owns hub (h'.owns hub hown (Nat.lt_of_lt_of_le hlt h.nextHub_le)) hlt
  child_lt e he c hc := by
    rcases List.mem_append.mp he with he | he
    · exact Nat.lt_of_lt_of_le (h.child_lt e he c hc) h'.nextHub_le
    · exact h'.child_lt e he c hc

end Advances

lemma family_congr (h : t'.nodes = t.nodes) (hub : HubId) : t'.family hub = t.family hub := by
  simp only [family, records, view_congr h, node?_congr h]

/-! ### The children of a node -/

lemma records_congr {ids : List NodeId}
    (h : ∀ id ∈ ids, (t'.node? id).map Node.asChild = (t.node? id).map Node.asChild) :
    t'.records ids = t.records ids :=
  List.filterMap_congr h

lemma WellFormed.mem_family (h : t.WellFormed root) (hc : c ∈ t.family hub) :
    t.parentOf c.id = some hub.node ∧ ∃ n, t.node? c.id = some n ∧ n.asChild = c := by
  obtain ⟨x, hx, hxc⟩ := List.mem_filterMap.mp hc
  obtain ⟨n, hn, rfl⟩ := Option.map_eq_some_iff.mp hxc
  have hid : n.id = x := h.id_eq hn
  subst hid
  exact ⟨h.parentOf_of_mem_view hx, n, hn, rfl⟩

lemma WellFormed.map_id_family (h : t.WellFormed root) (hub : HubId) :
    (t.family hub).map (·.id) = t.view hub := by
  have hlive : ∀ x ∈ t.view hub, ∃ n, t.node? x = some n := fun x hx =>
    (live_of_parentOf (h.parentOf_of_mem_view hx)).imp fun _ hn => hn.1
  unfold family records
  generalize t.view hub = ids at hlive
  induction ids with
  | nil => rfl
  | cons x rest ih =>
    obtain ⟨n, hn⟩ := hlive x List.mem_cons_self
    have hid : n.asChild.id = x := h.id_eq hn
    rw [List.filterMap_cons_some (by rw [hn]; rfl), List.map_cons, hid,
      ih fun y hy => hlive y (List.mem_cons_of_mem _ hy)]

lemma WellFormed.nodup_family (h : t.WellFormed root) (hub : HubId) : (t.family hub).Nodup :=
  List.Nodup.of_map (·.id) (by rw [h.map_id_family]; exact h.nodup_view hub)

lemma WellFormed.mem_family_iff (h : t.WellFormed root) (hown : t.Owns hub)
    (hn : t.node? id = some n) : n.asChild ∈ t.family hub ↔ t.parentOf id = some hub.node := by
  have hid : n.id = id := h.id_eq hn
  constructor
  · intro hmem
    exact hid ▸ (h.mem_family hmem).1
  · intro hp
    obtain ⟨k, hk, hhub⟩ := hown
    have hchild : id ∈ k.children := by
      rw [← childrenOf_eq hk]
      exact h.mem_children_iff.mpr hp
    rw [family, view_eq hk hhub]
    exact List.mem_filterMap.mpr ⟨id, hchild, by rw [hn]; rfl⟩

/-! ### Removals -/

lemma Without.family {gone : List NodeId} (h : t.Without gone t') (hw : t.WellFormed root)
    (hkept : hub.node ∉ gone) : t'.family hub = (t.family hub).filter (·.id ∉ gone) := by
  unfold Tree.family
  rw [h.view, if_neg hkept, records_congr (t := t)]
  · unfold records
    rw [List.filterMap_filter, List.filter_filterMap]
    refine List.filterMap_congr fun x hx => ?_
    cases hn : t.node? x with
    | none => simp
    | some n =>
      have hid : n.asChild.id = x := hw.id_eq hn
      by_cases hgone : x ∈ gone <;> simp [hgone, hid, Option.filter]
  · intro x hx
    have hxkept : x ∉ gone := by simpa using (List.mem_filter.mp hx).2
    rw [h x, if_neg hxkept, Option.map_map]
    rfl

lemma Without.owns {gone : List NodeId} (h : t.Without gone t') :
    t'.Owns hub ↔ t.Owns hub ∧ hub.node ∉ gone := by
  unfold Owns
  rw [h hub.node]
  by_cases hgone : hub.node ∈ gone
  · simp [hgone]
  · simp [hgone]

lemma eventsOn_farewell_of_not_owns (h : t.WellFormed root) (hown : ¬ t.Owns hub) (b : Branch) :
    eventsOn hub (t.farewell b) = [] := by
  refine eventsOn_eq_nil fun e he heq => hown ?_
  obtain ⟨id, n, hn, rfl⟩ | ⟨id, n, p, m, -, -, hm, rfl⟩ := mem_farewell he
  · exact heq ▸ owns_hub h hn
  · exact heq ▸ owns_hub h hm

namespace Chronicles

lemma of_nodes_eq (hnodes : t'.nodes = t.nodes) : Chronicles t [] t' where
  lives hub hhub := ⟨.living (t.family hub), rfl, Life.settled_living _,
    fun _ => by rw [family_congr hnodes], fun hown hnot => absurd ((owns_congr hnodes).mpr hown) hnot⟩
  gone _ _ _ := rfl
  late _ _ := rfl

lemma trans (h : t.WellFormed root) (he : Advances root t ps t') (he' : Advances root t' qs t'')
    (hc : Chronicles t ps t') (hc' : Chronicles t' qs t'') : Chronicles t (ps ++ qs) t'' where
  lives hub hhub := by
    obtain ⟨life, hlife, hsettled, hstays, hgoes⟩ := hc.lives hub hhub
    rw [eventsOn_append, Life.after_append, hlife, Option.bind_some]
    by_cases hown' : t'.Owns hub
    · obtain ⟨life', hlife', hsettled', hstays', hgoes'⟩ := hc'.lives hub (.inl hown')
      rw [hstays hown']
      exact ⟨life', hlife', hsettled', hstays', fun _ => hgoes' hown'⟩
    · by_cases hlt : hub.serial < t'.nextHub
      · rw [hc'.gone hub hlt hown']
        exact ⟨life, rfl, hsettled, fun hown'' => absurd (he'.owns hub hown'' hlt) hown',
          fun hown _ => hgoes hown hown'⟩
      · have hnot : ¬ t.Owns hub := fun hown => by
          have := h.serial_lt hown
          have := he.nextHub_le
          omega
        have hfirst := hc.late hub (by omega)
        rw [hfirst, Life.after_nil, Option.some.injEq] at hlife
        obtain ⟨life', hlife', hsettled', hstays', -⟩ := hc'.lives hub (.inr (by omega))
        rw [family_of_not_owns hown'] at hlife'
        rw [← hlife, family_of_not_owns hnot]
        exact ⟨life', hlife', hsettled', hstays', fun hown => absurd hown hnot⟩
  gone hub hlt hnot := by
    have hnot' : ¬ t'.Owns hub := fun hown => hnot (he.owns hub hown hlt)
    rw [eventsOn_append, hc.gone hub hlt hnot,
      hc'.gone hub (Nat.lt_of_lt_of_le hlt he.nextHub_le) hnot']
    rfl
  late hub hlate := by
    rw [eventsOn_append, hc.late hub (Nat.le_trans he'.nextHub_le hlate), hc'.late hub hlate]
    rfl

end Chronicles

lemma WellFormed.filter_family_parent (h : t.WellFormed root) {b : Branch} (hb : t.Carries b)
    (hn : t.node? b.id = some n) (hp : t.parentOf b.id = some hub.node) :
    (t.family hub).filter (·.id ∉ b.ids) = (t.family hub).erase n.asChild := by
  rw [(h.nodup_family hub).erase_eq_filter]
  refine List.filter_congr fun c hc => ?_
  obtain ⟨hcp, k, hk, hkc⟩ := h.mem_family hc
  have hnid : n.asChild.id = b.id := h.id_eq hn
  have hiff : c.id ∈ b.ids ↔ c = n.asChild := by
    constructor
    · intro hmem
      have heq : c.id = b.id := h.eq_of_below_siblings hcp hp .refl ((hb.mem_ids _).mp hmem)
      rw [heq, hn] at hk
      cases hk
      exact hkc.symm
    · rintro rfl
      rw [hnid]
      exact b.id_mem_ids
  simp [hiff, bne, beq_eq_decide]

lemma WellFormed.filter_family_other (h : t.WellFormed root) {b : Branch} (hb : t.Carries b)
    (hkept : hub.node ∉ b.ids) (hp : t.parentOf b.id ≠ some hub.node) :
    (t.family hub).filter (·.id ∉ b.ids) = t.family hub := by
  rw [List.filter_eq_self]
  intro c hc
  have hcp := (h.mem_family hc).1
  have hnot : c.id ∉ b.ids := by
    intro hmem
    have hbelow := (hb.mem_ids _).mp hmem
    rw [hb.mem_ids] at hkept
    generalize b.id = x at hp hkept hbelow
    cases hbelow with
    | refl => exact hp hcp
    | step hq hbelow =>
      rw [hcp, Option.some.injEq] at hq
      exact hkept (hq ▸ hbelow)
  simpa using hnot

theorem WellFormed.chronicles_dismantle (h : t.WellFormed root) (id : NodeId) :
    Chronicles t (t.dismantle id).published (t.dismantle id).tree := by
  cases hn : t.node? id with
  | none =>
    rw [dismantle_of_absent hn]
    exact Chronicles.of_nodes_eq rfl
  | some n =>
    have he := h.evolves_dismantle id
    obtain ⟨b, rfl, hb, hwithout, hpublished⟩ := h.dismantle_farewell hn
    have hsilent : ∀ hub, ¬ t.Owns hub →
        eventsOn hub (t.dismantle b.id).published = [] := fun hub hnot => by
      rw [hpublished]
      exact eventsOn_farewell_of_not_owns h hnot b
    refine ⟨fun hub _ => ?_, fun hub _ hnot => hsilent hub hnot, fun hub hlate =>
      hsilent hub (h.not_owns (Nat.le_trans he.nextHub_le hlate))⟩
    by_cases hown : t.Owns hub
    · have hevents := h.eventsOn_farewell b hown hb.holds hb.nodup fun p hp hmem =>
        h.not_below_child hp ((hb.mem_ids p).mp hmem)
      rw [hpublished, hevents]
      by_cases hin : hub.node ∈ b.ids
      · have hnot : ¬ (t.dismantle b.id).tree.Owns hub := fun hown' => (hwithout.owns.mp hown').2 hin
        rw [if_pos hin]
        exact ⟨.leaving [], Life.after_deleted _, fun _ h => (Life.leaving.inj h).symm,
          fun hown' => absurd hown' hnot, fun _ _ => rfl⟩
      · have hown' : (t.dismantle b.id).tree.Owns hub := hwithout.owns.mpr ⟨hown, hin⟩
        have hfamily := hwithout.family h hin
        rw [if_neg hin]
        by_cases hp : t.parentOf b.id = some hub.node
        · rw [h.filter_family_parent hb hn hp] at hfamily
          rw [if_pos hp, records_singleton hn]
          exact ⟨_, Life.after_removed ((h.mem_family_iff hown hn).mpr hp), Life.settled_living _,
            fun _ => by rw [hfamily], fun _ hnot => absurd hown' hnot⟩
        · rw [h.filter_family_other hb hin hp] at hfamily
          rw [if_neg hp]
          exact ⟨_, rfl, Life.settled_living _, fun _ => by rw [hfamily],
            fun _ hnot => absurd hown' hnot⟩
    · rw [hsilent hub hown]
      have hnot : ¬ (t.dismantle b.id).tree.Owns hub := fun hown' => hown (hwithout.owns.mp hown').1
      exact ⟨_, rfl, Life.settled_living _, fun hown' => absurd hown' hnot,
        fun hown' => absurd hown' hown⟩

/-! ### Additions -/

namespace Extends

lemma owns (h : t.Extends parent new t') (hown : t.Owns hub) : t'.Owns hub := by
  obtain ⟨n, hn, hhub⟩ := hown
  obtain ⟨n', hn', -, hsame⟩ := h.kept hn
  exact ⟨n', hn', hsame.trans hhub⟩

lemma family (h : t.Extends parent new t') (hw : t.WellFormed root) (hown : t.Owns hub) :
    t'.family hub = t.family hub ++ if hub.node = parent then t'.records new else [] := by
  have hold : t'.records (t.view hub) = t.family hub := by
    refine records_congr fun x hx => ?_
    obtain ⟨n, hn, -⟩ := live_of_parentOf (hw.parentOf_of_mem_view hx)
    rw [hn, h.old x n hn]
    split <;> rfl
  obtain ⟨n, hn, hhub⟩ := hown
  have hn' := h.old _ n hn
  have hview := view_eq hn hhub
  by_cases hp : hub.node = parent
  · rw [if_pos hp] at hn' ⊢
    rw [Tree.family, view_eq hn' hhub, records_append, ← hview, hold]
  · rw [if_neg hp] at hn' ⊢
    rw [Tree.family, view_eq hn' hhub, ← hview, hold, List.append_nil]

end Extends

namespace Plants

variable {t₁ t₂ : Tree}

lemma node_eq (h : Plants root t parent n t₁) (hw : t.WellFormed root)
    (hlate : t.nextHub ≤ hub.serial) (hk : t₁.node? hub.node = some m) (hhub : m.hub = hub) :
    m = n := by
  cases hold : t.node? hub.node with
  | none =>
    have hlive := h.live
    rw [← h.only _ m hk hold, hk] at hlive
    exact Option.some.inj hlive
  | some k =>
    obtain ⟨k', hk', -, hsame⟩ := h.kept hold
    obtain rfl := Option.some.inj (hk.symm.trans hk')
    have := (hw.hub hold).2
    rw [← hsame, hhub] at this
    omega

/-- Hubs that are given out for a node and for what is nested in it. -/
lemma lives_nested (h : Plants root t parent n t₁) (hg : Grows root t₁ n.id new ps t₂)
    (hw : t.WellFormed root) (hc : Chronicles t₁ ps t₂) (hlate : t.nextHub ≤ hub.serial) :
    ∃ life : Life, (Life.living []).after (eventsOn hub ps) = some life ∧ life.Settled ∧
      (t₂.Owns hub → life = .living (t₂.family hub)) := by
  by_cases hown : t₁.Owns hub
  · have hfamily : t₁.family hub = [] := by
      obtain ⟨k, hk, hhub⟩ := hown
      rw [family_eq hk hhub, h.node_eq hw hlate hk hhub, h.leaf]
      rfl
    obtain ⟨life, hlife, hsettled, hstays, -⟩ := hc.lives hub (.inl hown)
    rw [hfamily] at hlife
    exact ⟨life, hlife, hsettled, hstays⟩
  · by_cases hlt : hub.serial < t₁.nextHub
    · rw [hc.gone hub hlt hown]
      exact ⟨_, rfl, Life.settled_living _,
        fun hown' => absurd ((hg.evolves h.wellFormed).advances.owns hub hown' hlt) hown⟩
    · obtain ⟨life, hlife, hsettled, hstays, -⟩ := hc.lives hub (.inr (by omega))
      rw [family_of_not_owns hown] at hlife
      exact ⟨life, hlife, hsettled, hstays⟩

lemma eventsOn_nested (h : Plants root t parent n t₁) (hg : Grows root t₁ n.id new ps t₂)
    (hlt : hub.serial < t.nextHub) : eventsOn hub ps = [] :=
  eventsOn_eq_nil fun e he heq => by
    have := h.quiet_nested hg e he
    rw [heq] at this
    omega

/-- What a refused selection published was all on hubs that were given out for it. -/
lemma chronicles_purged (h : Plants root t parent n t₁) (hg : Grows root t₁ n.id new ps t₂)
    (hw : t.WellFormed root) (hc : Chronicles t₁ ps t₂) (hnodes : t'.nodes = t.nodes)
    (hnext : t'.nextHub = t₂.nextHub) : Chronicles t ps t' where
  lives hub hhub := by
    by_cases hlate : t.nextHub ≤ hub.serial
    · have hnot := hw.not_owns hlate
      have hnot' : ¬ t'.Owns hub := fun hown => hnot ((owns_congr hnodes).mp hown)
      obtain ⟨life, hlife, hsettled, -⟩ := h.lives_nested hg hw hc hlate
      rw [family_of_not_owns hnot]
      exact ⟨life, hlife, hsettled, fun hown => absurd hown hnot', fun hown => absurd hown hnot⟩
    · rw [h.eventsOn_nested hg (by omega)]
      exact (Chronicles.of_nodes_eq hnodes).lives hub hhub
  gone hub hlt _ := h.eventsOn_nested hg hlt
  late hub hlate := hc.late hub (hnext ▸ hlate)

lemma chronicles_announced (h : Plants root t parent n t₁) (hg : Grows root t₁ n.id new ps t₂)
    (hw : t.WellFormed root) (hc : Chronicles t₁ ps t₂) :
    Chronicles t (ps ++ t₂.announcement parent n.id) t₂ := by
  have hext := h.extends_nested hg
  obtain ⟨m, hm⟩ := h.parent_live
  obtain ⟨m', hm', -, hmhub⟩ := hext.kept hm
  obtain ⟨n', hn', -⟩ := hg.kept h.live
  have hannounced : t₂.announcement parent n.id = [⟨m.hub, .childAdded n'.asChild⟩] := by
    simp only [announcement, hm', hn', hmhub]
  rw [hannounced]
  have hmlt := (hw.hub hm).2
  refine ⟨fun hub hhub => ?_, fun hub hlt hnot => ?_, fun hub hlate => ?_⟩
  · rw [eventsOn_append, eventsOn_singleton]
    by_cases hlate : t.nextHub ≤ hub.serial
    · have hnot := hw.not_owns hlate
      have hne : m.hub ≠ hub := by
        rintro rfl
        omega
      obtain ⟨life, hlife, hsettled, hstays⟩ := h.lives_nested hg hw hc hlate
      rw [family_of_not_owns hnot, if_neg hne, List.append_nil]
      exact ⟨life, hlife, hsettled, hstays, fun hown => absurd hown hnot⟩
    · have hown := hhub.resolve_right hlate
      have hfamily := hext.family hw hown
      rw [h.eventsOn_nested hg (by omega), List.nil_append]
      by_cases hself : m.hub = hub
      · have hparent : hub.node = parent := hself ▸ (hw.hub hm).1
        have hnew : n'.asChild.id ∉ (t.family hub).map (·.id) := by
          have hid : n'.asChild.id = n.id := hg.wellFormed.id_eq hn'
          rw [hw.map_id_family, hid]
          intro hmem
          obtain ⟨k, hk, -⟩ := live_of_parentOf (hw.parentOf_of_mem_view hmem)
          rw [h.absent] at hk
          cases hk
        rw [if_pos hparent, records_singleton hn'] at hfamily
        rw [if_pos hself]
        exact ⟨_, Life.after_added hnew, Life.settled_living _, fun _ => by rw [hfamily],
          fun _ hnot => absurd (hext.owns hown) hnot⟩
      · have hparent : hub.node ≠ parent := by
          rintro rfl
          obtain ⟨k, hk, hhub⟩ := hown
          rw [hm] at hk
          cases hk
          exact hself hhub
        rw [if_neg hparent, List.append_nil] at hfamily
        rw [if_neg hself]
        exact ⟨_, rfl, Life.settled_living _, fun _ => by rw [hfamily],
          fun _ hnot => absurd (hext.owns hown) hnot⟩
  · have hne : m.hub ≠ hub := by
      rintro rfl
      exact hnot (owns_hub hw hm)
    rw [eventsOn_append, eventsOn_singleton, if_neg hne, h.eventsOn_nested hg hlt]
    rfl
  · have hne : m.hub ≠ hub := by
      rintro rfl
      have := hext.nextHub_le
      omega
    rw [eventsOn_append, eventsOn_singleton, if_neg hne, hc.late hub hlate]
    rfl

end Plants

mutual

theorem WellFormed.chronicles_grow {t : Tree} (h : t.WellFormed root) (parent : NodeId)
    (sel : Selection) :
    Chronicles t (grow s parent sel t).published (grow s parent sel t).tree := by
  match sel with
  | ⟨id, field, arguments, children⟩ =>
    rcases hsprout : t.sprout s parent id field arguments with ⟨e | n, t'⟩
    · simp only [Tree.grow, hsprout]
      exact Chronicles.of_nodes_eq (sprout_error hsprout).1
    · obtain ⟨rfl, hplants⟩ := sprout_plants h hsprout
      obtain ⟨new, hnested⟩ := hplants.wellFormed.growsAll (s := s) n.id children
      have hchronicles := hplants.wellFormed.chronicles_growAll n.id children
      rcases hgrow : growAll s n.id children (t'.attach parent n) with ⟨e | ⟨⟩, t'', ps⟩
      · simp only [hgrow] at hnested hchronicles
        simp only [Tree.grow, hsprout, hgrow]
        have hpurged := hplants.purged hnested h
        refine hplants.chronicles_purged hnested h hchronicles hpurged.nodes_eq ?_
        obtain ⟨n', hn', hparent, -⟩ := hnested.kept hplants.live
        have hp : t''.parentOf n.id = some parent := by
          rw [parentOf_eq hn', hparent, hplants.parent_eq]
        exact (hnested.wellFormed.purge_accounts hp).1
      · simp only [hgrow] at hnested hchronicles
        simp only [Tree.grow, hsprout, hgrow]
        exact hplants.chronicles_announced hnested h hchronicles

theorem WellFormed.chronicles_growAll {t : Tree} (h : t.WellFormed root) (parent : NodeId)
    (sels : List Selection) :
    Chronicles t (growAll s parent sels t).published (growAll s parent sels t).tree := by
  match sels with
  | [] => exact Chronicles.of_nodes_eq rfl
  | sel :: rest =>
    have hfirst := h.grows (s := s) parent sel
    have hchronicles := h.chronicles_grow parent sel
    rcases hgrow : Tree.grow s parent sel t with ⟨e | ⟨⟩, t', ps⟩
    · rw [hgrow] at hchronicles
      simp only [growAll, hgrow]
      exact hchronicles
    · rw [hgrow] at hfirst hchronicles
      simp only [growAll, hgrow]
      obtain ⟨new, hrest⟩ := hfirst.1.wellFormed.growsAll (s := s) parent rest
      exact Chronicles.trans h (hfirst.1.evolves h).advances
        (hrest.evolves hfirst.1.wellFormed).advances hchronicles
        (hfirst.1.wellFormed.chronicles_growAll parent rest)

end

/-- Every operation that evolves a tree goes on with the lives of hubs. -/
theorem compositional_chronicles (root : TypeDef) (s : Setting) :
    Compositional root s Chronicles where
  bindings _ _ := Chronicles.of_nodes_eq rfl
  trans h he he' hc hc' := Chronicles.trans h he.advances he'.advances hc hc'
  add h target sel := by
    have hgrow := h.chronicles_grow (s := s) target sel
    unfold Tree.add
    exact hgrow
  dismantle h id := h.chronicles_dismantle id

end

end Tree

end LiveQuery
