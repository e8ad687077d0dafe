import LiveQuery.Proofs.Branches
import LiveQuery.Proofs.Holdings

/-!
# Mirrors

An observer that knows the children of a node can follow them by the events of the node's hub
alone. `mirror` is what it does, and it gives up if an event does not fit what it knows. A change of
a tree is tracked by what is published meanwhile if every mirror ends with the new children.
-/

namespace LiveQuery

/-- The list of children after an event, unless an added child is in it or a removed one is not. -/
def Event.mirror (children : List NodeId) : Event → Option (List NodeId)
  | .childAdded child => if child.id ∈ children then none else some (children ++ [child.id])
  | .childRemoved child => if child.id ∈ children then some (children.erase child.id) else none
  | .deleted => some children

/-- The list of children after some events, in order. -/
def mirror (children : List NodeId) (events : List Event) : Option (List NodeId) :=
  events.foldlM Event.mirror children

/-- The events published on one hub. -/
def eventsOn (hub : HubId) (published : List Publication) : List Event :=
  published.filterMap fun p => if p.hub = hub then some p.event else none

@[simp] lemma mirror_nil (children : List NodeId) : mirror children [] = some children := rfl

lemma mirror_append (children : List NodeId) (events later : List Event) :
    mirror children (events ++ later) = (mirror children events).bind (mirror · later) := by
  simp [mirror, List.foldlM_append]

lemma mirror_added {children : List NodeId} {added : List Child}
    (h : (children ++ added.map Child.id).Nodup) :
    mirror children (added.map .childAdded) = some (children ++ added.map Child.id) := by
  induction added generalizing children with
  | nil => simp
  | cons c rest ih =>
    have hsplit : children ++ (c :: rest).map Child.id =
        (children ++ [c.id]) ++ rest.map Child.id := by simp
    rw [hsplit] at h ⊢
    have hnew : c.id ∉ children := by
      have hc := (List.nodup_append.mp h).1
      exact fun hmem => (List.nodup_append.mp hc).2.2 _ hmem _ (List.mem_singleton_self _) rfl
    rw [← ih h]
    simp [mirror, Event.mirror, hnew]

@[simp] lemma eventsOn_nil (hub : HubId) : eventsOn hub [] = [] := rfl

lemma eventsOn_append (hub : HubId) (ps qs : List Publication) :
    eventsOn hub (ps ++ qs) = eventsOn hub ps ++ eventsOn hub qs := by
  simp [eventsOn]

lemma eventsOn_singleton (hub : HubId) (p : Publication) :
    eventsOn hub [p] = if p.hub = hub then [p.event] else [] := by
  by_cases h : p.hub = hub <;> simp [eventsOn, h]

lemma eventsOn_eq_nil {hub : HubId} {ps : List Publication} (h : ∀ p ∈ ps, p.hub ≠ hub) :
    eventsOn hub ps = [] := by
  rw [eventsOn, List.filterMap_eq_nil_iff]
  intro p hp
  simp [h p hp]

namespace Tree

/-- The children of the node a hub belongs to, none if the node is gone. -/
def view (t : Tree) (hub : HubId) : List NodeId :=
  match t.node? hub.node with
  | some n => if n.hub = hub then n.children else []
  | none => []

/-- Whoever mirrors a node of `t` and hears what is published ends with the children in `t'`. -/
def Tracks (t : Tree) (published : List Publication) (t' : Tree) : Prop :=
  ∀ hub : HubId, hub.serial < t.nextHub →
    mirror (t.view hub) (eventsOn hub published) = some (t'.view hub)

section

variable {root : TypeDef} {t t' t'' : Tree} {id p : NodeId} {n m : Node}

lemma Tracks.nil (t : Tree) : t.Tracks [] t := fun _ _ => rfl

lemma Tracks.trans {ps qs : List Publication} (h : t.Tracks ps t') (h' : t'.Tracks qs t'')
    (hnext : t.nextHub ≤ t'.nextHub) : t.Tracks (ps ++ qs) t'' := by
  intro hub hlt
  rw [eventsOn_append, mirror_append, h hub hlt, Option.bind_some]
  exact h' hub (Nat.lt_of_lt_of_le hlt hnext)

lemma view_eq {hub : HubId} (h : t.node? hub.node = some n) (hhub : n.hub = hub) :
    t.view hub = n.children := by
  simp [view, h, hhub]

lemma view_eq_nil {hub : HubId} (h : ∀ n, t.node? hub.node = some n → n.hub ≠ hub) :
    t.view hub = [] := by
  unfold view
  split
  · next n hn => simp [h n hn]
  · rfl

lemma live_of_mem_view {hub : HubId} {x : NodeId} (h : x ∈ t.view hub) :
    ∃ n, t.node? hub.node = some n ∧ n.hub = hub ∧ x ∈ n.children := by
  unfold view at h
  split at h
  · next n hn =>
    split at h
    · next hhub => exact ⟨n, hn, hhub, h⟩
    · simp at h
  · simp at h

lemma view_congr (h : t'.nodes = t.nodes) (hub : HubId) : t'.view hub = t.view hub := by
  simp only [view, node?_congr h]

lemma Without.view {gone : List NodeId} (h : t.Without gone t') (hub : HubId) :
    t'.view hub = if hub.node ∈ gone then [] else (t.view hub).filter (· ∉ gone) := by
  unfold Tree.view
  rw [h hub.node]
  by_cases hgone : hub.node ∈ gone
  · simp [hgone]
  · simp only [hgone, if_false]
    cases t.node? hub.node with
    | none => simp
    | some n =>
      by_cases hhub : n.hub = hub
      · simp [hhub]
      · simp [hhub]

lemma tracks_deleted (t : Tree) (hub : HubId) : t.Tracks [⟨hub, .deleted⟩] t := by
  intro other _
  rw [eventsOn_singleton]
  split <;> rfl

namespace WellFormed

lemma parent_ne (h : t.WellFormed root) (hp : t.parentOf id = some p) : p ≠ id := by
  rintro rfl
  exact h.not_below_child hp .refl

lemma without_leaf (h : t.WellFormed root) (hn : t.node? id = some n) :
    t.Without [id] (t.detach id).1 := by
  have hself : ∀ {y : NodeId} {k : Node}, t.node? y = some k → t.parentOf id ≠ some y →
      { k with children := k.children.filter (· ∉ [id]) } = k := by
    intro y k hk hne
    have hfilter : k.children.filter (· ∉ [id]) = k.children := by
      rw [List.filter_eq_self]
      rintro c hc
      have hcy : t.parentOf c = some y := by
        rw [← h.mem_children_iff, childrenOf_eq hk]
        exact hc
      have hcid : c ≠ id := by
        rintro rfl
        exact hne hcy
      simpa using hcid
    rw [hfilter]
  intro y
  rw [detach_tree]
  by_cases hy : y = id
  · subst hy
    cases t.parentOf y with
    | none => simp [node?_drop]
    | some p => simp [node?_unlink, node?_drop]
  · have hmem : y ∉ [id] := by simpa using hy
    rw [if_neg hmem]
    cases hp : t.parentOf id with
    | none =>
      rw [node?_drop, if_neg hy]
      cases hk : t.node? y with
      | none => rfl
      | some k => rw [Option.map_some, hself hk (by simp [hp])]
    | some p =>
      simp only [node?_unlink, node?_drop, hy, if_false]
      cases hk : t.node? y with
      | none => simp
      | some k =>
        by_cases hpy : p = y
        · simp [hpy]
        · rw [if_neg hpy, Option.map_some, hself hk (by simp [hp, hpy])]

lemma detach_published (h : t.WellFormed root) (hn : t.node? id = some n)
    (hp : n.parent = some p) (hm : t.node? p = some m) :
    (t.detach id).2 = [⟨m.hub, .childRemoved n.asChild⟩] := by
  have hne : p ≠ id := h.parent_ne ((parentOf_eq hn).trans hp)
  have hm' : (t.drop id).node? p = some m := by rw [node?_drop, if_neg hne, hm]
  simp only [drop, hn] at hm'
  simp only [detach, hn, hp, hm']

lemma parentOf_of_mem_view (h : t.WellFormed root) {hub : HubId} {x : NodeId}
    (hx : x ∈ t.view hub) : t.parentOf x = some hub.node := by
  obtain ⟨k, hk, -, hxk⟩ := live_of_mem_view hx
  rw [← h.mem_children_iff, childrenOf_eq hk]
  exact hxk

lemma nodup_view (h : t.WellFormed root) (hub : HubId) : (t.view hub).Nodup := by
  unfold view
  split
  · next k hk =>
    split
    · exact h.nodup hk
    · exact List.nodup_nil
  · exact List.nodup_nil

lemma view_detach_leaf (h : t.WellFormed root) (hn : t.node? id = some n)
    (hleaf : n.children = []) (hub : HubId) :
    (t.detach id).1.view hub = (t.view hub).erase id := by
  rw [(h.without_leaf hn).view]
  by_cases hid : hub.node = id
  · have hview : t.view hub = [] := by
      simp [view, hid, hn, hleaf]
    simp [hview, hid]
  · have hgone : hub.node ∉ [id] := by simpa using hid
    rw [if_neg hgone, (h.nodup_view hub).erase_eq_filter]
    exact List.filter_congr fun x _ => by simp [bne, beq_eq_decide]

lemma eventsOn_detach (h : t.WellFormed root) (hn : t.node? id = some n) (hub : HubId) :
    eventsOn hub (t.detach id).2 = if id ∈ t.view hub then [.childRemoved n.asChild] else [] := by
  cases hp : n.parent with
  | none =>
    have hnot : id ∉ t.view hub := by
      intro hmem
      have hparent := h.parentOf_of_mem_view hmem
      rw [parentOf_eq hn, hp] at hparent
      cases hparent
    simp [detach, hn, hp, hnot]
  | some p =>
    obtain ⟨m, hm, hchild, -⟩ := h.parent_live hn hp
    have hiff : id ∈ t.view hub ↔ m.hub = hub := by
      constructor
      · intro hmem
        obtain ⟨k, hk, hkhub, -⟩ := live_of_mem_view hmem
        have hparent := h.parentOf_of_mem_view hmem
        rw [parentOf_eq hn, hp, Option.some.injEq] at hparent
        subst hparent
        rw [hm] at hk
        cases hk
        exact hkhub
      · rintro rfl
        rw [view_eq ((h.hub hm).1 ▸ hm) rfl]
        exact hchild
    rw [h.detach_published hn hp hm, eventsOn_singleton]
    simp only [hiff]

lemma tracks_detach_leaf (h : t.WellFormed root) (hn : t.node? id = some n)
    (hleaf : n.children = []) : t.Tracks (t.detach id).2 (t.detach id).1 := by
  intro hub _
  rw [h.view_detach_leaf hn hleaf, h.eventsOn_detach hn]
  by_cases hin : id ∈ t.view hub
  · have hnid : n.asChild.id = id := h.id_eq hn
    rw [if_pos hin, mirror, List.foldlM_cons, Event.mirror, hnid, if_pos hin]
    rfl
  · rw [if_neg hin, mirror_nil, List.erase_of_not_mem hin]

end WellFormed

end

end Tree

end LiveQuery
