import LiveQuery.Proofs.Mirror

/-!
# Evolution

What an operation does to a tree as its clients and observers can rely on it: the tree stays well
formed, its references stay accounted for, hubs are never used twice, and what is published tracks
every list of children. Operations are made of small steps that evolve a tree.
-/

namespace LiveQuery

namespace Tree

/-- From `t` to `t'` everything that every operation maintains was maintained, and `published` is
what observers hear of it. -/
structure Evolves (root : TypeDef) (t : Tree) (published : List Publication) (t' : Tree) :
    Prop where
  wellFormed : t'.WellFormed root
  accounts : ∀ out, t.Accounts out → t'.Accounts out
  nextHub_le : t.nextHub ≤ t'.nextHub
  /-- A hub that was given out belongs to no other node than before. -/
  hub_old : ∀ x n, t'.node? x = some n → n.hub.serial < t.nextHub →
    ∃ m, t.node? x = some m ∧ m.hub = n.hub
  tracks : t.Tracks published t'
  child_lt : ∀ e ∈ published, ∀ c, e.event.child? = some c → c.hub.serial < t'.nextHub

section

variable {root : TypeDef} {t t' t'' : Tree} {id : NodeId} {n : Node} {ps qs : List Publication}

namespace Evolves

lemma refl (h : t.WellFormed root) : Evolves root t [] t where
  wellFormed := h
  accounts _ h := h
  nextHub_le := Nat.le_refl _
  hub_old _ n hn _ := ⟨n, hn, rfl⟩
  tracks := Tracks.nil t
  child_lt := by simp

lemma trans (h : Evolves root t ps t') (h' : Evolves root t' qs t'') :
    Evolves root t (ps ++ qs) t'' where
  wellFormed := h'.wellFormed
  accounts out ha := h'.accounts out (h.accounts out ha)
  nextHub_le := Nat.le_trans h.nextHub_le h'.nextHub_le
  hub_old x n hn hlt := by
    obtain ⟨m, hm, hhub⟩ := h'.hub_old x n hn (Nat.lt_of_lt_of_le hlt h.nextHub_le)
    obtain ⟨k, hk, hhub'⟩ := h.hub_old x m hm (hhub ▸ hlt)
    exact ⟨k, hk, hhub'.trans hhub⟩
  tracks := h.tracks.trans h'.tracks h.nextHub_le
  child_lt e he c hc := by
    rcases List.mem_append.mp he with he | he
    · exact Nat.lt_of_lt_of_le (h.child_lt e he c hc) h'.nextHub_le
    · exact h'.child_lt e he c hc

end Evolves

namespace WellFormed

lemma no_children (h : t.WellFormed root) (hn : t.node? id = some n) (hleaf : n.children = []) :
    ∀ c, t.parentOf c ≠ some id := by
  intro c hc
  rw [← h.mem_children_iff, childrenOf_eq hn, hleaf] at hc
  simp at hc

lemma evolves_deleted (h : t.WellFormed root) (hub : HubId) :
    Evolves root t [⟨hub, .deleted⟩] t where
  wellFormed := h
  accounts _ h := h
  nextHub_le := Nat.le_refl _
  hub_old _ n hn _ := ⟨n, hn, rfl⟩
  tracks := tracks_deleted t hub
  child_lt e he c hc := by
    obtain rfl := List.mem_singleton.mp he
    simp [Event.child?] at hc

lemma detach_leaf (h : t.WellFormed root) (hn : t.node? id = some n) (hleaf : n.children = []) :
    (t.detach id).1.WellFormed root := by
  refine h.without ?_ (h.without_leaf hn) (nextHub_detach t id)
  intro c p hc hp
  obtain rfl := List.mem_singleton.mp hp
  exact absurd hc (h.no_children hn hleaf c)

lemma detach_child_lt (h : t.WellFormed root) (hn : t.node? id = some n) :
    ∀ e ∈ (t.detach id).2, ∀ c, e.event.child? = some c → c.hub.serial < t.nextHub := by
  intro e he c hc
  cases hp : n.parent with
  | none => simp [detach, hn, hp] at he
  | some p =>
    obtain ⟨m, hm, -⟩ := h.parent_live hn hp
    rw [h.detach_published hn hp hm] at he
    obtain rfl := List.mem_singleton.mp he
    simp only [Event.child?, Option.some.injEq] at hc
    subst hc
    exact (h.hub hn).2

lemma evolves_detach_leaf (h : t.WellFormed root) (hn : t.node? id = some n)
    (hleaf : n.children = []) : Evolves root t (t.detach id).2 (t.detach id).1 where
  wellFormed := h.detach_leaf hn hleaf
  accounts _ ha := ha.detach id
  nextHub_le := Nat.le_of_eq (nextHub_detach t id).symm
  hub_old x k hk _ := by
    rw [h.without_leaf hn x] at hk
    split at hk
    · cases hk
    · obtain ⟨m, hm, rfl⟩ := Option.map_eq_some_iff.mp hk
      exact ⟨m, hm, rfl⟩
  tracks := h.tracks_detach_leaf hn hleaf
  child_lt := by
    rw [nextHub_detach]
    exact h.detach_child_lt hn

lemma evolves_bindings (h : t.WellFormed root) {b : Bindings}
    (hb : ∀ out, t.bindings.Exact out → b.Exact out) :
    Evolves root t [] { t with bindings := b } where
  wellFormed := h.congr rfl (Nat.le_refl _)
  accounts out ha := hb (t.held ++ out) ha
  nextHub_le := Nat.le_refl _
  hub_old _ n hn _ := ⟨n, hn, rfl⟩
  tracks _ _ := rfl
  child_lt := by simp

end WellFormed

end

end Tree

end LiveQuery
