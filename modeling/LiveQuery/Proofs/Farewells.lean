import LiveQuery.Proofs.Operations

/-!
# Farewells

What a removal publishes, told by the tree as it was before. Every node of the branch that goes says
first that it is going away, then come the farewells of its children in order, and in the end its
parent's hub tells that it was removed.
-/

namespace LiveQuery

namespace Tree

/-- A node says that it is going away. -/
def parting (t : Tree) (id : NodeId) : List Publication :=
  (t.node? id).toList.map fun n => ⟨n.hub, .deleted⟩

/-- The parent's hub, if there is a parent, tells that a node was removed. -/
def removal (t : Tree) (id : NodeId) : List Publication :=
  ((t.node? id).bind fun n => n.parent.bind fun p => (t.node? p).map fun m =>
    (⟨m.hub, .childRemoved n.asChild⟩ : Publication)).toList

mutual

/-- What is published when a branch of the tree is removed. -/
def farewell (t : Tree) : Branch → List Publication
  | ⟨id, children⟩ => t.parting id ++ farewellAll t children ++ t.removal id

def farewellAll (t : Tree) : List Branch → List Publication
  | [] => []
  | b :: rest => farewell t b ++ farewellAll t rest

end

section

variable {root : TypeDef} {t t' : Tree} {id p : NodeId} {n m : Node} {gone : List NodeId}

lemma WellFormed.detach_snd (h : t.WellFormed root) (id : NodeId) : (t.detach id).2 = t.removal id := by
  rw [Tree.detach_snd, removal]
  cases hn : t.node? id with
  | none => rfl
  | some n =>
    cases hp : n.parent with
    | none => simp [hp]
    | some p =>
      have hne : p ≠ id := h.parent_ne ((parentOf_eq hn).trans hp)
      simp only [hp, Option.bind_some, node?_drop, if_neg hne]

namespace Without

lemma parting (h : t.Without gone t') (hid : id ∉ gone) : t'.parting id = t.parting id := by
  simp only [Tree.parting, h id, if_neg hid]
  cases t.node? id <;> rfl

lemma removal (h : t.Without gone t') (hid : id ∉ gone)
    (hparent : ∀ p, t.parentOf id = some p → p ∉ gone) : t'.removal id = t.removal id := by
  simp only [Tree.removal, h id, if_neg hid]
  cases hn : t.node? id with
  | none => rfl
  | some n =>
    cases hp : n.parent with
    | none => simp [hp]
    | some p =>
      have hkept : p ∉ gone := hparent p ((parentOf_eq hn).trans hp)
      simp only [Option.map_some, Option.bind_some, hp, h p, if_neg hkept]
      cases t.node? p <;> rfl

end Without

mutual

/-- Felling a branch publishes its farewell, also when other nodes, which are neither in the branch
nor right above it, went before. -/
theorem WellFormed.fell_snd (b : Branch) {t t' : Tree} {gone : List NodeId} (h : t.WellFormed root)
    (h' : t'.WellFormed root) (ht : t.Without gone t') (hb : t.Holds b) (hids : b.ids.Nodup)
    (hkept : ∀ y ∈ b.ids, y ∉ gone) (hparent : ∀ p, t.parentOf b.id = some p → p ∉ gone ∧ p ∉ b.ids) :
    (Tree.fell b t').2 = t.farewell b := by
  match b with
  | ⟨id, children⟩ =>
    obtain @⟨_, _, n, hn, hchildren, hparents, hbelow⟩ := hb
    obtain ⟨hid, hids⟩ := List.nodup_cons.mp hids
    have hidkept : id ∉ gone := hkept id List.mem_cons_self
    have hrest : ∀ y ∈ Branch.idsAll children, y ∉ gone := fun y hy =>
      hkept y (List.mem_cons_of_mem _ hy)
    have hholds : ∀ b ∈ children, t'.Holds b := fun b hb =>
      (hbelow b hb).without ht fun y hy => hrest y (Branch.mem_idsAll.mpr ⟨b, hb, hy⟩)
    obtain ⟨hevolves, hwithout⟩ := h'.evolves_fellAll children hholds hids
    have hpublished := h.fellAll_snd children h' ht hparents hbelow hids hrest hidkept hid
    have hstays : id ∉ gone ++ Branch.idsAll children := by simpa using ⟨hidkept, hid⟩
    have hremoval := (ht.trans hwithout).removal hstays fun p hp => by
      obtain ⟨hpgone, hpids⟩ := hparent p hp
      have hpbelow : p ∉ Branch.idsAll children := fun hmem => hpids (List.mem_cons_of_mem _ hmem)
      simpa using ⟨hpgone, hpbelow⟩
    have hparting := ht.parting hidkept
    simp only [Tree.parting] at hparting
    simp only [Tree.fell, Tree.farewell, Tree.parting, hpublished, hevolves.wellFormed.detach_snd,
      hremoval, ← hparting]

theorem WellFormed.fellAll_snd (bs : List Branch) {t t' : Tree} {gone : List NodeId} {p : NodeId}
    (h : t.WellFormed root) (h' : t'.WellFormed root) (ht : t.Without gone t')
    (hparent : ∀ b ∈ bs, t.parentOf b.id = some p) (hbs : ∀ b ∈ bs, t.Holds b)
    (hids : (Branch.idsAll bs).Nodup) (hkept : ∀ y ∈ Branch.idsAll bs, y ∉ gone) (hp : p ∉ gone)
    (hpids : p ∉ Branch.idsAll bs) : (fellAll bs t').2 = t.farewellAll bs := by
  match bs with
  | [] => rfl
  | b :: rest =>
    obtain ⟨hfirst, hrest, -⟩ := List.nodup_append.mp hids
    obtain ⟨hpfirst, hprest⟩ := not_or.mp fun hmem => hpids (List.mem_append.mpr hmem)
    have hkeptb : ∀ y ∈ b.ids, y ∉ gone := fun y hy => hkept y (List.mem_append_left _ hy)
    have hfell := h.fell_snd b h' ht (hbs b List.mem_cons_self) hfirst hkeptb fun q hq => by
      obtain rfl := Option.some.inj ((hparent b List.mem_cons_self).symm.trans hq)
      exact ⟨hp, hpfirst⟩
    obtain ⟨hevolves, hwithout⟩ := h'.evolves_fell b
      ((hbs b List.mem_cons_self).without ht hkeptb) hfirst
    have hlater := h.fellAll_snd rest hevolves.wellFormed (ht.trans hwithout)
      (fun b' hb' => hparent b' (List.mem_cons_of_mem _ hb'))
      (fun b' hb' => hbs b' (List.mem_cons_of_mem _ hb')) hrest
      (fun y hy hmem => by
        rcases List.mem_append.mp hmem with hmem | hmem
        · exact hkept y (List.mem_append_right _ hy) hmem
        · obtain ⟨b', hb', hy'⟩ := Branch.mem_idsAll.mp hy
          exact disjoint_of_nodup hids hb' y hy' hmem)
      (by simpa using ⟨hp, hpfirst⟩) hprest
    simp only [fellAll, farewellAll, hfell, hlater]

end

theorem WellFormed.dismantle_farewell (h : t.WellFormed root) (hn : t.node? id = some n) :
    ∃ b : Branch, b.id = id ∧ t.Carries b ∧ t.Without b.ids (t.dismantle id).tree ∧
      (t.dismantle id).published = t.farewell b := by
  obtain ⟨b, rfl, hb, heq⟩ := h.dismantle_eq hn
  rw [heq]
  refine ⟨b, rfl, hb, (h.evolves_fell b hb.holds hb.nodup).2, ?_⟩
  refine h.fell_snd b h (Without.nil t) hb.holds hb.nodup (by simp) fun p hp => ⟨by simp, ?_⟩
  exact fun hmem => h.not_below_child hp ((hb.mem_ids p).mp hmem)

lemma mem_parting {e : Publication} (he : e ∈ t.parting id) :
    ∃ n, t.node? id = some n ∧ e = ⟨n.hub, .deleted⟩ := by
  simp only [parting, List.mem_map, Option.mem_toList] at he
  obtain ⟨n, hn, rfl⟩ := he
  exact ⟨n, hn, rfl⟩

lemma mem_removal {e : Publication} (he : e ∈ t.removal id) : ∃ n p m, t.node? id = some n ∧
    n.parent = some p ∧ t.node? p = some m ∧ e = ⟨m.hub, .childRemoved n.asChild⟩ := by
  simp only [removal, Option.mem_toList, Option.bind_eq_some_iff, Option.map_eq_some_iff] at he
  obtain ⟨n, hn, p, hp, m, hm, rfl⟩ := he
  exact ⟨n, p, m, hn, hp, hm, rfl⟩

lemma mem_farewell {b : Branch} {e : Publication} (he : e ∈ t.farewell b) :
    (∃ id n, t.node? id = some n ∧ e = ⟨n.hub, .deleted⟩) ∨ ∃ id n p m, t.node? id = some n ∧
      n.parent = some p ∧ t.node? p = some m ∧ e = ⟨m.hub, .childRemoved n.asChild⟩ := by
  induction b using Branch.induct with
  | mk id children ih =>
    rw [farewell, List.mem_append, List.mem_append] at he
    obtain (he | he) | he := he
    · exact .inl ⟨id, mem_parting he⟩
    · induction children with
      | nil => cases he
      | cons b rest ih' =>
        obtain he | he := List.mem_append.mp he
        · exact ih b List.mem_cons_self he
        · exact ih' (fun b' hb' => ih b' (List.mem_cons_of_mem _ hb')) he
    · exact .inr ⟨id, mem_removal he⟩

end

/-! ### A farewell on one hub -/

/-- A live node has the hub. -/
def Owns (t : Tree) (hub : HubId) : Prop := ∃ n, t.node? hub.node = some n ∧ n.hub = hub

/-- The nodes among some ids as children. -/
def records (t : Tree) (ids : List NodeId) : List Child :=
  ids.filterMap fun id => (t.node? id).map Node.asChild

/-- The children of the node a hub belongs to, none if the node is gone. -/
def family (t : Tree) (hub : HubId) : List Child := t.records (t.view hub)

section

variable {root : TypeDef} {t t' : Tree} {id p : NodeId} {n m : Node} {hub : HubId}

lemma owns_hub (h : t.WellFormed root) (hn : t.node? id = some n) : t.Owns n.hub :=
  ⟨n, (h.hub hn).1.symm ▸ hn, rfl⟩

lemma records_append (t : Tree) (ids later : List NodeId) :
    t.records (ids ++ later) = t.records ids ++ t.records later := by
  simp [records]

lemma records_singleton (hn : t.node? id = some n) : t.records [id] = [n.asChild] := by
  simp [records, hn]

lemma family_eq (hn : t.node? hub.node = some n) (hhub : n.hub = hub) :
    t.family hub = t.records n.children := by
  rw [family, view_eq hn hhub]

lemma family_of_not_owns (h : ¬ t.Owns hub) : t.family hub = [] := by
  rw [family, view_eq_nil fun n hn hhub => h ⟨n, hn, hhub⟩]
  rfl

lemma WellFormed.eventsOn_parting (h : t.WellFormed root) (hown : t.Owns hub) (id : NodeId) :
    eventsOn hub (t.parting id) = if hub.node = id then [.deleted] else [] := by
  obtain ⟨n, hn, hhub⟩ := hown
  by_cases hid : hub.node = id
  · subst hid
    simp [parting, hn, eventsOn, hhub]
  · rw [if_neg hid]
    refine eventsOn_eq_nil fun p hp heq => hid ?_
    simp only [parting, List.mem_map, Option.mem_toList] at hp
    obtain ⟨m, hm, rfl⟩ := hp
    rw [← heq]
    exact (h.hub hm).1

lemma WellFormed.eventsOn_removal (h : t.WellFormed root) (hown : t.Owns hub) (id : NodeId) :
    eventsOn hub (t.removal id) =
      if t.parentOf id = some hub.node then (t.records [id]).map .childRemoved else [] := by
  obtain ⟨k, hk, hhub⟩ := hown
  cases hn : t.node? id with
  | none => simp [removal, parentOf, hn]
  | some n =>
    cases hp : n.parent with
    | none => simp [removal, parentOf, hn, hp]
    | some p =>
      obtain ⟨m, hm, -⟩ := h.parent_live hn hp
      have hiff : m.hub = hub ↔ p = hub.node := by
        constructor
        · rintro rfl
          exact (h.hub hm).1.symm
        · rintro rfl
          exact (congrArg Node.hub (Option.some.inj (hm.symm.trans hk))).trans hhub
      simp only [removal, hn, hp, hm, Option.bind_some, Option.map_some, Option.toList_some,
        eventsOn_singleton, parentOf, Option.some.injEq, hiff, records_singleton hn, List.map_cons,
        List.map_nil]

mutual

/-- On the hub of a node that goes a farewell says so and then tells its children one by one. On the
hub right above the branch it tells that one child is gone, and nothing on other hubs of the tree. -/
theorem WellFormed.eventsOn_farewell (b : Branch) (h : t.WellFormed root) (hown : t.Owns hub)
    (hb : t.Holds b) (hids : b.ids.Nodup) (hparent : ∀ q, t.parentOf b.id = some q → q ∉ b.ids) :
    eventsOn hub (t.farewell b) =
      if hub.node ∈ b.ids then .deleted :: (t.family hub).map .childRemoved
      else if t.parentOf b.id = some hub.node then (t.records [b.id]).map .childRemoved
      else [] := by
  match b with
  | ⟨id, children⟩ =>
    obtain @⟨_, _, n, hn, hchildren, hparents, hbelow⟩ := hb
    obtain ⟨hid, hids⟩ := List.nodup_cons.mp hids
    have hall := h.eventsOn_farewellAll children hown hparents hbelow hids hid
    rw [farewell, eventsOn_append, eventsOn_append, h.eventsOn_parting hown, hall,
      h.eventsOn_removal hown]
    by_cases hself : hub.node = id
    · obtain ⟨k, hk, hhub⟩ := hown
      obtain rfl : n = k := Option.some.inj (hn.symm.trans (hself ▸ hk))
      have hnot : t.parentOf id ≠ some hub.node := fun hp =>
        hparent _ hp (hself ▸ List.mem_cons_self)
      have hin : hub.node ∈ Branch.ids ⟨id, children⟩ := hself ▸ List.mem_cons_self
      have hnotin : hub.node ∉ Branch.idsAll children := hself.symm ▸ hid
      rw [if_pos hself, if_neg hnotin, if_pos hself.symm, if_neg hnot, if_pos hin,
        family_eq hk hhub, hchildren]
      simp
    · rw [if_neg hself]
      have hself' : ¬ id = hub.node := fun heq => hself heq.symm
      by_cases hin : hub.node ∈ Branch.idsAll children
      · have hnot : t.parentOf id ≠ some hub.node := fun hp =>
          hparent _ hp (List.mem_cons_of_mem _ hin)
        have hin' : hub.node ∈ Branch.ids ⟨id, children⟩ := List.mem_cons_of_mem _ hin
        rw [if_pos hin, if_neg hnot, if_pos hin']
        simp
      · have hnot : hub.node ∉ Branch.ids ⟨id, children⟩ := by
          rw [Branch.ids, List.mem_cons]
          exact not_or.mpr ⟨hself, hin⟩
        rw [if_neg hin, if_neg hself', if_neg hnot]
        rfl

theorem WellFormed.eventsOn_farewellAll (bs : List Branch) {p : NodeId} (h : t.WellFormed root)
    (hown : t.Owns hub) (hparent : ∀ b ∈ bs, t.parentOf b.id = some p)
    (hbs : ∀ b ∈ bs, t.Holds b) (hids : (Branch.idsAll bs).Nodup) (hp : p ∉ Branch.idsAll bs) :
    eventsOn hub (t.farewellAll bs) =
      if hub.node ∈ Branch.idsAll bs then .deleted :: (t.family hub).map .childRemoved
      else if p = hub.node then (t.records (bs.map Branch.id)).map .childRemoved
      else [] := by
  match bs with
  | [] => simp [farewellAll, Branch.idsAll, records]
  | b :: rest =>
    obtain ⟨hfirst, hrest, hdisjoint⟩ := List.nodup_append.mp hids
    obtain ⟨hpfirst, hprest⟩ := not_or.mp fun hmem => hp (List.mem_append.mpr hmem)
    have hpb := hparent b List.mem_cons_self
    have hone := h.eventsOn_farewell b hown (hbs b List.mem_cons_self) hfirst fun q hq => by
      obtain rfl := Option.some.inj (hpb.symm.trans hq)
      exact hpfirst
    have hlater := h.eventsOn_farewellAll rest hown
      (fun b' hb' => hparent b' (List.mem_cons_of_mem _ hb'))
      (fun b' hb' => hbs b' (List.mem_cons_of_mem _ hb')) hrest hprest
    simp only [hpb, Option.some.injEq] at hone
    rw [farewellAll, eventsOn_append, hone, hlater, Branch.idsAll]
    by_cases hin : hub.node ∈ b.ids
    · have hnot : hub.node ∉ Branch.idsAll rest := fun hmem => hdisjoint _ hin _ hmem rfl
      have hne : ¬ p = hub.node := fun heq => hpfirst (heq ▸ hin)
      rw [if_pos hin, if_neg hnot, if_neg hne, if_pos (List.mem_append_left _ hin), List.append_nil]
    · rw [if_neg hin]
      by_cases hin' : hub.node ∈ Branch.idsAll rest
      · have hne : ¬ p = hub.node := fun heq => hprest (heq ▸ hin')
        rw [if_pos hin', if_neg hne, if_pos (List.mem_append_right _ hin'), List.nil_append]
      · have hnot : hub.node ∉ b.ids ++ Branch.idsAll rest := fun hmem =>
          (List.mem_append.mp hmem).elim hin hin'
        rw [if_neg hin', if_neg hnot]
        split
        · rw [← List.map_append, ← records_append]
          rfl
        · rfl

end

end

end Tree

end LiveQuery
