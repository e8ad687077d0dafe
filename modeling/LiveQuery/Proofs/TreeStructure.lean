import LiveQuery.Proofs.Runs

/-!
# The structure of a tree

What a client can rely on about the tree of its session, whatever it asked for and whatever was
refused: the two kinds of links agree, the root stays as it was made, depths count the links, and
the links form a tree, in which every node is reached from the root on one path and no other.
-/

namespace LiveQuery

namespace Tree

/-- The links of a live tree, its root and its depths are as they should be. -/
structure Structured (root : TypeDef) (t : Tree) : Prop where
  id_eq : ∀ i n, t.node? i = some n → n.id = i
  root_node : ∃ r, t.node? .root = some r ∧ r.parent = none ∧ r.depth = 0 ∧
    r.type = .defined root ∧ r.hub = ⟨0, .root⟩
  eq_root : ∀ i n, t.node? i = some n → n.parent = none → i = .root
  mem_childrenOf : ∀ p c, c ∈ t.childrenOf p ↔ t.parentOf c = some p
  nodup : ∀ p, (t.childrenOf p).Nodup
  depth_eq : ∀ c n p, t.node? c = some n → n.parent = some p →
    ∃ m, t.node? p = some m ∧ n.depth = m.depth + 1
  path : ∀ x, t.contains x → ∃! l, t.Path .root l x
  acyclic : ∀ x l, t.Path x l x → l = []
  size_eq : ∃ reached : List NodeId, reached.Nodup ∧
    (∀ x, x ∈ reached ↔ ∃ l, t.Path .root l x) ∧ reached.length = t.size

section

variable {root : TypeDef} {s : Setting} {t t' : Tree} {ps : List Publication}

theorem WellFormed.structured (h : t.WellFormed root) (hlive : t.isLive) :
    t.Structured root where
  id_eq _ _ hn := h.id_eq hn
  root_node := by
    obtain ⟨r, hr⟩ := isLive_iff.mp hlive
    exact ⟨r, hr, h.root_eq hr⟩
  eq_root _ _ hn hp := h.eq_root hn hp
  mem_childrenOf _ _ := h.mem_children_iff
  nodup p := by
    cases hp : t.node? p with
    | none => simp [childrenOf, hp]
    | some m =>
      rw [childrenOf_eq hp]
      exact h.nodup hp
  depth_eq _ _ _ hn hp := by
    obtain ⟨m, hm, -, hdepth⟩ := h.parent_live hn hp
    exact ⟨m, hm, hdepth⟩
  path x hx := by
    rw [contains_eq_isSome, Option.isSome_iff_exists] at hx
    obtain ⟨n, hn⟩ := hx
    obtain ⟨l, hl⟩ := h.path_of_below (h.below_root hn)
    exact ⟨l, hl, fun l' hl' => h.path_unique hl' hl⟩
  acyclic _ _ hl := h.path_self hl
  size_eq := ⟨t.nodes.keys, t.nodes.nodup_keys, fun _ => (h.path_iff_mem_keys hlive).symm,
    Std.ExtTreeMap.length_keys⟩

/-! ### The root stays -/

namespace WellFormed

lemma isLive_add (h : t.WellFormed root) (hlive : t.isLive) (target : NodeId) (sel : Selection) :
    (t.add s target sel).tree.isLive := by
  obtain ⟨new, hgrows⟩ := h.grows_add (s := s) target sel
  rw [isLive_iff] at hlive ⊢
  obtain ⟨r, hr⟩ := hlive
  obtain ⟨r', hr', -⟩ := hgrows.kept hr
  exact ⟨r', hr'⟩

lemma isLive_dismantle (h : t.WellFormed root) (hlive : t.isLive) {id : NodeId}
    (hid : id ≠ .root) : (t.dismantle id).tree.isLive := by
  cases hn : t.node? id with
  | none => rwa [dismantle_of_absent hn]
  | some n =>
    obtain ⟨ids, hids, hwithout⟩ := h.without_dismantle hn
    rw [isLive_iff] at hlive ⊢
    obtain ⟨r, hr⟩ := hlive
    have hkept : NodeId.root ∉ ids := fun hmem => hid (h.eq_root_of_below ((hids _).mp hmem))
    rw [hwithout, if_neg hkept, hr]
    exact ⟨_, rfl⟩

lemma isLive_remove (h : t.WellFormed root) (hlive : t.isLive) (id : NodeId) :
    (t.remove id).tree.isLive := by
  unfold Tree.remove
  split
  · exact hlive
  · next hid =>
    split
    · exact h.isLive_dismantle hlive (by simpa [NodeId.isRoot] using hid)
    · exact hlive

lemma isLive_change (h : t.WellFormed root) (hlive : t.isLive) (c : Change) :
    (t.change s c).tree.isLive := by
  unfold Tree.change
  split
  · cases c with
    | add target sel =>
      have hadd := h.isLive_add (s := s) hlive target sel
      dsimp only
      split <;> exact hadd
    | delete target =>
      dsimp only
      split
      · exact hlive
      · next hid => exact h.isLive_dismantle hlive (by simpa [NodeId.isRoot] using hid)
  · exact hlive

lemma isLive_changeAll (h : t.WellFormed root) (hlive : t.isLive) (index : Nat)
    (cs : List Change) : (t.changeAll s index cs).tree.isLive := by
  induction cs generalizing t index with
  | nil => exact hlive
  | cons c rest ih =>
    exact ih (h.evolves_change (s := s) c).wellFormed (h.isLive_change hlive c) (index + 1)

lemma isLive_apply (h : t.WellFormed root) (hlive : t.isLive) (batch : Batch) :
    (t.apply s batch).tree.isLive :=
  isLive_changeAll (t := { t with bindings := t.bindings.putAll batch.assignments })
    (h.congr rfl (Nat.le_refl _)) hlive 0 batch.changes

lemma isLive_addChain (h : t.WellFormed root) (hlive : t.isLive) (field : String) (count : Nat)
    (target first : NodeId) : (t.addChain s field count target first).tree.isLive := by
  induction count generalizing t target first with
  | zero => exact hlive
  | succ count ih =>
    have hevolves := h.evolves_add (s := s) target { id := first, field }
    have hadd := h.isLive_add (s := s) hlive target { id := first, field }
    unfold Tree.addChain
    rcases hg : t.add s target { id := first, field } with ⟨e | id, t', ps⟩
    · rwa [hg] at hadd
    · rw [hg] at hevolves hadd
      exact ih hevolves.wellFormed hadd id id.next

end WellFormed

end

end Tree

namespace Server

section

variable {root : TypeDef} {s : Server} {k : Nat} {session : Session}

lemma isLive_of_effect {setting : Setting} {t t' : Tree} {c : Command} {ps : List Publication}
    (h : t.WellFormed root) (hlive : t.isLive) (hc : c ≠ .teardown ∧ c ≠ .discard)
    (heffect : c.effect? setting t = some (t', ps)) : t'.isLive := by
  obtain ⟨hteardown, hdiscard⟩ := hc
  cases c <;> simp only [Command.effect?, Option.some.injEq, Prod.mk.injEq, reduceCtorEq] at heffect
  case apply batch => exact heffect.1 ▸ h.isLive_apply hlive batch
  case add target sel => exact heffect.1 ▸ h.isLive_add hlive target sel
  case addChain target first count field =>
    exact heffect.1 ▸ h.isLive_addChain hlive field count target first
  case remove node => exact heffect.1 ▸ h.isLive_remove hlive node
  case teardown => exact absurd rfl hteardown
  case discard => exact absurd rfl hdiscard

lemma isLive_step (h : s.Sound root) (hk : s.sessions[k]? = some session)
    (hlive : session.tree.isLive) {j : Nat} {c : Command}
    (hc : j = k → c ≠ .teardown ∧ c ≠ .discard) : ∃ session' : Session,
      (s.step j c).server.sessions[k]? = some session' ∧ session'.tree.isLive := by
  obtain ⟨session', hk', ⟨hnodes, -⟩ | ⟨hjk, -, t, ps, heffect, -, rfl⟩⟩ := s.step_session j c hk
  · refine ⟨session', hk', ?_⟩
    rw [Tree.isLive_iff] at hlive ⊢
    simpa only [Tree.node?_congr hnodes] using hlive
  · exact ⟨_, hk', isLive_of_effect (h.wellFormed k session hk) hlive (hc hjk) heffect⟩

lemma isLive_run (h : s.Sound root) (hk : s.sessions[k]? = some session)
    (hlive : session.tree.isLive) (cs : List (Nat × Command))
    (hcs : ∀ c, (k, c) ∈ cs → c ≠ .teardown ∧ c ≠ .discard) : ∃ session' : Session,
      (s.run cs).sessions[k]? = some session' ∧ session'.tree.isLive := by
  induction cs generalizing s session with
  | nil => exact ⟨session, hk, hlive⟩
  | cons c rest ih =>
    obtain ⟨session', hk', hlive'⟩ := isLive_step h hk hlive (c := c.2) fun hj =>
      hcs c.2 (hj ▸ List.mem_cons_self)
    exact ih (h.step c.1 c.2) hk' hlive' fun c' hc' => hcs c' (List.mem_cons_of_mem _ hc')

end

/-- Whatever is asked of the sessions, as long as a session's tree is not taken down or dropped,
the tree is structured. -/
theorem tree_structured (setting : Setting) (root : TypeDef) (count : Nat)
    (cs : List (Nat × Command)) (k : Nat) (hk : k < count)
    (hcs : ∀ c, (k, c) ∈ cs → c ≠ .teardown ∧ c ≠ .discard) :
    ∃ session : Session, ((start setting root count).run cs).sessions[k]? = some session ∧
      session.tree.Structured root := by
  have hstart : (start setting root count).sessions[k]? = some (.start setting root) := by
    simp [start, hk]
  have hlive : (Session.start setting root).tree.isLive := by
    rw [Tree.isLive_iff, Session.start, Tree.node?_ofRoot, if_pos rfl]
    exact ⟨_, rfl⟩
  obtain ⟨session, hsession, hlive'⟩ :=
    isLive_run (sound_start setting root count) hstart hlive cs hcs
  exact ⟨session, hsession,
    ((sound_run setting root count cs).wellFormed k session hsession).structured hlive'⟩

/-- With a refused addition and a removal in the run. -/
theorem tree_structured_watched :
    0 < 1 ∧ (∀ c, (0, c) ∈ Sample.edited → c ≠ .teardown ∧ c ≠ .discard) ∧
    ∃ session : Session, ((start Sample.setting Sample.person 1).run Sample.edited).sessions[0]? =
      some session ∧ session.tree.Structured Sample.person := by
  have hcs : ∀ c, (0, c) ∈ Sample.edited → c ≠ .teardown ∧ c ≠ .discard := by
    simp [Sample.edited, Sample.watched]
  exact ⟨Nat.one_pos, hcs, tree_structured Sample.setting Sample.person 1 Sample.edited 0
    Nat.one_pos hcs⟩

end Server

end LiveQuery
