import LiveQuery.Proofs.Composition

/-!
# The types of nodes

Every node but the root has the type that the schema gives to the field it selects, and that field
is declared by the object type of its parent. A node is checked against its parent once, when it is
added, and the check stays good: as long as the node lives its parent is the node it was checked
against, even if ids come back on other nodes in the same batch.
-/

namespace LiveQuery

namespace Resolver

/-- The type of a field that is declared with a type expression: a primitive if one entry of the
field is named after a primitive, and otherwise the definition that is found for one entry. -/
def Assigns (r : Resolver) (declared : TypeExpr) (type : NodeType) : Prop :=
  (∃ name, declared.element = .named name ∧ r.isPrimitive name ∧ type = .primitive name) ∨
    (∀ name, declared.element = .named name → ¬ r.isPrimitive name) ∧
      ∃ definition, r.definition? declared.element = some definition ∧ type = .defined definition

/-- A node of this type can select the field below a node of the parent's type. -/
def Fits (r : Resolver) (parent : NodeType) (field : String) (type : NodeType) : Prop :=
  ∃ object declared, parent = .defined (.object object) ∧ object.field? field = some declared ∧
    r.Assigns declared.type type

lemma assigns_of_nodeType? {r : Resolver} {declared : TypeExpr} {type : NodeType}
    (h : r.nodeType? declared = some type) : r.Assigns declared type := by
  unfold nodeType? at h
  cases helement : declared.element with
  | named name =>
    simp only [helement, TypeExpr.name?] at h
    split at h
    · next hprimitive =>
      exact .inl ⟨name, helement, hprimitive, (Option.some.inj h).symm⟩
    · next hprimitive =>
      obtain ⟨definition, hdefinition, rfl⟩ := Option.map_eq_some_iff.mp h
      refine .inr ⟨fun other hother => ?_, definition, helement ▸ hdefinition, rfl⟩
      cases helement.symm.trans hother
      exact hprimitive
  | list item | nonNull inner =>
    simp only [helement, TypeExpr.name?, Option.map_eq_some_iff] at h
    obtain ⟨definition, hdefinition, rfl⟩ := h
    refine .inr ⟨fun name hname => ?_, definition, helement ▸ hdefinition, rfl⟩
    cases helement.symm.trans hname

end Resolver

lemma NodeType.eq_of_object? {type : NodeType} {object : ObjectDef}
    (h : type.object? = some object) : type = .defined (.object object) := by
  cases type with
  | defined definition =>
    cases definition with
    | object o =>
      cases h
      rfl
    | scalar | enumeration => cases h
  | primitive => cases h

namespace Tree

/-- Every node fits below its parent. -/
def Typed (r : Resolver) (t : Tree) : Prop :=
  ∀ c n p, t.node? c = some n → n.parent = some p →
    ∃ m, t.node? p = some m ∧ r.Fits m.type n.field n.type

section

variable {root : TypeDef} {s : Setting} {r : Resolver} {t t' : Tree} {id parent : NodeId}
  {n m : Node} {field : String} {arguments : List Argument}

lemma typed_ofRoot (r : Resolver) (root : TypeDef) : (ofRoot root).Typed r := by
  intro c n p hn hp
  rw [node?_ofRoot] at hn
  split at hn
  · cases hn
    cases hp
  · cases hn

namespace Typed

lemma of_kept (h : t.Typed r) (hw : t'.WellFormed root)
    (hkept : ∀ y k, t'.node? y = some k → ∃ k', t.node? y = some k' ∧
      k'.parent = k.parent ∧ k'.field = k.field ∧ k'.type = k.type) : t'.Typed r := by
  intro c n p hn hp
  obtain ⟨m, hm, -⟩ := hw.parent_live hn hp
  obtain ⟨n', hn', hparent, hfield, htype⟩ := hkept c n hn
  obtain ⟨m', hm', -, -, hmtype⟩ := hkept p m hm
  obtain ⟨k, hk, hfits⟩ := h c n' p hn' (hparent.trans hp)
  obtain rfl : m' = k := Option.some.inj (hm'.symm.trans hk)
  exact ⟨m, hm, hmtype ▸ hfield ▸ htype ▸ hfits⟩

lemma congr (h : t.Typed r) (hnodes : t'.nodes = t.nodes) : t'.Typed r := by
  intro c n p hn hp
  rw [node?_congr hnodes] at hn
  obtain ⟨m, hm, hfits⟩ := h c n p hn hp
  exact ⟨m, by rwa [node?_congr hnodes], hfits⟩

lemma attach (h : t.Typed r) (hm : t.node? parent = some m) (hid : t.node? n.id = none)
    (hparent : n.parent = some parent) (hfits : r.Fits m.type n.field n.type) :
    (t.attach parent n).Typed r := by
  have hne : n.id ≠ parent := by
    rintro rfl
    simp [hid] at hm
  have hkept : ∀ y k, t.node? y = some k →
      ∃ k', (t.attach parent n).node? y = some k' ∧ k'.type = k.type := by
    intro y k hk
    have hy : y ≠ n.id := by
      rintro rfl
      simp [hid] at hk
    rw [node?_attach hne, if_neg hy, hk]
    split <;> exact ⟨_, rfl, rfl⟩
  intro c k p hk hp
  rw [node?_attach hne] at hk
  split at hk
  · cases hk
    cases hparent.symm.trans hp
    obtain ⟨m', hm', htype⟩ := hkept parent m hm
    exact ⟨m', hm', htype ▸ hfits⟩
  · have hold : ∃ k', t.node? c = some k' ∧ k'.parent = k.parent ∧ k'.field = k.field ∧
        k'.type = k.type := by
      split at hk
      · obtain ⟨k', hk', rfl⟩ := Option.map_eq_some_iff.mp hk
        exact ⟨k', hk', rfl, rfl, rfl⟩
      · exact ⟨k, hk, rfl, rfl, rfl⟩
    obtain ⟨k', hk', hparent', hfield, htype⟩ := hold
    obtain ⟨q, hq, hfits'⟩ := h c k' p hk' (hparent'.trans hp)
    obtain ⟨q', hq', hqtype⟩ := hkept p q hq
    exact ⟨q', hq', hqtype ▸ hfield ▸ htype ▸ hfits'⟩

end Typed

lemma fits_of_typeBelow {type : NodeType} (h : t.typeBelow s m id field = .ok type) :
    s.resolver.Fits m.type field type := by
  unfold typeBelow at h
  split at h
  · cases h
  · split at h
    · cases h
    · next object hobject =>
      split at h
      · cases h
      · next declared hdeclared =>
        split at h
        · cases h
        · next given hgiven =>
          cases h
          exact ⟨object, declared, NodeType.eq_of_object? hobject, hdeclared,
            Resolver.assigns_of_nodeType? hgiven⟩

lemma fits_of_sprout (h : t.sprout s parent id field arguments = (.ok n, t'))
    (hm : t.node? parent = some m) : s.resolver.Fits m.type n.field n.type := by
  simp only [sprout, hm] at h
  split at h
  · simp at h
  · next type htype =>
    split at h
    · simp at h
    · split at h
      · simp at h
      · simp only [Prod.mk.injEq, Except.ok.injEq] at h
        obtain ⟨rfl, -⟩ := h
        exact fits_of_typeBelow htype

lemma Typed.sprout (h : t.Typed s.resolver)
    (hsprout : t.sprout s parent id field arguments = (.ok n, t')) :
    (t'.attach parent n).Typed s.resolver := by
  obtain ⟨m, hm, hid, rfl, hparent, -, -, -, hnodes, -⟩ := sprout_ok hsprout
  have hnode := node?_congr hnodes
  exact (h.congr hnodes).attach ((hnode parent).trans hm) ((hnode n.id).trans hid) hparent
    (fits_of_sprout hsprout hm)

mutual

theorem WellFormed.typed_grow {t : Tree} (h : t.WellFormed root) (ht : t.Typed s.resolver)
    (parent : NodeId) (sel : Selection) : (grow s parent sel t).tree.Typed s.resolver := by
  match sel with
  | ⟨id, field, arguments, children⟩ =>
    have hgrows := h.grows (s := s) parent ⟨id, field, arguments, children⟩
    rcases hsprout : t.sprout s parent id field arguments with ⟨e | n, t'⟩
    · obtain ⟨hnodes, -⟩ := sprout_error hsprout
      simp only [Tree.grow, hsprout]
      exact ht.congr hnodes
    · obtain ⟨rfl, hplants⟩ := sprout_plants h hsprout
      have hnested := hplants.wellFormed.typed_growAll (ht.sprout hsprout) n.id children
      rcases hgrow : growAll s n.id children (t'.attach parent n) with ⟨e | ⟨⟩, t'', ps⟩
      · simp only [Tree.grow, hsprout, hgrow] at hgrows ⊢
        exact ht.congr hgrows.nodes_eq
      · rw [hgrow] at hnested
        simp only [Tree.grow, hsprout, hgrow]
        exact hnested

theorem WellFormed.typed_growAll {t : Tree} (h : t.WellFormed root) (ht : t.Typed s.resolver)
    (parent : NodeId) (sels : List Selection) :
    (growAll s parent sels t).tree.Typed s.resolver := by
  match sels with
  | [] => exact ht
  | sel :: rest =>
    have hfirst := h.grows (s := s) parent sel
    have htyped := h.typed_grow ht parent sel
    rcases hgrow : Tree.grow s parent sel t with ⟨e | ⟨⟩, t', ps⟩
    · rw [hgrow] at htyped
      simp only [growAll, hgrow]
      exact htyped
    · rw [hgrow] at hfirst htyped
      simp only [growAll, hgrow]
      exact hfirst.1.wellFormed.typed_growAll htyped parent rest

end

lemma WellFormed.typed_add (h : t.WellFormed root) (ht : t.Typed s.resolver) (target : NodeId)
    (sel : Selection) : (t.add s target sel).tree.Typed s.resolver :=
  h.typed_grow ht target sel

lemma WellFormed.typed_dismantle (h : t.WellFormed root) (ht : t.Typed r) (id : NodeId) :
    (t.dismantle id).tree.Typed r := by
  cases hn : t.node? id with
  | none => rwa [dismantle_of_absent hn]
  | some n =>
    obtain ⟨ids, -, hwithout⟩ := h.without_dismantle hn
    refine ht.of_kept (h.evolves_dismantle id).wellFormed fun y k hk => ?_
    rw [hwithout y] at hk
    split at hk
    · cases hk
    · obtain ⟨k', hk', rfl⟩ := Option.map_eq_some_iff.mp hk
      exact ⟨k', hk', rfl, rfl, rfl⟩

lemma compositional_typed (root : TypeDef) (s : Setting) :
    Compositional root s fun t _ t' => t.Typed s.resolver → t'.Typed s.resolver where
  bindings _ _ ht := ht.congr rfl
  trans _ _ _ hfirst hsecond := hsecond ∘ hfirst
  add h target sel ht := h.typed_add ht target sel
  dismantle h id ht := h.typed_dismantle ht id

end

/-- Every node but the root has the type of the first field of its name that the object type of its
parent declares, and a node whose type is no object type has no children. -/
structure WellTyped (r : Resolver) (t : Tree) : Prop where
  typed : ∀ c n, t.node? c = some n → c ≠ .root → ∃ p m object declared,
    n.parent = some p ∧ t.node? p = some m ∧ m.type = .defined (.object object) ∧
    object.fields.find? (·.name = n.field) = some declared ∧ r.Assigns declared.type n.type
  leaf : ∀ p m, t.node? p = some m → (∀ object, m.type ≠ .defined (.object object)) →
    m.children = []

theorem WellFormed.wellTyped {root : TypeDef} {r : Resolver} {t : Tree} (h : t.WellFormed root)
    (ht : t.Typed r) : t.WellTyped r where
  typed c n hn hc := by
    cases hp : n.parent with
    | none => exact absurd (h.eq_root hn hp) hc
    | some p =>
      obtain ⟨m, hm, object, declared, hobject, hdeclared, hassigns⟩ := ht c n p hn hp
      exact ⟨p, m, object, declared, rfl, hm, hobject, hdeclared, hassigns⟩
  leaf p m hm hobject := by
    refine List.eq_nil_iff_forall_not_mem.mpr fun c hc => ?_
    obtain ⟨n, hn, hp⟩ := h.child_live hm hc
    obtain ⟨m', hm', object, -, htype, -⟩ := ht c n p hn hp
    obtain rfl : m = m' := Option.some.inj (hm.symm.trans hm')
    exact hobject object htype

end Tree

namespace Server

section

variable {root : TypeDef} {s : Server} {k : Nat} {a : Session}

lemma typed_step (hs : s.Sound root) (hk : s.sessions[k]? = some a)
    (ha : a.tree.Typed a.setting.resolver) (j : Nat) (c : Command) : ∃ b : Session,
      (s.step j c).server.sessions[k]? = some b ∧ b.tree.Typed b.setting.resolver := by
  obtain ⟨b, hb, hcase⟩ := s.step_session j c hk
  refine ⟨b, hb, ?_⟩
  rw [setting_step hk hb]
  rcases hcase with ⟨hnodes, -⟩ | ⟨-, -, t, ps, heffect, -, rfl⟩
  · exact ha.congr hnodes
  · by_cases hc : c = .discard
    · subst hc
      cases heffect
      intro x n p hn
      simp [Session.after, Tree.node?, Tree.discard] at hn
    · exact (Tree.compositional_typed root a.setting).effect (hs.wellFormed k a hk) hc heffect ha

lemma typed_run (hs : s.Sound root) (hk : s.sessions[k]? = some a)
    (ha : a.tree.Typed a.setting.resolver) (cs : List (Nat × Command)) : ∃ b : Session,
      (s.run cs).sessions[k]? = some b ∧ b.tree.Typed b.setting.resolver := by
  induction cs generalizing s a with
  | nil => exact ⟨a, hk, ha⟩
  | cons c rest ih =>
    obtain ⟨b, hb, htyped⟩ := typed_step hs hk ha c.1 c.2
    exact ih (hs.step c.1 c.2) hb htyped

end

/-- In every state that a run reaches, whatever was deleted and came back under the same ids, the
tree of each session is well typed. -/
theorem tree_well_typed (setting : Setting) (root : TypeDef) (count : Nat)
    (cs : List (Nat × Command)) (k : Nat) (hk : k < count) :
    ∃ session : Session, ((start setting root count).run cs).sessions[k]? = some session ∧
      session.tree.WellTyped setting.resolver := by
  have hstart : (start setting root count).sessions[k]? = some (.start setting root) := by
    simp [start, hk]
  obtain ⟨session, hsession, htyped⟩ := typed_run (sound_start setting root count) hstart
    (Tree.typed_ofRoot setting.resolver root) cs
  rw [(start_of_run hsession).2] at htyped
  exact ⟨session, hsession,
    ((sound_run setting root count cs).wellFormed k session hsession).wellTyped htyped⟩

namespace Sample

/-- One batch deletes a person and brings her id back on a name, below which nothing can be added
any more. -/
def retyped : List (Nat × Command) :=
  edited ++ [(0, .apply ⟨[], [.delete ⟨2⟩, .add .root { id := ⟨2⟩, field := "name" },
    .add ⟨2⟩ { id := ⟨6⟩, field := "name" }]⟩)]

end Sample

theorem tree_well_typed_retyped : 0 < 1 ∧ ∃ session : Session,
    ((start Sample.setting Sample.person 1).run Sample.retyped).sessions[0]? = some session ∧
    session.tree.WellTyped Sample.setting.resolver ∧
    (session.tree.node? ⟨2⟩).map (·.type) = some (.primitive "String") ∧
    session.tree.contains ⟨6⟩ = false := by
  have htypes : (((start Sample.setting Sample.person 1).run Sample.retyped).sessions[0]?).map
      (fun a => ((a.tree.node? ⟨2⟩).map (·.type), a.tree.contains ⟨6⟩)) =
      some (some (.primitive "String"), false) := by cbv
  obtain ⟨session, hsession, htyped⟩ := tree_well_typed Sample.setting Sample.person 1
    Sample.retyped 0 Nat.one_pos
  simp only [hsession, Option.map_some, Option.some.injEq, Prod.mk.injEq] at htypes
  exact ⟨Nat.one_pos, session, hsession, htyped, htypes⟩

end Server

end LiveQuery
