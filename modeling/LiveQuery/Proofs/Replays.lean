import LiveQuery.Proofs.Admission
import LiveQuery.Proofs.Values

/-!
# Additions on other trees

What was added to one tree can be added to another one in which the parent has the same type and depth,
the same values are bound, none of the new ids is taken, and there is room. The new nodes are the same
there, up to their hubs.
-/

namespace LiveQuery

/-- The node with nothing said of its hub. -/
def Node.hubless (n : Node) : Node := { n with hub := default }

lemma Node.hubless_eq_iff {n m : Node} : n.hubless = m.hubless ↔ n.id = m.id ∧
    n.parent = m.parent ∧ n.children = m.children ∧ n.depth = m.depth ∧ n.field = m.field ∧
    n.type = m.type ∧ n.arguments = m.arguments := by
  simp [hubless]

namespace Tree

section

variable {root : TypeDef} {s : Setting} {t t' u u' r r' r'' : Tree} {parent p x : NodeId}
  {n m : Node} {new later : List NodeId} {ps : List Publication} {out out' : List Reference}

/-! ### Sizes -/

lemma size_le_of_live (h : ∀ x, t.contains x → t'.contains x) : t.size ≤ t'.size := by
  have hkeys : ∀ u : Tree, u.size = u.nodes.keys.length := fun u => Std.ExtTreeMap.length_keys.symm
  rw [hkeys, hkeys]
  have hsub : t.nodes.keys ⊆ t'.nodes.keys := fun x hx => by
    rw [Std.ExtTreeMap.mem_keys, Std.ExtTreeMap.mem_iff_contains] at hx ⊢
    exact h x hx
  exact (List.subperm_of_subset Std.ExtTreeMap.nodup_keys hsub).length_le

lemma size_attach (hnew : t.node? n.id = none) :
    (t.attach p n).size = t.size + 1 := by
  have habsent : n.id ∉ t.nodes := by
    rw [Std.ExtTreeMap.mem_iff_isSome_getElem?]
    simpa [node?] using hnew
  simp [size, attach, Std.ExtTreeMap.size_modify, Std.ExtTreeMap.size_insert, habsent]

lemma size_planted (hnew : t.node? x = none) (parent : NodeId) (arguments : List Argument) (n : Node)
    (hid : n.id = x) : ((t.charged arguments).attach parent n).size = t.size + 1 :=
  size_attach (t := t.charged arguments) (hid ▸ hnew)

namespace Extends

lemma refl (t : Tree) (parent : NodeId) : t.Extends parent [] t where
  old x n hx := by simp [hx]
  fresh x n hx hnew := by
    rw [hnew] at hx
    cases hx
  nextHub_le := Nat.le_refl _

lemma absent (h : t.Extends parent new t') (hx : t'.node? x = none) : t.node? x = none := by
  cases hold : t.node? x with
  | none => rfl
  | some n =>
    rw [h.old x n hold] at hx
    cases hx

lemma kept_kind (h : t.Extends parent new t') (hx : t.node? x = some n) :
    ∃ n', t'.node? x = some n' ∧ n'.type = n.type ∧ n'.depth = n.depth := by
  refine ⟨_, h.old x n hx, ?_⟩
  split <;> exact ⟨rfl, rfl⟩

lemma size_le (h : t.Extends parent new t') : t.size ≤ t'.size := by
  refine size_le_of_live fun x hx => ?_
  rw [contains_eq_isSome, Option.isSome_iff_exists] at hx ⊢
  obtain ⟨n, hn⟩ := hx
  exact ⟨_, h.old x n hn⟩

end Extends

mutual

theorem size_le_of_grow {t t' : Tree} {ps : List Publication} (parent : NodeId) (sel : Selection)
    (hgrow : grow s parent sel t = ⟨.ok (), t', ps⟩) : ∀ limit ∈ s.limits.nodes, t'.size ≤ limit := by
  match sel with
  | ⟨id, field, arguments, children⟩ =>
    rcases hsprout : t.sprout s parent id field arguments with ⟨e | n, u⟩
    · simp [Tree.grow, hsprout] at hgrow
    · obtain ⟨m, type, held, -, hadmits, rfl, rfl⟩ := admits_of_sprout hsprout
      have hsize := size_planted hadmits.absent parent arguments
        (t.sprouted m id parent field type held) rfl
      rcases hnested : growAll s id children ((t.charged arguments).attach parent
        (t.sprouted m id parent field type held)) with ⟨e | ⟨⟩, t₂, qs⟩
      · simp [Tree.grow, hsprout, hnested] at hgrow
      · simp only [Tree.grow, hsprout, hnested, Transition.mk.injEq, true_and] at hgrow
        obtain ⟨rfl, -⟩ := hgrow
        intro limit hlimit
        refine size_le_of_growAll id children hnested limit hlimit ?_
        have := hadmits.size_lt limit hlimit
        omega

theorem size_le_of_growAll {t t' : Tree} {ps : List Publication} (parent : NodeId)
    (sels : List Selection) (hgrow : growAll s parent sels t = ⟨.ok (), t', ps⟩) :
    ∀ limit ∈ s.limits.nodes, t.size ≤ limit → t'.size ≤ limit := by
  match sels with
  | [] =>
    simp only [growAll, Transition.mk.injEq, true_and] at hgrow
    obtain ⟨rfl, -⟩ := hgrow
    exact fun _ _ h => h
  | sel :: rest =>
    rcases hfirst : grow s parent sel t with ⟨e | ⟨⟩, u, qs⟩
    · simp [growAll, hfirst] at hgrow
    · rcases hrest : growAll s parent rest u with ⟨e | ⟨⟩, u', qs'⟩
      · simp [growAll, hfirst, hrest] at hgrow
      · simp only [growAll, hfirst, hrest, Transition.mk.injEq, true_and] at hgrow
        obtain ⟨rfl, -⟩ := hgrow
        intro limit hlimit _
        exact size_le_of_growAll parent rest hrest limit hlimit
          (size_le_of_grow parent sel hfirst limit hlimit)

end

/-! ### What a tree needs -/

/-- In `r` there can grow below `parent` what grew there from `t` to `t'`. -/
structure Accommodates (s : Setting) (t t' r : Tree) (parent : NodeId) : Prop where
  parent_live : ∃ m m', t.node? parent = some m ∧ r.node? parent = some m' ∧ m'.type = m.type ∧
    m'.depth = m.depth
  values : t.bindings.SameValues r.bindings
  absent : ∀ x n, t.node? x = none → t'.node? x = some n → r.node? x = none
  room : ∀ limit ∈ s.limits.nodes, r.size + t'.size ≤ limit + t.size

/-- The same children grew below `parent` from `t` to `t'` and from `r` to `r'`. -/
structure Replays (t t' r r' : Tree) (parent : NodeId) (new : List NodeId) : Prop where
  before : t.Extends parent new t'
  after : r.Extends parent new r'
  fresh : ∀ x, t.node? x = none → r.node? x = none →
    (r'.node? x).map Node.hubless = (t'.node? x).map Node.hubless
  /-- Nodes that only `t` had are not made. -/
  apart : ∀ x n, t.node? x = some n → r.node? x = none → r'.node? x = none
  size_eq : r'.size + t.size = r.size + t'.size

namespace Replays

lemma refl (t r : Tree) (parent : NodeId) : Replays t t r r parent [] where
  before := Extends.refl t parent
  after := Extends.refl r parent
  fresh x ht hr := by rw [ht, hr]
  apart x n _ hr := hr
  size_eq := rfl

lemma absent (h : Replays t t' r r' parent new) (ht : t'.node? x = none) (hr : r.node? x = none) :
    r'.node? x = none := by
  have hsame := h.fresh x (h.before.absent ht) hr
  rw [ht] at hsame
  exact Option.map_eq_none_iff.mp hsame

lemma trans (h : Replays t u r u' parent new) (h' : Replays u t' u' r' parent later)
    (ht : t.node? parent = some n) (hr : r.node? parent = some m) :
    Replays t t' r r' parent (new ++ later) where
  before := h.before.trans h'.before
  after := h.after.trans h'.after
  fresh x htx hrx := by
    have hsame := h.fresh x htx hrx
    cases hu : u.node? x with
    | none =>
      rw [hu] at hsame
      exact h'.fresh x hu (Option.map_eq_none_iff.mp hsame)
    | some k =>
      rw [hu] at hsame
      obtain ⟨k', hk', heq⟩ := Option.map_eq_some_iff.mp hsame
      have hne : x ≠ parent := by
        rintro rfl
        rw [ht] at htx
        cases htx
      rw [h'.before.old x k hu, h'.after.old x k' hk', if_neg hne, if_neg hne]
      exact congrArg some heq
  apart x k htx hrx := by
    obtain ⟨k', hk', -⟩ := h.before.kept htx
    exact h'.apart x k' hk' (h.apart x k htx hrx)
  size_eq := by
    have := h.size_eq
    have := h'.size_eq
    omega

end Replays

namespace Accommodates

lemma first (h : Accommodates s t t' r parent) (hu : u.Extends parent later t') :
    Accommodates s t u r parent where
  parent_live := h.parent_live
  values := h.values
  absent x n hx hn := by
    obtain ⟨n', hn', -⟩ := hu.kept hn
    exact h.absent x n' hx hn'
  room limit hlimit := by
    have := h.room limit hlimit
    have := hu.size_le
    omega

lemma rest (h : Accommodates s t t' r parent) (hu : Replays t u r u' parent new)
    (hvalues : u.bindings.SameValues u'.bindings) : Accommodates s u t' u' parent where
  parent_live := by
    obtain ⟨m, m', hm, hm', htype, hdepth⟩ := h.parent_live
    obtain ⟨k, hk, hktype, hkdepth⟩ := hu.before.kept_kind hm
    obtain ⟨k', hk', hktype', hkdepth'⟩ := hu.after.kept_kind hm'
    exact ⟨k, k', hk, hk', by rw [hktype', hktype, htype], by rw [hkdepth', hkdepth, hdepth]⟩
  values := hvalues
  absent x n hx hn := hu.absent hx (h.absent x n (hu.before.absent hx) hn)
  room limit hlimit := by
    have := h.room limit hlimit
    have := hu.size_eq
    omega

end Accommodates

/-! ### One node -/

lemma Accommodates.admits {id : NodeId} {field : String} {arguments : List Argument}
    {type : NodeType} {held : References} (h : Accommodates s t t' r parent)
    (hadmits : Admits s t m id field arguments type held) (hm : t.node? parent = some m)
    (hlive : t'.node? id = some n) (hgrown : t.size < t'.size) :
    ∃ m', r.node? parent = some m' ∧ m'.depth = m.depth ∧
      Admits s r m' id field arguments type held := by
  obtain ⟨k, m', hk, hm', htype, hdepth⟩ := h.parent_live
  obtain rfl := Option.some.inj (hm.symm.trans hk)
  refine ⟨m', hm', hdepth, h.absent id n hadmits.absent hlive, ?_, ?_, ?_, fun limit hlimit => ?_⟩
  · rw [htype]
    exact hadmits.declared
  · rw [← h.values.hold_eq]
    exact hadmits.held_eq
  · rw [hdepth]
    exact hadmits.depth_le
  · have := h.room limit hlimit
    omega

namespace Plants

variable {t₁ r₁ : Tree} {k : Node}

/-- Below a node that was planted in both trees there can grow the same. -/
lemma accommodates (h : Plants root t parent n t₁) (h' : Plants root r parent k r₁)
    (hacc : Accommodates s t t' r parent) (ha : t.Accounts out)
    (ha' : r.Accounts out') (hid : k.id = n.id) (htype : k.type = n.type) (hdepth : k.depth = n.depth) (hsize : t₁.size = t.size + 1)
    (hsize' : r₁.size = r.size + 1) : Accommodates s t₁ t' r₁ n.id where
  parent_live := ⟨n, k, h.live, hid ▸ h'.live, htype, hdepth⟩
  values := (h.accounts out ha).2.symm.trans (hacc.values.trans (h'.accounts out' ha').2)
  absent x m hx hm := by
    have hr := hacc.absent x m (h.toExtends.absent hx) hm
    cases hr₁ : r₁.node? x with
    | none => rfl
    | some j =>
      rw [(h'.only x j hr₁ hr).trans hid, h.live] at hx
      cases hx
  room limit hlimit := by
    have := hacc.room limit hlimit
    omega

lemma replays (h : Plants root t parent n t₁) (h' : Plants root r parent k r₁)
    (ht : t.Extends parent [n.id] t') (hr : r.Extends parent [n.id] r')
    (hnested : Replays t₁ t' r₁ r' n.id new) (hsame : k.hubless = n.hubless)
    (hsize : t₁.size = t.size + 1) (hsize' : r₁.size = r.size + 1) :
    Replays t t' r r' parent [n.id] where
  before := ht
  after := hr
  fresh x htx hrx := by
    obtain ⟨hid, hparent, hchildren, hdepth, hfield, htype, harguments⟩ :=
      Node.hubless_eq_iff.mp hsame
    by_cases hx : x = n.id
    · rw [hx, hnested.before.old n.id n h.live, hnested.after.old n.id k (hid ▸ h'.live)]
      simp only [if_true, Option.map_some, Option.some.injEq, Node.hubless_eq_iff]
      exact ⟨hid, hparent, by rw [hchildren], hdepth, hfield, htype, harguments⟩
    · have ht₁ : t₁.node? x = none := by
        by_contra hlive
        obtain ⟨j, hj⟩ := Option.ne_none_iff_exists'.mp hlive
        exact hx (h.only x j hj htx)
      have hr₁ : r₁.node? x = none := by
        by_contra hlive
        obtain ⟨j, hj⟩ := Option.ne_none_iff_exists'.mp hlive
        exact hx ((h'.only x j hj hrx).trans hid)
      exact hnested.fresh x ht₁ hr₁
  apart x j htx hrx := by
    obtain ⟨j', hj', -⟩ := h.toExtends.kept htx
    have hr₁ : r₁.node? x = none := by
      by_contra hlive
      obtain ⟨i, hi⟩ := Option.ne_none_iff_exists'.mp hlive
      rw [(h'.only x i hi hrx).trans (Node.hubless_eq_iff.mp hsame).1, h.absent] at htx
      cases htx
    exact hnested.apart x j' hj' hr₁
  size_eq := by
    have := hnested.size_eq
    omega

end Plants

mutual

/-- What grew in one tree grows in another one that accommodates it. -/
theorem WellFormed.replays_grow {t t' r : Tree} {ps : List Publication} (h : t.WellFormed root)
    (hr : r.WellFormed root) (ha : t.Accounts out) (ha' : r.Accounts out') (parent : NodeId)
    (sel : Selection) (hgrow : grow s parent sel t = ⟨.ok (), t', ps⟩)
    (hacc : Accommodates s t t' r parent) :
    ∃ r' qs, grow s parent sel r = ⟨.ok (), r', qs⟩ ∧ Replays t t' r r' parent [sel.id] := by
  match sel with
  | ⟨id, field, arguments, children⟩ =>
    rcases hsprout : t.sprout s parent id field arguments with ⟨e | n, u⟩
    · simp [Tree.grow, hsprout] at hgrow
    · obtain ⟨m, type, held, hm, hadmits, rfl, rfl⟩ := admits_of_sprout hsprout
      obtain ⟨-, hplants⟩ := sprout_plants h hsprout
      obtain ⟨new, hgrows⟩ := hplants.wellFormed.growsAll (s := s) id children
      rcases hnested : growAll s id children ((t.charged arguments).attach parent
        (t.sprouted m id parent field type held)) with ⟨e | ⟨⟩, t₂, qs⟩
      · simp [Tree.grow, hsprout, hnested] at hgrow
      · simp only [Tree.grow, hsprout, hnested, Transition.mk.injEq, true_and] at hgrow
        obtain ⟨rfl, -⟩ := hgrow
        simp only [hnested] at hgrows
        have hsize := size_planted hadmits.absent parent arguments
          (t.sprouted m id parent field type held) rfl
        have hgrown : t.size < t₂.size := by
          have := hgrows.toExtends.size_le
          omega
        obtain ⟨m', hm', hdepth, hadmits'⟩ :=
          hacc.admits hadmits hm (hgrows.old id _ hplants.live) hgrown
        have hsprout' := hadmits'.sprout_eq hm'
        obtain ⟨-, hplants'⟩ := sprout_plants hr hsprout'
        have hsize' := size_planted hadmits'.absent parent arguments
          (r.sprouted m' id parent field type held) rfl
        have hdepth' : m'.depth + 1 = m.depth + 1 := by rw [hdepth]
        have hacc' := hplants.accommodates hplants' hacc ha ha' rfl rfl hdepth' hsize hsize'
        obtain ⟨r₂, qs', new', hnested', hreplays⟩ := hplants.wellFormed.replays_growAll
          hplants'.wellFormed (hplants.accounts out ha).1 (hplants'.accounts out' ha').1 id children
          hnested hacc'
        obtain ⟨later, hgrows'⟩ := hplants'.wellFormed.growsAll (s := s) id children
        simp only [hnested'] at hgrows'
        have hsame : (r.sprouted m' id parent field type held).hubless =
            (t.sprouted m id parent field type held).hubless :=
          Node.hubless_eq_iff.mpr ⟨rfl, rfl, rfl, hdepth', rfl, rfl, rfl⟩
        refine ⟨r₂, qs' ++ r₂.announcement parent id, ?_, ?_⟩
        · simp only [Tree.grow, hsprout', hnested']
        · exact hplants.replays hplants' (hplants.extends_nested hgrows)
            (hplants'.extends_nested hgrows') hreplays hsame hsize hsize'

theorem WellFormed.replays_growAll {t t' r : Tree} {ps : List Publication} (h : t.WellFormed root)
    (hr : r.WellFormed root) (ha : t.Accounts out) (ha' : r.Accounts out') (parent : NodeId)
    (sels : List Selection) (hgrow : growAll s parent sels t = ⟨.ok (), t', ps⟩)
    (hacc : Accommodates s t t' r parent) :
    ∃ r' qs new, growAll s parent sels r = ⟨.ok (), r', qs⟩ ∧ Replays t t' r r' parent new := by
  match sels with
  | [] =>
    simp only [growAll, Transition.mk.injEq, true_and] at hgrow
    obtain ⟨rfl, -⟩ := hgrow
    exact ⟨r, [], [], rfl, Replays.refl t r parent⟩
  | sel :: rest =>
    rcases hfirst : grow s parent sel t with ⟨e | ⟨⟩, u, qs⟩
    · simp [growAll, hfirst] at hgrow
    · rcases hrest : growAll s parent rest u with ⟨e | ⟨⟩, u', qs'⟩
      · simp [growAll, hfirst, hrest] at hgrow
      · simp only [growAll, hfirst, hrest, Transition.mk.injEq, true_and] at hgrow
        obtain ⟨rfl, -⟩ := hgrow
        have hgrows := h.grows (s := s) parent sel
        simp only [hfirst] at hgrows
        obtain ⟨new, hlater⟩ := hgrows.1.wellFormed.growsAll (s := s) parent rest
        simp only [hrest] at hlater
        obtain ⟨v, qs₁, hv, hreplays⟩ := h.replays_grow hr ha ha' parent sel hfirst
          (hacc.first hlater.toExtends)
        have hgrows' := hr.grows (s := s) parent sel
        simp only [hv] at hgrows'
        obtain ⟨hau, hvalues⟩ := hgrows.1.accounts out ha
        obtain ⟨hav, hvalues'⟩ := hgrows'.1.accounts out' ha'
        have hrest' := hacc.rest hreplays (hvalues.symm.trans (hacc.values.trans hvalues'))
        obtain ⟨r', qs₂, new', hr', hreplays'⟩ := hgrows.1.wellFormed.replays_growAll
          hgrows'.1.wellFormed hau hav parent rest hrest hrest'
        obtain ⟨m, m', hm, hm', -⟩ := hacc.parent_live
        refine ⟨r', qs₁ ++ qs₂, [sel.id] ++ new', ?_, hreplays.trans hreplays' hm hm'⟩
        simp only [growAll, hv, hr']

end

lemma grow_of_add {target id : NodeId} {sel : Selection}
    (hadd : t.add s target sel = ⟨.ok id, t', ps⟩) :
    grow s target sel t = ⟨.ok (), t', ps⟩ ∧ id = sel.id := by
  unfold Tree.add at hadd
  rcases hg : t.grow s target sel with ⟨e | ⟨⟩, u, qs⟩
  · simp [hg, Except.map] at hadd
  · simp only [hg, Except.map, Transition.mk.injEq, Except.ok.injEq] at hadd
    obtain ⟨rfl, rfl, rfl⟩ := hadd
    exact ⟨rfl, rfl⟩

lemma absent_of_grow {target : NodeId} {sel : Selection}
    (hgrow : grow s target sel t = ⟨.ok (), t', ps⟩) : t.node? sel.id = none := by
  rcases sel with ⟨id, field, arguments, children⟩
  rcases hsprout : t.sprout s target id field arguments with ⟨e | n, u⟩
  · simp [Tree.grow, hsprout] at hgrow
  · obtain ⟨m, type, held, -, hadmits, -⟩ := admits_of_sprout hsprout
    exact hadmits.absent

/-- What an accepted selection is to a tree. -/
structure Accepts (root : TypeDef) (s : Setting) (t : Tree) (target : NodeId) (sel : Selection)
    (out : List Reference) (t' : Tree) : Prop extends t.Extends target [sel.id] t' where
  absent_id : t.node? sel.id = none
  wellFormed : t'.WellFormed root
  accounts : t'.Accounts out
  values : t.bindings.SameValues t'.bindings
  size_le_limit : ∀ limit ∈ s.limits.nodes, t'.size ≤ limit

lemma WellFormed.accepts (h : t.WellFormed root) (ha : t.Accounts out) {target id : NodeId}
    {sel : Selection} (hadd : t.add s target sel = ⟨.ok id, t', ps⟩) :
    Accepts root s t target sel out t' := by
  obtain ⟨hgrow, -⟩ := grow_of_add hadd
  have hgrows := h.grows (s := s) target sel
  simp only [hgrow] at hgrows
  obtain ⟨ha', hvalues⟩ := hgrows.1.accounts out ha
  exact ⟨hgrows.1.toExtends, absent_of_grow hgrow, hgrows.1.wellFormed, ha', hvalues,
    size_le_of_grow target sel hgrow⟩

lemma Accepts.parentOf_id {target : NodeId} {sel : Selection} {m : Node}
    (h : Accepts root s t target sel out t') (hm : t.node? target = some m) :
    t'.parentOf sel.id = some target := by
  refine h.wellFormed.mem_children_iff.mp ?_
  rw [childrenOf_eq (h.old target m hm), if_pos rfl]
  exact List.mem_append_right _ (List.mem_singleton_self _)

/-- What was added to one tree is added to another one that accommodates it. -/
theorem WellFormed.replays_add (h : t.WellFormed root) (hr : r.WellFormed root) (ha : t.Accounts out)
    (ha' : r.Accounts out') {target id : NodeId} {sel : Selection}
    (hadd : t.add s target sel = ⟨.ok id, t', ps⟩) (hacc : Accommodates s t t' r target) :
    ∃ r' qs, r.add s target sel = ⟨.ok sel.id, r', qs⟩ ∧ Replays t t' r r' target [sel.id] := by
  obtain ⟨r', qs, hgrow, hreplays⟩ :=
    h.replays_grow hr ha ha' target sel (grow_of_add hadd).1 hacc
  exact ⟨r', qs, by simp [Tree.add, hgrow, Except.map], hreplays⟩

end

end Tree

end LiveQuery
