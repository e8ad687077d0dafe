import LiveQuery.Proofs.Deletions
import LiveQuery.Proofs.Flattening
import LiveQuery.Proofs.Replays

/-!
# Independent operations

Two additions below nodes that are there before both can be made in either order, and so can an
addition and a removal of something that is not above it. The trees are the same afterwards, up to the
hubs that were given out meanwhile and up to the order of two new children of one node.
-/

namespace LiveQuery

namespace Tree

section

variable {root : TypeDef} {s : Setting} {t u v t' t'' : Tree} {p q x y id id' : NodeId} {n m k : Node}
  {first second sel : Selection} {ps qs : List Publication} {out : List Reference}

/-! ### Two additions -/

namespace Accepts

lemma accommodates_first (h : Accepts root s t p first out u)
    (h' : Accepts root s u q second out v) (hq : t.node? q = some n) : Accommodates s u v t q where
  parent_live := by
    obtain ⟨m, hm, htype, hdepth⟩ := h.kept_kind hq
    exact ⟨m, n, hm, hq, htype.symm, hdepth.symm⟩
  values := h.values.symm
  absent _ _ hx _ := h.absent hx
  room limit hlimit := by
    have := h.size_le
    have := h'.size_le_limit limit hlimit
    omega

lemma accommodates_second (h' : Accepts root s u q second out v) (hp : t.node? p = some n)
    (hreplays : Replays u v t t' q [second.id]) (hvalues : t.bindings.SameValues t'.bindings) :
    Accommodates s t u t' p where
  parent_live := by
    obtain ⟨m, hm, htype, hdepth⟩ := hreplays.after.kept_kind hp
    exact ⟨n, m, hp, hm, htype, hdepth⟩
  values := hvalues
  absent x m hx hm := hreplays.apart x m hm hx
  room limit hlimit := by
    have := h'.size_le_limit limit hlimit
    have := hreplays.size_eq
    omega

end Accepts

/-- Two trees that come of the same two additions in either order. -/
structure Swapped (t v t'' : Tree) (p q a b : NodeId) : Prop where
  bindings_eq : t''.bindings = v.bindings
  nodes_eq : ∀ x, (p = q → x ≠ p) →
    (t''.node? x).map Node.hubless = (v.node? x).map Node.hubless
  /-- Below the same node, the new children stand in the order in which they were added. -/
  siblings : p = q → ∃ n, t.node? p = some n ∧
    v.node? p = some { n with children := n.children ++ [a, b] } ∧
    t''.node? p = some { n with children := n.children ++ [b, a] }

/-- Two additions to either side of a tree meet again. -/
lemma swapped_nodes (hu : t.Extends p [id] u) (hv : u.Extends q [id'] v)
    (h : Replays u v t t' q [id']) (h' : Replays t u t' t'' p [id]) (hp : t.node? p = some n)
    (hq : t.node? q = some m) (x : NodeId) (hx : p = q → x ≠ p) :
    (t''.node? x).map Node.hubless = (v.node? x).map Node.hubless := by
  cases htx : t.node? x with
  | some k =>
    rw [hv.old x _ (hu.old x k htx), h'.after.old x _ (h.after.old x k htx)]
    by_cases hxp : x = p
    · have hxq : x ≠ q := fun heq => hx (hxp.symm.trans heq) hxp
      simp only [if_pos hxp, if_neg hxq]
    · simp only [if_neg hxp]
  | none =>
    have hxp : x ≠ p := by
      rintro rfl
      rw [hp] at htx
      cases htx
    have hxq : x ≠ q := by
      rintro rfl
      rw [hq] at htx
      cases htx
    cases hux : u.node? x with
    | some k =>
      rw [h'.fresh x htx (h.apart x k hux htx), hux, hv.old x k hux, if_neg hxq]
    | none =>
      have hsame := h.fresh x hux htx
      cases ht'x : t'.node? x with
      | some k =>
        rw [← hsame, ht'x, h'.after.old x k ht'x, if_neg hxp]
      | none => rw [h'.absent hux ht'x, ← hsame, ht'x]

/-- Additions below nodes that are there before both can be made in either order. -/
theorem WellFormed.add_swap (h : t.WellFormed root) (ha : t.Accounts out)
    (hp : t.node? p = some n) (hq : t.node? q = some m)
    (hfirst : t.add s p first = ⟨.ok id, u, ps⟩) (hsecond : u.add s q second = ⟨.ok id', v, qs⟩) :
    ∃ t' t'' ps' qs', t.add s q second = ⟨.ok second.id, t', ps'⟩ ∧
      t'.add s p first = ⟨.ok first.id, t'', qs'⟩ ∧ Swapped t v t'' p q first.id second.id := by
  have hu := h.accepts ha hfirst
  have hv := hu.wellFormed.accepts hu.accounts hsecond
  obtain ⟨t', ps', hadd, hreplays⟩ := hu.wellFormed.replays_add h hu.accounts ha hsecond
    (hu.accommodates_first hv hq)
  have ht' := h.accepts ha hadd
  obtain ⟨t'', qs', hadd', hreplays'⟩ := h.replays_add ht'.wellFormed ha ht'.accounts hfirst
    (hv.accommodates_second hp hreplays ht'.values)
  have ht'' := ht'.wellFormed.accepts ht'.accounts hadd'
  have hnodes := swapped_nodes hu.toExtends hv.toExtends hreplays hreplays' hp hq
  have hsiblings : p = q → v.node? p = some { n with children := n.children ++ [first.id, second.id] } ∧
      t''.node? p = some { n with children := n.children ++ [second.id, first.id] } := by
    rintro rfl
    rw [hv.old p _ (hu.old p n hp), ht''.old p _ (ht'.old p n hp)]
    simp
  refine ⟨t', t'', ps', qs', hadd, hadd', ?_, hnodes, fun hpq => ⟨n, hp, hsiblings hpq⟩⟩
  refine bindings_eq_of_arguments_eq ht''.accounts hv.accounts (fun x => ?_)
    ((ht'.values.trans ht''.values).symm.trans (hu.values.trans hv.values))
  by_cases hx : p = q → x ≠ p
  · have hsame := congrArg (Option.map Node.arguments) (hnodes x hx)
    rwa [Option.map_map, Option.map_map] at hsame
  · push Not at hx
    obtain ⟨hpq, rfl⟩ := hx
    obtain ⟨hv', ht''⟩ := hsiblings hpq
    rw [hv', ht'']
    rfl

/-! ### An addition and a removal -/

lemma Extends.below_iff {new : List NodeId} (h : t.Extends p new u) (hw : t.WellFormed root)
    (hx : t.node? x = some n) : u.Below y x ↔ t.Below y x := by
  refine ⟨fun hbelow => ?_, h.below⟩
  induction hbelow generalizing n with
  | refl => exact .refl
  | @step q c hq _ ih =>
    obtain ⟨n', hn', hparent, -⟩ := h.kept hx
    rw [parentOf_eq hn', hparent] at hq
    obtain ⟨k, hk, -⟩ := hw.parent_live hx hq
    exact .step ((parentOf_eq hx).trans hq) (ih hk)

namespace Accepts

variable (h : Accepts root s t p sel out u) (hw : t.WellFormed root) (hout : ¬ t.Below x p)
include h hw hout

lemma not_below (hp : t.node? p = some m) (hx : t.node? x = some n) (hy : u.Below sel.id y) :
    ¬ u.Below x y := by
  have hold : ∀ a, u.Below a x ↔ t.Below a x := fun a => h.below_iff hw hx
  induction hy with
  | refl =>
    intro hbelow
    cases hbelow with
    | refl =>
      rw [h.absent_id] at hx
      cases hx
    | step hq hbelow =>
      have hmem : sel.id ∈ u.childrenOf p := by
        rw [childrenOf_eq (h.old p m hp), if_pos rfl]
        exact List.mem_append_right _ (List.mem_singleton_self _)
      have hparent := h.wellFormed.mem_children_iff.mp hmem
      obtain rfl := Option.some.inj (hq.symm.trans hparent)
      exact hout ((h.below_iff hw hp).mp hbelow)
  | @step q y hq hbelow' ih =>
    intro hbelow
    cases hbelow with
    | refl =>
      -- the top of the branch would be below the new node
      have htop := (hold sel.id).mp (.step hq hbelow')
      obtain ⟨k, hk⟩ := hw.live_of_below htop hx
      rw [h.absent_id] at hk
      cases hk
    | step hq' hbelow =>
      obtain rfl := Option.some.inj (hq.symm.trans hq')
      exact ih hbelow

lemma spares (hp : t.node? p = some m) (hx : t.node? x = some n) (hy : t.node? y = none)
    (hlive : u.node? y = some k) : ¬ u.Below x y := by
  obtain ⟨-, c, hc, hbelow⟩ := h.fresh y k hlive hy
  obtain rfl := List.mem_singleton.mp hc
  exact h.not_below hw hout hp hx hbelow

omit hw in
lemma accommodates_spared {gone : List NodeId} (hp : t.node? p = some m)
    (hgone : ∀ y, y ∈ gone ↔ t.Below x y) (ht' : t.Without gone t')
    (hvalues : t.bindings.SameValues t'.bindings) : Accommodates s t u t' p where
  parent_live := by
    refine ⟨m, { m with children := m.children.filter (· ∉ gone) }, hp, ?_, rfl, rfl⟩
    rw [ht' p, if_neg ((hgone p).not.mpr hout), hp, Option.map_some]
  values := hvalues
  absent y _ hy _ := by
    rw [ht' y, hy]
    exact ite_self _
  room limit hlimit := by
    have hle : t'.size ≤ t.size := size_le_of_live fun y hy => by
      rw [contains_eq_isSome, ht' y] at hy
      rw [contains_eq_isSome]
      split at hy
      · cases hy
      · rwa [Option.isSome_map] at hy
    have := h.size_le_limit limit hlimit
    omega

lemma spared_nodes {gone gone' : List NodeId} (hp : t.node? p = some m) (hx : t.node? x = some n)
    (hgone : ∀ y, y ∈ gone ↔ t.Below x y) (ht' : t.Without gone t')
    (hgone' : ∀ y, y ∈ gone' ↔ u.Below x y) (hu' : u.Without gone' u')
    (hreplays : Replays t u t' v p [sel.id]) (y : NodeId) :
    (v.node? y).map Node.hubless = (u'.node? y).map Node.hubless := by
  have hold : ∀ {z j}, t.node? z = some j → (z ∈ gone' ↔ z ∈ gone) := fun hz => by
    rw [hgone, hgone', h.below_iff hw hz]
  have hnew : ∀ {z j}, t.node? z = none → u.node? z = some j → z ∉ gone' := fun hz hlive => by
    rw [hgone']
    exact h.spares hw hout hp hx hz hlive
  cases hy : t.node? y with
  | some k =>
    have hchildren : k.children.filter (· ∉ gone') = k.children.filter (· ∉ gone) := by
      refine List.filter_congr fun c hc => ?_
      obtain ⟨j, hj, -⟩ := hw.child_live hy hc
      simp only [hold hj]
    rw [hu' y, h.old y k hy]
    by_cases hmem : y ∈ gone
    · have hnone : t'.node? y = none := by rw [ht' y, if_pos hmem]
      rw [if_pos ((hold hy).mpr hmem), hreplays.apart y k hy hnone]
    · have hkept : t'.node? y = some { k with children := k.children.filter (· ∉ gone) } := by
        rw [ht' y, if_neg hmem, hy, Option.map_some]
      rw [if_neg ((hold hy).not.mpr hmem), hreplays.after.old y _ hkept]
      by_cases hyp : y = p
      · obtain ⟨j, hj, -⟩ := h.wellFormed.child_live (h.old p m hp) (c := sel.id) (by simp)
        have hself : [sel.id].filter (· ∉ gone') = [sel.id] := by simp [hnew h.absent_id hj]
        simp only [if_pos hyp, Option.map_some, List.filter_append, hchildren, hself]
      · simp only [if_neg hyp, Option.map_some, hchildren]
  | none =>
    have hnone : t'.node? y = none := by
      rw [ht' y, hy]
      exact ite_self _
    rw [hreplays.fresh y hy hnone, hu' y]
    cases hlive : u.node? y with
    | none => simp
    | some k =>
      have hchildren : k.children.filter (· ∉ gone') = k.children := by
        rw [List.filter_eq_self]
        intro c hc
        obtain ⟨j, hj, hparent⟩ := h.wellFormed.child_live hlive hc
        have hc' : t.node? c = none := by
          by_contra hlive'
          obtain ⟨i, hi⟩ := Option.ne_none_iff_exists'.mp hlive'
          obtain ⟨i', hi', hsame, -⟩ := h.kept hi
          obtain rfl := Option.some.inj (hj.symm.trans hi')
          obtain ⟨l, hl, -⟩ := hw.parent_live hi (hsame.symm.trans hparent)
          rw [hy] at hl
          cases hl
        simpa using hnew hc' hj
      rw [if_neg (hnew hy hlive)]
      simp only [Option.map_some, hchildren]

end Accepts

/-- An addition outside a branch can be made before or after the branch is removed. -/
theorem WellFormed.add_dismantle_swap (h : t.WellFormed root) (ha : t.Accounts out)
    (hp : t.node? p = some m) (hx : t.node? x = some n) (hout : ¬ t.Below x p)
    (hadd : t.add s p sel = ⟨.ok id, u, ps⟩) :
    ∃ v qs, (t.dismantle x).tree.add s p sel = ⟨.ok sel.id, v, qs⟩ ∧
      v.bindings = (u.dismantle x).tree.bindings ∧
      ∀ y, (v.node? y).map Node.hubless = ((u.dismantle x).tree.node? y).map Node.hubless := by
  have hu := h.accepts ha hadd
  obtain ⟨gone, hgone, ht'⟩ := h.without_dismantle hx
  obtain ⟨n', hn', -⟩ := hu.kept hx
  obtain ⟨gone', hgone', hu'⟩ := hu.wellFormed.without_dismantle hn'
  have he := h.evolves_dismantle x
  have he' := hu.wellFormed.evolves_dismantle x
  have hremoved := sameValues_dismantle t x
  have hremoved' := sameValues_dismantle u x
  obtain ⟨v, qs, hadd', hreplays⟩ := h.replays_add he.wellFormed ha (he.accounts out ha) hadd
    (hu.accommodates_spared hout hp hgone ht' hremoved)
  have hv := he.wellFormed.accepts (he.accounts out ha) hadd'
  have hnodes := hu.spared_nodes h hout hp hx hgone ht' hgone' hu' hreplays
  refine ⟨v, qs, hadd', ?_, hnodes⟩
  refine bindings_eq_of_arguments_eq hv.accounts (he'.accounts out hu.accounts) (fun y => ?_)
    ((hremoved.trans hv.values).symm.trans (hu.values.trans hremoved'))
  have hsame := congrArg (Option.map Node.arguments) (hnodes y)
  rwa [Option.map_map, Option.map_map] at hsame

end

end Tree

namespace Server

/-- Operations on the tree of session `a`, the `k`-th one, that have nothing to do with each other can
be made in either order. -/
structure Independent (s : Server) (k : Nat) (a : Session) : Prop where
  additions : ∀ p q first second i j, a.tree.contains p → a.tree.contains q →
    s.replies [(k, .add p first), (k, .add q second)] = [.added i, .added j] →
    s.replies [(k, .add q second), (k, .add p first)] = [.added second.id, .added first.id] ∧
    ∃ b b' : Session, (s.run [(k, .add p first), (k, .add q second)]).sessions[k]? = some b ∧
      (s.run [(k, .add q second), (k, .add p first)]).sessions[k]? = some b' ∧
      Tree.Swapped a.tree b.tree b'.tree p q first.id second.id
  removal : ∀ p x sel i, a.tree.contains p → a.tree.contains x → x ≠ .root →
    ¬ a.tree.Below x p → s.replies [(k, .add p sel), (k, .remove x)] = [.added i, .removed] →
    s.replies [(k, .remove x), (k, .add p sel)] = [.removed, .added sel.id] ∧
    ∃ b b' : Session, (s.run [(k, .add p sel), (k, .remove x)]).sessions[k]? = some b ∧
      (s.run [(k, .remove x), (k, .add p sel)]).sessions[k]? = some b' ∧
      b'.tree.bindings = b.tree.bindings ∧
      ∀ y, (b'.tree.node? y).map Node.hubless = (b.tree.node? y).map Node.hubless

section

variable {root : TypeDef} {s : Server} {k : Nat} {a : Session} {p q x i j : NodeId} {n : Node}
  {first second sel : Selection}

lemma add_of_reply (hk : s.sessions[k]? = some a) (hlive : a.tree.isLive)
    (hreply : (s.step k (.add p sel)).reply = .added i) : ∃ t ps,
      a.tree.add a.setting p sel = ⟨.ok i, t, ps⟩ ∧
      (s.step k (.add p sel)).server = s.setSession k (a.after t ps) := by
  rcases hadd : a.tree.add a.setting p sel with ⟨e | id, t, ps⟩
  · rw [step_add_error hk hlive (by rw [hadd])] at hreply
    cases hreply
  · obtain ⟨hreply', hserver⟩ := step_add_ok hk hlive hadd
    rw [hreply'] at hreply
    cases hreply
    exact ⟨t, ps, rfl, hserver⟩

lemma step_remove_ok (hk : s.sessions[k]? = some a) (hlive : a.tree.isLive)
    (hx : a.tree.node? x = some n) (hroot : x ≠ .root) :
    (s.step k (.remove x)).reply = .removed ∧ (s.step k (.remove x)).server =
      s.setSession k (a.after (a.tree.dismantle x).tree (a.tree.dismantle x).published) := by
  have hsession : s.live? k = .ok a := live?_eq_ok_iff.mpr ⟨hk, hlive⟩
  simp [step, onTree, hsession, Session.perform, Session.after, Tree.remove_eq hx hroot]

lemma Sound.swap_additions (hs : s.Sound root) (hk : s.sessions[k]? = some a)
    (hp : a.tree.contains p) (hq : a.tree.contains q)
    (hreplies : s.replies [(k, .add p first), (k, .add q second)] = [.added i, .added j]) :
    s.replies [(k, .add q second), (k, .add p first)] = [.added second.id, .added first.id] ∧
    ∃ b b' : Session, (s.run [(k, .add p first), (k, .add q second)]).sessions[k]? = some b ∧
      (s.run [(k, .add q second), (k, .add p first)]).sessions[k]? = some b' ∧
      Tree.Swapped a.tree b.tree b'.tree p q first.id second.id := by
  have hw := hs.wellFormed k a hk
  rw [Tree.contains_eq_isSome, Option.isSome_iff_exists] at hp hq
  obtain ⟨n, hn⟩ := hp
  obtain ⟨m, hm⟩ := hq
  have hlive : a.tree.isLive := Tree.isLive_iff.mpr (hw.root_live hn)
  simp only [replies, List.cons.injEq, and_true] at hreplies
  obtain ⟨hfirst, hsecond⟩ := hreplies
  obtain ⟨u, ps, hadd, hserver⟩ := add_of_reply hk hlive hfirst
  have hlive₁ := hw.isLive_add (s := a.setting) hlive p first
  have hk₁ := getElem?_setSession hk (a.after u ps)
  rw [hadd] at hlive₁
  rw [← hserver] at hk₁
  obtain ⟨v, qs, hadd', hserver'⟩ := add_of_reply hk₁ hlive₁ hsecond
  obtain ⟨t', t'', ps', qs', hswap, hswap', hswapped⟩ :=
    hw.add_swap (hs.accounted k a hk) hn hm hadd hadd'
  obtain ⟨hreply₂, hserver₂⟩ := step_add_ok hk hlive hswap
  have hlive₂ := hw.isLive_add (s := a.setting) hlive q second
  have hk₂ := getElem?_setSession hk (a.after t' ps')
  rw [hswap] at hlive₂
  rw [← hserver₂] at hk₂
  obtain ⟨hreply₃, hserver₃⟩ := step_add_ok hk₂ hlive₂ hswap'
  refine ⟨by simp only [replies, hreply₂, hreply₃], (a.after u ps).after v qs,
    (a.after t' ps').after t'' qs', ?_, ?_, hswapped⟩
  · rw [Server.run, Server.run, Server.run, hserver']
    exact getElem?_setSession hk₁ _
  · rw [Server.run, Server.run, Server.run, hserver₃]
    exact getElem?_setSession hk₂ _

lemma Sound.swap_removal (hs : s.Sound root) (hk : s.sessions[k]? = some a)
    (hp : a.tree.contains p) (hx : a.tree.contains x) (hroot : x ≠ .root)
    (hout : ¬ a.tree.Below x p)
    (hreplies : s.replies [(k, .add p sel), (k, .remove x)] = [.added i, .removed]) :
    s.replies [(k, .remove x), (k, .add p sel)] = [.removed, .added sel.id] ∧
    ∃ b b' : Session, (s.run [(k, .add p sel), (k, .remove x)]).sessions[k]? = some b ∧
      (s.run [(k, .remove x), (k, .add p sel)]).sessions[k]? = some b' ∧
      b'.tree.bindings = b.tree.bindings ∧
      ∀ y, (b'.tree.node? y).map Node.hubless = (b.tree.node? y).map Node.hubless := by
  have hw := hs.wellFormed k a hk
  rw [Tree.contains_eq_isSome, Option.isSome_iff_exists] at hp hx
  obtain ⟨m, hm⟩ := hp
  obtain ⟨n, hn⟩ := hx
  have hlive : a.tree.isLive := Tree.isLive_iff.mpr (hw.root_live hn)
  simp only [replies, List.cons.injEq, and_true] at hreplies
  obtain ⟨u, ps, hadd, hserver⟩ := add_of_reply hk hlive hreplies.1
  have hu := hw.accepts (hs.accounted k a hk) hadd
  obtain ⟨n', hn', -⟩ := hu.kept hn
  have hlive₁ := hw.isLive_add (s := a.setting) hlive p sel
  have hk₁ := getElem?_setSession hk (a.after u ps)
  rw [hadd] at hlive₁
  rw [← hserver] at hk₁
  obtain ⟨-, hserver'⟩ := step_remove_ok hk₁ hlive₁ hn' hroot
  obtain ⟨v, qs, hswap, hbindings, hnodes⟩ :=
    hw.add_dismantle_swap (hs.accounted k a hk) hm hn hout hadd
  obtain ⟨hreply₂, hserver₂⟩ := step_remove_ok hk hlive hn hroot
  have hlive₂ := hw.isLive_dismantle hlive hroot
  have hk₂ := getElem?_setSession hk
    (a.after (a.tree.dismantle x).tree (a.tree.dismantle x).published)
  rw [← hserver₂] at hk₂
  obtain ⟨hreply₃, hserver₃⟩ := step_add_ok hk₂ hlive₂ hswap
  refine ⟨by simp only [replies, hreply₂, hreply₃],
    (a.after u ps).after (u.dismantle x).tree (u.dismantle x).published,
    (a.after (a.tree.dismantle x).tree (a.tree.dismantle x).published).after v qs, ?_, ?_,
    hbindings, hnodes⟩
  · rw [Server.run, Server.run, Server.run, hserver']
    exact getElem?_setSession hk₁ _
  · rw [Server.run, Server.run, Server.run, hserver₃]
    exact getElem?_setSession hk₂ _

end

/-- Whatever happened before, two additions below nodes that are there can be made in either order,
and so can an addition and the removal of a node that is not above its target. -/
theorem independent_operations_commute (setting : Setting) (root : TypeDef) (count : Nat)
    (cs : List (Nat × Command)) (k : Nat) (a : Session)
    (hk : ((start setting root count).run cs).sessions[k]? = some a) :
    ((start setting root count).run cs).Independent k a where
  additions _ _ _ _ _ _ hp hq := (sound_run setting root count cs).swap_additions hk hp hq
  removal _ _ _ _ hp hx hroot := (sound_run setting root count cs).swap_removal hk hp hx hroot

namespace Sample

/-- A friend with a name. -/
def friend : Selection where
  id := ⟨2⟩
  field := "friend"
  arguments := [⟨"since", year⟩]
  children := [{ id := ⟨3⟩, field := "name" }]

end Sample

theorem independent_operations_commute_siblings : ∃ (a b b' : Session) (n n' : Node),
    ((start Sample.setting Sample.person 1).run Sample.watched).sessions[0]? = some a ∧
    ((start Sample.setting Sample.person 1).run Sample.watched).Independent 0 a ∧
    (((start Sample.setting Sample.person 1).run Sample.watched).run
      [(0, .add .root Sample.friend), (0, .add .root { id := ⟨4⟩, field := "name" })]).sessions[0]? =
        some b ∧
    (((start Sample.setting Sample.person 1).run Sample.watched).run
      [(0, .add .root { id := ⟨4⟩, field := "name" }), (0, .add .root Sample.friend)]).sessions[0]? =
        some b' ∧
    b'.tree.bindings = b.tree.bindings ∧
    b.tree.node? .root = some n ∧ n.children = [⟨1⟩, ⟨2⟩, ⟨4⟩] ∧
    b'.tree.node? .root = some n' ∧ n'.children = [⟨1⟩, ⟨4⟩, ⟨2⟩] := by
  have hstart : (((start Sample.setting Sample.person 1).run Sample.watched).sessions[0]?).map
      (fun a => (a.tree.contains .root, a.tree.childrenOf .root)) = some (true, [⟨1⟩]) := by cbv
  obtain ⟨a, hk, hroot⟩ := Option.map_eq_some_iff.mp hstart
  obtain ⟨hlive, hchildren⟩ := Prod.mk.inj hroot
  have hindependent := independent_operations_commute Sample.setting Sample.person 1 Sample.watched
    0 a hk
  have hreplies : ((start Sample.setting Sample.person 1).run Sample.watched).replies
      [(0, .add .root Sample.friend), (0, .add .root { id := ⟨4⟩, field := "name" })] =
        [.added ⟨2⟩, .added ⟨4⟩] := by cbv
  obtain ⟨-, b, b', hb, hb', hswapped⟩ :=
    hindependent.additions .root .root _ _ _ _ hlive hlive hreplies
  obtain ⟨n, hn, hfirst, hsecond⟩ := hswapped.siblings rfl
  rw [Tree.childrenOf_eq hn] at hchildren
  refine ⟨a, b, b', _, _, hk, hindependent, hb, hb', hswapped.bindings_eq, hfirst, ?_, hsecond, ?_⟩
  · rw [hchildren]
    rfl
  · rw [hchildren]
    rfl

end Server

end LiveQuery
