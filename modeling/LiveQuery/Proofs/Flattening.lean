import LiveQuery.Proofs.SingleCalls

/-!
# Selections node by node

To add a selection with all that is nested in it comes to adding its nodes one by one, each as soon
as its parent is there. The tree in the middle of a nested addition is the tree after as many single
ones, hubs included, so both find the same nodes in their way and stop for the same reason.
-/

namespace LiveQuery

namespace Selection

mutual

/-- The nodes of a selection from the top down, a node before what is nested in it and each with the
node that it goes below. -/
def flatten (parent : NodeId) : Selection → List (NodeId × Selection)
  | ⟨id, field, arguments, children⟩ =>
    (parent, ⟨id, field, arguments, []⟩) :: flattenAll id children

def flattenAll (parent : NodeId) : List Selection → List (NodeId × Selection)
  | [] => []
  | selection :: rest => selection.flatten parent ++ flattenAll parent rest

end

end Selection

namespace Tree

/-- Added one by one, all these selections are accepted, and turn one tree into the other. -/
inductive Adds (s : Setting) : List (NodeId × Selection) → Tree → Tree → Prop
  | done {t : Tree} : Adds s [] t t
  | next {t u t' : Tree} {parent : NodeId} {sel : Selection} {rest : List (NodeId × Selection)}
      {ps : List Publication} (first : t.add s parent sel = ⟨.ok sel.id, u, ps⟩)
      (later : Adds s rest u t') : Adds s ((parent, sel) :: rest) t t'

/-- Added one by one, some of these selections are accepted, and the next one is refused for `e`. -/
def StopsAt (s : Setting) (sels : List (NodeId × Selection)) (t : Tree) (e : Rejection) : Prop :=
  ∃ done parent sel rest u, sels = done ++ (parent, sel) :: rest ∧ Adds s done t u ∧
    (u.add s parent sel).result = .error e

section

variable {s : Setting} {t t' t'' : Tree} {parent : NodeId} {sels later : List (NodeId × Selection)}
  {e : Rejection}

lemma Adds.append (h : Adds s sels t t') (h' : Adds s later t' t'') :
    Adds s (sels ++ later) t t'' := by
  induction h with
  | done => exact h'
  | next first _ ih => exact .next first (ih h')

lemma Adds.single {sel : Selection} {ps : List Publication}
    (h : t.add s parent sel = ⟨.ok sel.id, t', ps⟩) : Adds s [(parent, sel)] t t' :=
  .next h .done

lemma StopsAt.append (h : StopsAt s sels t e) (later : List (NodeId × Selection)) :
    StopsAt s (sels ++ later) t e := by
  obtain ⟨done, parent, sel, rest, u, rfl, hdone, he⟩ := h
  exact ⟨done, parent, sel, rest ++ later, u, by simp, hdone, he⟩

lemma StopsAt.after (h : StopsAt s later t' e) (h' : Adds s sels t t') :
    StopsAt s (sels ++ later) t e := by
  obtain ⟨done, parent, sel, rest, u, rfl, hdone, he⟩ := h
  exact ⟨sels ++ done, parent, sel, rest, u, by simp, h'.append hdone, he⟩

lemma StopsAt.first {sel : Selection} (h : (t.add s parent sel).result = .error e) :
    StopsAt s [(parent, sel)] t e :=
  ⟨[], parent, sel, [], t, rfl, .done, h⟩

lemma add_leaf (s : Setting) (t : Tree) (parent id : NodeId) (field : String)
    (arguments : List Argument) : t.add s parent ⟨id, field, arguments, []⟩ =
      match t.sprout s parent id field arguments with
      | (.error e, t) => ⟨.error e, t, []⟩
      | (.ok n, t) => ⟨.ok id, t.attach parent n, (t.attach parent n).announcement parent id⟩ := by
  rcases hsprout : t.sprout s parent id field arguments with ⟨e | n, t'⟩
  · simp [Tree.add, grow, hsprout, Except.map]
  · simp [Tree.add, grow, growAll, hsprout, Except.map]

mutual

/-- In the middle of a nested addition the tree is the one that as many single additions leave. -/
theorem grow_flatten (s : Setting) (parent : NodeId) (sel : Selection) (t : Tree) :
    match grow s parent sel t with
    | ⟨.ok (), t', _⟩ => Adds s (sel.flatten parent) t t'
    | ⟨.error e, _, _⟩ => StopsAt s (sel.flatten parent) t e := by
  match sel with
  | ⟨id, field, arguments, children⟩ =>
    have hleaf := add_leaf s t parent id field arguments
    rw [Selection.flatten, ← List.singleton_append]
    rcases hsprout : t.sprout s parent id field arguments with ⟨e | n, t'⟩
    · rw [hsprout] at hleaf
      simp only [grow, hsprout]
      apply StopsAt.append
      apply StopsAt.first
      rw [hleaf]
    · rw [hsprout] at hleaf
      have hfirst := Adds.single hleaf
      have hnested := growAll_flatten s id children (t'.attach parent n)
      rcases hgrow : growAll s id children (t'.attach parent n) with ⟨e | ⟨⟩, t'', ps⟩
      · rw [hgrow] at hnested
        simp only [grow, hsprout, hgrow]
        exact hnested.after hfirst
      · rw [hgrow] at hnested
        simp only [grow, hsprout, hgrow]
        exact hfirst.append hnested

theorem growAll_flatten (s : Setting) (parent : NodeId) (sels : List Selection) (t : Tree) :
    match growAll s parent sels t with
    | ⟨.ok (), t', _⟩ => Adds s (Selection.flattenAll parent sels) t t'
    | ⟨.error e, _, _⟩ => StopsAt s (Selection.flattenAll parent sels) t e := by
  match sels with
  | [] => exact .done
  | sel :: rest =>
    have hfirst := grow_flatten s parent sel t
    rw [Selection.flattenAll]
    rcases hgrow : grow s parent sel t with ⟨e | ⟨⟩, t', ps⟩
    · rw [hgrow] at hfirst
      simp only [growAll, hgrow]
      exact hfirst.append _
    · rw [hgrow] at hfirst
      have hrest := growAll_flatten s parent rest t'
      rcases hlater : growAll s parent rest t' with ⟨e | ⟨⟩, t'', qs⟩
      · rw [hlater] at hrest
        simp only [growAll, hgrow, hlater]
        exact hrest.after hfirst
      · rw [hlater] at hrest
        simp only [growAll, hgrow, hlater]
        exact hfirst.append hrest

end

end

end Tree

namespace Server

/-- The commands that add some selections to the tree of session `k`, one by one. -/
def additions (k : Nat) (sels : List (NodeId × Selection)) : List (Nat × Command) :=
  sels.map fun (parent, sel) => (k, .add parent sel)

section

variable {root : TypeDef} {s : Server} {k : Nat} {a : Session} {t : Tree} {parent : NodeId}
  {sel : Selection} {ps : List Publication} {e : Rejection}

lemma step_add_ok (hk : s.sessions[k]? = some a) (hlive : a.tree.isLive) {id : NodeId}
    (hadd : a.tree.add a.setting parent sel = ⟨.ok id, t, ps⟩) :
    (s.step k (.add parent sel)).reply = .added id ∧
      (s.step k (.add parent sel)).server = s.setSession k (a.after t ps) := by
  have hsession : s.live? k = .ok a := live?_eq_ok_iff.mpr ⟨hk, hlive⟩
  simp [step, onTree, hsession, Session.perform, Session.after, hadd]

lemma step_add_error (hk : s.sessions[k]? = some a) (hlive : a.tree.isLive)
    (hadd : (a.tree.add a.setting parent sel).result = .error e) :
    (s.step k (.add parent sel)).reply = .rejected e := by
  have hsession : s.live? k = .ok a := live?_eq_ok_iff.mpr ⟨hk, hlive⟩
  simp [step, onTree, hsession, Session.perform, hadd]

lemma run_additions {setting : Setting} {sels : List (NodeId × Selection)} {t t' : Tree}
    (hadds : Tree.Adds setting sels t t') (hs : s.Sound root) (hk : s.sessions[k]? = some a)
    (hlive : a.tree.isLive) (hsetting : a.setting = setting) (ht : a.tree = t) :
    s.replies (additions k sels) = sels.map (.added ·.2.id) ∧
      ∃ b : Session, (s.run (additions k sels)).sessions[k]? = some b ∧ b.tree.isLive ∧
        b.setting = setting ∧ b.tree = t' := by
  induction hadds generalizing s a with
  | done => exact ⟨rfl, a, hk, hlive, hsetting, ht⟩
  | @next t u t' parent sel rest ps first _ ih =>
    subst hsetting ht
    obtain ⟨hreply, hserver⟩ := step_add_ok hk hlive first
    have hlive' : u.isLive := by
      have hadd := (hs.wellFormed k a hk).isLive_add (s := a.setting) hlive parent sel
      rwa [first] at hadd
    have hk' := getElem?_setSession hk (a.after u ps)
    rw [← hserver] at hk'
    obtain ⟨hreplies, hend⟩ := ih (hs.step k (.add parent sel)) hk' hlive' rfl rfl
    simp only [additions, List.map_cons, replies, run] at hreplies hend ⊢
    exact ⟨by rw [hreply, hreplies], hend⟩

lemma Sound.add_flatten (hs : s.Sound root) (hk : s.sessions[k]? = some a)
    (hlive : a.tree.isLive) (target : NodeId) (sel : Selection) :
    ((s.step k (.add target sel)).reply = .added sel.id ∧
      s.replies (additions k (sel.flatten target)) =
        (sel.flatten target).map (.added ·.2.id) ∧
      ∃ b b' : Session, (s.step k (.add target sel)).server.sessions[k]? = some b ∧
        (s.run (additions k (sel.flatten target))).sessions[k]? = some b' ∧ b'.tree = b.tree) ∨
    ∃ e done parent node rest, (s.step k (.add target sel)).reply = .rejected e ∧
      sel.flatten target = done ++ (parent, node) :: rest ∧
      s.replies (additions k done) = done.map (.added ·.2.id) ∧
      ((s.run (additions k done)).step k (.add parent node)).reply = .rejected e := by
  have hflatten := Tree.grow_flatten a.setting target sel a.tree
  rcases hgrow : Tree.grow a.setting target sel a.tree with ⟨e | ⟨⟩, t, ps⟩
  · right
    rw [hgrow] at hflatten
    obtain ⟨done, parent, node, rest, u, hsplit, hdone, he⟩ := hflatten
    have hadd : (a.tree.add a.setting target sel).result = .error e := by
      rw [Tree.add, hgrow]
      rfl
    obtain ⟨hreplies, b, hb, hlive', hsetting, htree⟩ := run_additions hdone hs hk hlive rfl rfl
    rw [← hsetting, ← htree] at he
    exact ⟨e, done, parent, node, rest, step_add_error hk hlive hadd, hsplit, hreplies,
      step_add_error hb hlive' he⟩
  · left
    rw [hgrow] at hflatten
    have hadd : a.tree.add a.setting target sel = ⟨.ok sel.id, t, ps⟩ := by
      rw [Tree.add, hgrow]
      rfl
    obtain ⟨hreply, hserver⟩ := step_add_ok hk hlive hadd
    obtain ⟨hreplies, b', hb', -, -, htree⟩ := run_additions hflatten hs hk hlive rfl rfl
    refine ⟨hreply, hreplies, a.after t ps, b', ?_, hb', htree⟩
    rw [hserver]
    exact getElem?_setSession hk _

end

/-- Whatever happened before, a selection is accepted only if its nodes would be accepted one by
one, from the top down, and then the tree is the same, with its bindings; and if it is refused, then
they would be accepted up to one of them, which would be refused for the same reason. -/
theorem addition_node_by_node (setting : Setting) (root : TypeDef) (count : Nat)
    (cs : List (Nat × Command)) (k : Nat) (a : Session)
    (hk : ((start setting root count).run cs).sessions[k]? = some a) (hlive : a.tree.isLive)
    (target : NodeId) (sel : Selection) :
    ((((start setting root count).run cs).step k (.add target sel)).reply = .added sel.id ∧
      ((start setting root count).run cs).replies (additions k (sel.flatten target)) =
        (sel.flatten target).map (.added ·.2.id) ∧
      ∃ b b' : Session,
        (((start setting root count).run cs).step k
          (.add target sel)).server.sessions[k]? = some b ∧
        (((start setting root count).run cs).run
          (additions k (sel.flatten target))).sessions[k]? = some b' ∧ b'.tree = b.tree) ∨
    ∃ e done parent node rest,
      (((start setting root count).run cs).step k (.add target sel)).reply = .rejected e ∧
      sel.flatten target = done ++ (parent, node) :: rest ∧
      ((start setting root count).run cs).replies (additions k done) = done.map (.added ·.2.id) ∧
      ((((start setting root count).run cs).run (additions k done)).step k
        (.add parent node)).reply = .rejected e :=
  (sound_run setting root count cs).add_flatten hk hlive target sel

namespace Sample

/-- Two friends, the first of whom has a name and a friend with the same arguments. -/
def circle : Selection where
  id := ⟨2⟩
  field := "friend"
  children := [
    { id := ⟨3⟩, field := "friend", arguments := [⟨"since", year⟩, ⟨"since", year⟩],
      children := [{ id := ⟨4⟩, field := "name" }] },
    { id := ⟨5⟩, field := "friend", arguments := [⟨"since", year⟩] }]

/-- An id comes back deep down in the same selection. -/
def collision : Selection where
  id := ⟨2⟩
  field := "friend"
  children := [{ id := ⟨3⟩, field := "friend", children := [{ id := ⟨2⟩, field := "name" }] },
    { id := ⟨4⟩, field := "name" }]

end Sample

theorem addition_node_by_node_nested : ∃ a : Session,
    ((start Sample.setting Sample.person 1).run Sample.watched).sessions[0]? = some a ∧
    a.tree.isLive ∧
    ((start Sample.setting Sample.person 1).run Sample.watched).replies
      (additions 0 (Sample.circle.flatten ⟨1⟩)) =
        [.added ⟨2⟩, .added ⟨3⟩, .added ⟨4⟩, .added ⟨5⟩] ∧
    ∃ b b' : Session,
      (((start Sample.setting Sample.person 1).run Sample.watched).step 0
        (.add ⟨1⟩ Sample.circle)).server.sessions[0]? = some b ∧
      (((start Sample.setting Sample.person 1).run Sample.watched).run
        (additions 0 (Sample.circle.flatten ⟨1⟩))).sessions[0]? = some b' ∧ b'.tree = b.tree ∧
    ∃ done parent node rest, Sample.collision.flatten ⟨1⟩ = done ++ (parent, node) :: rest ∧
      ((start Sample.setting Sample.person 1).run Sample.watched).replies (additions 0 done) =
        done.map (.added ·.2.id) ∧
      ((((start Sample.setting Sample.person 1).run Sample.watched).run (additions 0 done)).step 0
        (.add parent node)).reply = .rejected (.duplicateId ⟨2⟩) := by
  have hstart : (((start Sample.setting Sample.person 1).run Sample.watched).sessions[0]?).map
      (·.tree.isLive) = some true := by cbv
  obtain ⟨a, hk, hlive⟩ := Option.map_eq_some_iff.mp hstart
  have hadded : (((start Sample.setting Sample.person 1).run Sample.watched).step 0
      (.add ⟨1⟩ Sample.circle)).reply = .added ⟨2⟩ := by cbv
  have hrefused : (((start Sample.setting Sample.person 1).run Sample.watched).step 0
      (.add ⟨1⟩ Sample.collision)).reply = .rejected (.duplicateId ⟨2⟩) := by cbv
  have hcircle := addition_node_by_node Sample.setting Sample.person 1 Sample.watched 0 a hk hlive
    ⟨1⟩ Sample.circle
  have hcollision := addition_node_by_node Sample.setting Sample.person 1 Sample.watched 0 a hk
    hlive ⟨1⟩ Sample.collision
  rw [hadded] at hcircle
  rw [hrefused] at hcollision
  obtain ⟨-, hreplies, b, b', hb, hb', htree⟩ | ⟨e, -, -, -, -, he, -⟩ := hcircle
  · obtain ⟨he, -⟩ | ⟨e, done, parent, node, rest, he, hsplit, hdone, hnode⟩ := hcollision
    · cases he
    · cases he
      exact ⟨a, hk, hlive, hreplies, b, b', hb, hb', htree, done, parent, node, rest, hsplit, hdone,
        hnode⟩
  · cases he

end Server

end LiveQuery
