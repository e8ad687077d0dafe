import LiveQuery.Proofs.Calls
import LiveQuery.Proofs.TreeStructure

/-!
# Lookups

At four places nodes are taken to be there: the root, the parent below which a node is to be made, and,
when a new node is announced, that node and its parent. Here a lookup that does not find its node ends
everything. On the tree of a session that never happens, at any depth of a selection, and the strict
operations do what the operations do.
-/

namespace LiveQuery

namespace Tree

/-- Finds a node that is taken to be there. If it is not there, nothing comes after. -/
def look (t : Tree) (id : NodeId) : Except NodeId Node :=
  match t.node? id with
  | none => .error id
  | some n => .ok n

/-- Makes a node below a parent that is taken to be there, unless its id is in use. -/
def strictSprout (s : Setting) (parent id : NodeId) (field : String) (arguments : List Argument)
    (t : Tree) : Except NodeId (Except Rejection Node × Tree) :=
  if t.contains id then .ok (.error (.duplicateId id), t)
  else do
    let p ← t.look parent
    match t.typeBelow s p id field with
    | .error e => return (.error e, t)
    | .ok type =>
      match t.bindings.hold ∅ arguments with
      | (.error a, b) =>
        return (.error (.unknownVariable id a.name a.variableId), { t with bindings := b })
      | (.ok held, b) =>
        match s.limits.refuse? id (p.depth + 1) t.size with
        | some e => return (.error e, { t with bindings := b.releaseAll held })
        | none =>
          return (.ok { id, parent := some parent, depth := p.depth + 1, field, type,
                        arguments := held, hub := ⟨t.nextHub, id⟩ },
            { t with bindings := b, nextHub := t.nextHub + 1 })

/-- A new node and its parent are taken to be there when the node is announced. -/
def strictAnnouncement (t : Tree) (parent id : NodeId) : Except NodeId (List Publication) := do
  let n ← t.look id
  let p ← t.look parent
  return [⟨p.hub, .childAdded n.asChild⟩]

mutual

def strictGrow (s : Setting) (parent : NodeId) :
    Selection → Tree → Except NodeId (Transition (Except Rejection Unit))
  | ⟨id, field, arguments, children⟩, t => do
    match ← t.strictSprout s parent id field arguments with
    | (.error e, t) => return ⟨.error e, t, []⟩
    | (.ok n, t) =>
      match ← strictGrowAll s id children (t.attach parent n) with
      | ⟨.error e, t, published⟩ => return ⟨.error e, t.purge id, published⟩
      | ⟨.ok (), t, published⟩ =>
        return ⟨.ok (), t, published ++ (← t.strictAnnouncement parent id)⟩

def strictGrowAll (s : Setting) (parent : NodeId) :
    List Selection → Tree → Except NodeId (Transition (Except Rejection Unit))
  | [], t => return ⟨.ok (), t, []⟩
  | selection :: rest, t => do
    match ← strictGrow s parent selection t with
    | ⟨.error e, t, published⟩ => return ⟨.error e, t, published⟩
    | ⟨.ok (), t, published⟩ =>
      let ⟨result, t, later⟩ ← strictGrowAll s parent rest t
      return ⟨result, t, published ++ later⟩

end

/-- The target alone is looked for first. -/
def strictAdd (s : Setting) (target : NodeId) (selection : Selection) (t : Tree) :
    Except NodeId (Transition (Except Rejection NodeId)) :=
  if t.contains target then do
    let ⟨result, t, published⟩ ← t.strictGrow s target selection
    return ⟨result.map fun _ => selection.id, t, published⟩
  else .ok ⟨.error (.unknownNode target), t, []⟩

def strictChange (s : Setting) (c : Change) (t : Tree) : Except NodeId (Transition Verdict) :=
  if t.contains c.target then
    match c with
    | .add target selection => do
      let ⟨result, t, published⟩ ← t.strictAdd s target selection
      match result with
      | .ok _ => return ⟨.applied, t, published⟩
      | .error e => return ⟨.failed e, t, published⟩
    | .delete target =>
      if target.isRoot then .ok ⟨.skipped .rootDelete, t, []⟩
      else
        let ⟨_, t, published⟩ := t.dismantle target
        .ok ⟨.applied, t, published⟩
  else .ok ⟨.skipped .unknownTarget, t, []⟩

def strictChangeAll (s : Setting) (index : Nat) :
    List Change → Tree → Except NodeId (Transition (List Report))
  | [], t => .ok ⟨[], t, []⟩
  | c :: rest, t => do
    let ⟨verdict, t, published⟩ ← t.strictChange s c
    let ⟨reports, t, later⟩ ← strictChangeAll s (index + 1) rest t
    return ⟨⟨index, c.target, verdict⟩ :: reports, t, published ++ later⟩

def strictApply (s : Setting) (batch : Batch) (t : Tree) : Except NodeId (Transition Outcome) := do
  let t := { t with bindings := t.bindings.putAll batch.assignments }
  let ⟨reports, t, published⟩ ← t.strictChangeAll s 0 batch.changes
  let (collected, bindings) := t.bindings.sweep
  return ⟨⟨batch.assignments.length, reports, collected⟩, { t with bindings }, published⟩

section

variable {root : TypeDef} {s : Setting} {t t' u : Tree} {parent p id : NodeId} {m n : Node}
  {ps : List Publication}

lemma ok_bind {ε α β : Type} (a : α) (f : α → Except ε β) : (Except.ok a >>= f) = f a := rfl

lemma look_eq (hn : t.node? id = some n) : t.look id = .ok n := by
  rw [look, hn]

lemma strictSprout_eq (hm : t.node? parent = some m) (id : NodeId) (field : String)
    (arguments : List Argument) : t.strictSprout s parent id field arguments =
      .ok (t.sprout s parent id field arguments) := by
  unfold strictSprout sprout
  simp only [look_eq hm, hm, ok_bind]
  by_cases hid : t.contains id
  · rw [if_pos hid, typeBelow, if_pos hid]
  · rw [if_neg hid]
    cases t.typeBelow s m id field with
    | error e => rfl
    | ok type =>
      rcases t.bindings.hold ∅ arguments with ⟨a | held, b⟩
      · rfl
      · dsimp only
        cases s.limits.refuse? id (m.depth + 1) t.size <;> rfl

lemma strictAnnouncement_eq (hm : t.node? parent = some m) (hn : t.node? id = some n) :
    t.strictAnnouncement parent id = .ok (t.announcement parent id) := by
  simp only [strictAnnouncement, announcement, look_eq hm, look_eq hn, hm, hn]
  rfl

/-- When all that is nested in a new node is there, the node and its parent still are. -/
lemma Plants.both_live (h : Plants root t parent n t') {sels : List Selection}
    (hgrow : growAll s n.id sels t' = ⟨.ok (), u, ps⟩) :
    (∃ k, u.node? n.id = some k) ∧ ∃ m, u.node? parent = some m := by
  obtain ⟨new, hnested⟩ := h.wellFormed.growsAll (s := s) n.id sels
  rw [hgrow] at hnested
  obtain ⟨k, hk, -⟩ := hnested.kept h.live
  obtain ⟨m, hm⟩ := h.parent_live
  obtain ⟨m', hm', -⟩ := (h.extends_nested hnested).kept hm
  exact ⟨⟨k, hk⟩, m', hm'⟩

mutual

/-- Where the parent is there, no lookup fails, down to the last selection that is nested. -/
theorem WellFormed.strictGrow_eq {t : Tree} (h : t.WellFormed root) {m : Node} (parent : NodeId)
    (hm : t.node? parent = some m) (sel : Selection) :
    strictGrow s parent sel t = .ok (grow s parent sel t) := by
  match sel with
  | ⟨id, field, arguments, children⟩ =>
    rcases hsprout : t.sprout s parent id field arguments with ⟨e | n, t'⟩
    · simp only [strictGrow, grow, strictSprout_eq hm, hsprout]
      rfl
    · obtain ⟨rfl, hplants⟩ := sprout_plants h hsprout
      have hnested := hplants.wellFormed.strictGrowAll_eq n.id hplants.live children
      rcases hgrow : growAll s n.id children (t'.attach parent n) with ⟨e | ⟨⟩, u, ps⟩
      · simp only [strictGrow, grow, strictSprout_eq hm, hsprout, hnested, hgrow, ok_bind]
        rfl
      · obtain ⟨⟨k, hk⟩, m', hm'⟩ := hplants.both_live hgrow
        simp only [strictGrow, grow, strictSprout_eq hm, hsprout, hnested, hgrow, ok_bind,
          strictAnnouncement_eq hm' hk]
        rfl

theorem WellFormed.strictGrowAll_eq {t : Tree} (h : t.WellFormed root) {m : Node} (parent : NodeId)
    (hm : t.node? parent = some m) (sels : List Selection) :
    strictGrowAll s parent sels t = .ok (growAll s parent sels t) := by
  match sels with
  | [] => rfl
  | sel :: rest =>
    have hfirst := h.strictGrow_eq parent hm sel
    rcases hgrow : grow s parent sel t with ⟨e | ⟨⟩, t', ps⟩
    · simp only [strictGrowAll, growAll, hfirst, hgrow]
      rfl
    · have hgrows := h.grows (s := s) parent sel
      rw [hgrow] at hgrows
      obtain ⟨m', hm', -⟩ := hgrows.1.kept hm
      have hrest := hgrows.1.wellFormed.strictGrowAll_eq parent hm' rest
      simp only [strictGrowAll, growAll, hfirst, hgrow, hrest, ok_bind]
      rfl

end

/-- Where the parent is not there the lookup fails. -/
example : strictGrow { resolver := { definition? := fun _ => none } } ⟨9⟩ { id := ⟨1⟩, field := "a" }
    (ofRoot (.scalar "A")) = .error ⟨9⟩ := by
  rfl

lemma WellFormed.strictAdd_eq (h : t.WellFormed root) (target : NodeId) (sel : Selection) :
    t.strictAdd s target sel = .ok (t.add s target sel) := by
  unfold strictAdd add
  cases hm : t.node? target with
  | none =>
    obtain ⟨id, field, arguments, children⟩ := sel
    rw [if_neg (by simp [contains_eq_isSome, hm])]
    simp only [grow, sprout, hm]
    rfl
  | some m =>
    rw [if_pos (contains_iff.mpr ⟨m, hm⟩), h.strictGrow_eq target hm sel]
    rfl

lemma WellFormed.strictChange_eq (h : t.WellFormed root) (c : Change) :
    t.strictChange s c = .ok (t.change s c) := by
  unfold strictChange change
  split
  · cases c with
    | add target sel =>
      simp only [h.strictAdd_eq]
      rcases t.add s target sel with ⟨e | id, t', ps⟩ <;> rfl
    | delete target =>
      dsimp only
      split <;> rfl
  · rfl

lemma WellFormed.strictChangeAll_eq (h : t.WellFormed root) (index : Nat) (cs : List Change) :
    t.strictChangeAll s index cs = .ok (t.changeAll s index cs) := by
  induction cs generalizing t index with
  | nil => rfl
  | cons c rest ih =>
    have hrest := ih (h.evolves_change (s := s) c).wellFormed (index + 1)
    simp only [strictChangeAll, changeAll, h.strictChange_eq, ok_bind, hrest]
    rfl

lemma WellFormed.strictApply_eq (h : t.WellFormed root) (batch : Batch) :
    t.strictApply s batch = .ok (t.apply s batch) := by
  have hput : WellFormed root { t with bindings := t.bindings.putAll batch.assignments } :=
    h.congr rfl (Nat.le_refl _)
  simp only [strictApply, hput.strictChangeAll_eq]
  rfl

/-- Whatever is asked of the tree, the nodes that are taken to be there are there. -/
structure Finds (s : Setting) (t : Tree) : Prop where
  root : ∃ r, t.look .root = .ok r
  add : ∀ target sel, t.strictAdd s target sel = .ok (t.add s target sel)
  apply : ∀ batch, t.strictApply s batch = .ok (t.apply s batch)
  /-- A removal takes no node to be there, and leaves the root. -/
  remove : ∀ id, ∃ r, (t.remove id).tree.look .root = .ok r
  /-- The parent is there in every call, after whatever was inserted before it. -/
  parent : ∀ (c : Command) (p : NodeId) (sel : Selection) (v : Tree), c.Calls s t p sel v → v.contains p
  /-- If all that is nested in the node is there then, so are the node and its parent. -/
  announced : ∀ (c : Command) (p : NodeId) (sel : Selection) (v : Tree), c.Calls s t p sel v →
    ∀ n v' u ps, v.sprout s p sel.id sel.field sel.arguments = (.ok n, v') →
      growAll s sel.id sel.children (v'.attach p n) = ⟨.ok (), u, ps⟩ →
      u.contains sel.id ∧ u.contains p

lemma exists_look_root (hlive : t.isLive) : ∃ r, t.look .root = .ok r := by
  obtain ⟨r, hr⟩ := isLive_iff.mp hlive
  exact ⟨r, look_eq hr⟩

theorem WellFormed.finds (h : t.WellFormed root) (hlive : t.isLive) : t.Finds s where
  root := exists_look_root hlive
  add target sel := h.strictAdd_eq target sel
  apply batch := h.strictApply_eq batch
  remove id := exists_look_root (h.isLive_remove hlive id)
  parent c p sel v hcall := contains_iff.mpr (hcall.reaches h).parent_live
  announced c p sel v hcall n v' u ps hsprout hgrow := by
    obtain ⟨hid, hplants⟩ := sprout_plants (hcall.reaches h).wellFormed hsprout
    rw [← hid] at hgrow ⊢
    obtain ⟨hnode, hparent⟩ := hplants.both_live hgrow
    exact ⟨contains_iff.mpr hnode, contains_iff.mpr hparent⟩

end

end Tree

namespace Server

lemma isLive_of_run (setting : Setting) (root : TypeDef) {count k : Nat} (hk : k < count)
    {cs : List (Nat × Command)} (hcs : ∀ c, (k, c) ∈ cs → c ≠ .teardown ∧ c ≠ .discard) :
    ∃ a : Session, ((start setting root count).run cs).sessions[k]? = some a ∧ a.tree.isLive := by
  have hstart : (start setting root count).sessions[k]? = some (.start setting root) := by
    simp [start, hk]
  refine isLive_run (sound_start setting root count) hstart ?_ cs hcs
  rw [Tree.isLive_iff, Session.start, Tree.node?_ofRoot, if_pos rfl]
  exact ⟨_, rfl⟩

/-- As long as a session's tree is not taken down or dropped, no lookup in it fails, whatever is asked of
it next. -/
theorem lookups_succeed (setting : Setting) (root : TypeDef) (count : Nat)
    (cs : List (Nat × Command)) (k : Nat) (hk : k < count)
    (hcs : ∀ c, (k, c) ∈ cs → c ≠ .teardown ∧ c ≠ .discard) : ∃ a : Session,
      ((start setting root count).run cs).sessions[k]? = some a ∧ a.tree.Finds a.setting := by
  obtain ⟨a, ha, hlive⟩ := isLive_of_run setting root hk hcs
  exact ⟨a, ha, ((sound_run setting root count cs).wellFormed k a ha).finds hlive⟩

namespace Sample

/-- A sibling comes after a whole subtree, and then the last of what is nested is refused. -/
def staggered : Batch where
  changes := [
    .add .root { id := ⟨2⟩, field := "friend", children := [
      { id := ⟨3⟩, field := "friend", children := [{ id := ⟨4⟩, field := "name" }] },
      { id := ⟨5⟩, field := "name" }] },
    .add ⟨1⟩ { id := ⟨6⟩, field := "friend", children := [
      { id := ⟨7⟩, field := "friend" }, { id := ⟨8⟩, field := "age" }] },
    .add ⟨3⟩ { id := ⟨7⟩, field := "name" }]

end Sample

theorem lookups_succeed_staggered : 0 < 1 ∧
    (∀ c, (0, c) ∈ Sample.watched → c ≠ .teardown ∧ c ≠ .discard) ∧ ∃ a : Session,
      ((start Sample.setting Sample.person 1).run Sample.watched).sessions[0]? = some a ∧
      a.tree.Finds a.setting ∧ ∃ outcome, a.tree.strictApply a.setting Sample.staggered = .ok outcome ∧
        outcome.result.reports.map (·.verdict) =
          [.applied, .failed (.unknownField ⟨8⟩ "age" "Person"), .applied] := by
  have hcs : ∀ c, (0, c) ∈ Sample.watched → c ≠ .teardown ∧ c ≠ .discard := by
    simp [Sample.watched]
  have hend : (((start Sample.setting Sample.person 1).run Sample.watched).sessions[0]?).map
      (fun a => (a.tree.apply a.setting Sample.staggered).result.reports.map (·.verdict)) =
        some [.applied, .failed (.unknownField ⟨8⟩ "age" "Person"), .applied] := by
    decide +kernel
  obtain ⟨a, ha, hfinds⟩ :=
    lookups_succeed Sample.setting Sample.person 1 Sample.watched 0 Nat.one_pos hcs
  rw [ha, Option.map_some] at hend
  exact ⟨Nat.one_pos, hcs, a, ha, hfinds, _, hfinds.apply Sample.staggered, Option.some.inj hend⟩

end Server

end LiveQuery
