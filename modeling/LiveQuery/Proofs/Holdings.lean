import LiveQuery.Proofs.References
import LiveQuery.Tree.Growth
import LiveQuery.Tree.Removal

/-!
# What the nodes of a tree hold

The references that are out are those held by the arguments of live nodes and those handed out to
clients. A tree accounts for its references if its bindings are exact for both together, which every
step of every operation maintains.
-/

namespace LiveQuery

namespace Tree

/-- The arguments of all nodes: the node, the name of the argument, and what is held. -/
def entries (t : Tree) : List (NodeId × String × Reference) :=
  t.nodes.toList.flatMap fun (id, n) => n.arguments.toList.map fun (name, r) => (id, name, r)

/-- The references held by the arguments of all nodes. -/
def held (t : Tree) : List Reference := t.entries.map (·.2.2)

/-- The bindings count what the nodes hold and what was handed `out` otherwise. -/
def Accounts (t : Tree) (out : List Reference) : Prop := t.bindings.Exact (t.held ++ out)

/-- Takes a node out of the index and gives back what it holds. -/
def drop (t : Tree) (id : NodeId) : Tree :=
  match t.node? id with
  | none => t
  | some n => { t with nodes := t.nodes.erase id, bindings := t.bindings.releaseAll n.arguments }

section

variable {t t' : Tree} {id p x : NodeId} {n m : Node} {out : List Reference}

lemma held_eq (t : Tree) : t.held = t.nodes.toList.flatMap fun e => e.2.arguments.all := by
  simp only [held, entries, List.map_flatMap, List.map_map, References.all]
  rfl

lemma held_congr (h : ∀ y, (t.node? y).map (·.arguments) = (t'.node? y).map (·.arguments)) :
    t.held = t'.held := by
  have hmap : t.nodes.map (fun _ n => n.arguments) = t'.nodes.map (fun _ n => n.arguments) := by
    apply Std.ExtTreeMap.ext_getElem?
    intro y
    rw [Std.ExtTreeMap.getElem?_map, Std.ExtTreeMap.getElem?_map]
    exact h y
  have hflat : ∀ s : Tree, s.held =
      (s.nodes.map (fun _ n => n.arguments)).toList.flatMap fun e => e.2.all := by
    intro s
    rw [held_eq, Std.ExtTreeMap.toList_map, List.flatMap_map]
  rw [hflat, hflat, hmap]

lemma held_congr_nodes (h : t'.nodes = t.nodes) : t'.held = t.held := by
  rw [held_eq, held_eq, h]

lemma node?_drop (t : Tree) (id x : NodeId) :
    (t.drop id).node? x = if x = id then none else t.node? x := by
  unfold drop
  cases hid : t.node? id with
  | none =>
    by_cases hx : x = id
    · simp [hx, hid]
    · simp [hx]
  | some n =>
    simp only [node?, Std.ExtTreeMap.getElem?_erase, Std.compare_eq_iff_eq, eq_comm (a := id)]

@[simp] lemma nextHub_drop (t : Tree) (id : NodeId) : (t.drop id).nextHub = t.nextHub := by
  unfold drop
  split <;> rfl

@[simp] lemma nextHub_unlink (t : Tree) (p id : NodeId) : (t.unlink p id).nextHub = t.nextHub := rfl

lemma held_drop (h : t.node? id = some n) :
    t.held.Perm (n.arguments.all ++ (t.drop id).held) := by
  rw [held_eq, held_eq]
  refine ((toList_perm_erase h).flatMap_right _).trans ?_
  simp [drop, h]

lemma held_unlink (t : Tree) (p id : NodeId) : (t.unlink p id).held = t.held := by
  apply held_congr
  intro y
  rw [node?_unlink]
  split
  · cases t.node? y <;> rfl
  · rfl

lemma held_attach (hne : n.id ≠ p) (hnew : t.node? n.id = none) :
    (t.attach p n).held.Perm (n.arguments.all ++ t.held) := by
  have hlive : (t.attach p n).node? n.id = some n := by simp [node?_attach hne]
  refine (held_drop hlive).trans ?_
  have hrest : ((t.attach p n).drop n.id).held = t.held := by
    apply held_congr
    intro y
    rw [node?_drop, node?_attach hne]
    by_cases hy : y = n.id
    · simp [hy, hnew]
    · rw [if_neg hy, if_neg hy]
      split
      · cases t.node? y <;> rfl
      · rfl
  rw [hrest]

lemma accounts_ofRoot (root : TypeDef) : (ofRoot root).Accounts [] := by
  have hheld : (ofRoot root).held = [] := by
    have hperm := insert_toList_perm (∅ : Std.ExtTreeMap NodeId Node) .root
      { id := .root, parent := none, depth := 0, field := "", type := .defined root,
        hub := ⟨0, .root⟩ }
    rw [held_eq]
    refine List.perm_nil.mp ((hperm.flatMap_right _).trans ?_)
    simp [References.all_empty, erase_eq_of_absent]
  rw [Accounts, hheld]
  exact Bindings.exact_empty

namespace Accounts

lemma drop (h : t.Accounts out) (id : NodeId) : (t.drop id).Accounts out := by
  cases hid : t.node? id with
  | none => simpa [Tree.drop, hid] using h
  | some n =>
    have hexact := Bindings.Exact.perm h ((held_drop hid).append_right out)
    rw [List.append_assoc] at hexact
    simpa [Accounts, Tree.drop, hid] using hexact.releaseAll

lemma unlink (h : t.Accounts out) (p id : NodeId) : (t.unlink p id).Accounts out := by
  rw [Accounts, held_unlink]
  exact h

lemma attach (h : t.bindings.Exact (n.arguments.all ++ (t.held ++ out))) (hne : n.id ≠ p)
    (hnew : t.node? n.id = none) : (t.attach p n).Accounts out := by
  refine Bindings.Exact.perm h ?_
  rw [← List.append_assoc]
  exact (held_attach hne hnew).symm.append_right out

lemma hold (h : t.Accounts out) (args : List Argument) :
    match t.bindings.hold ∅ args with
    | (.ok held, c) => c.Exact (held.all ++ (t.held ++ out)) ∧ t.bindings.SameValues c
    | (.error _, c) => c.Exact (t.held ++ out) ∧ t.bindings.SameValues c := by
  refine Bindings.Exact.hold ?_ args
  rw [References.all_empty]
  exact h

lemma discard (h : t.Accounts out) : t.discard.Accounts out := by
  have hlist : ∀ (entries : List (NodeId × Node)) (b : Bindings),
      b.Exact ((entries.flatMap fun e => e.2.arguments.all) ++ out) →
      (entries.foldl (fun b e => b.releaseAll e.2.arguments) b).Exact out := by
    intro entries
    induction entries with
    | nil => exact fun b hb => hb
    | cons e rest ih =>
      intro b hb
      rw [List.flatMap_cons, List.append_assoc] at hb
      exact ih _ hb.releaseAll
  have hnone : t.discard.held = [] := by
    simp [held_eq, Tree.discard]
  rw [Accounts, hnone, Tree.discard, Std.ExtTreeMap.foldl_eq_foldl_toList]
  refine hlist _ _ ?_
  rw [← held_eq]
  exact h

end Accounts

/-! ### Steps of the walks -/

lemma uproot_eq (t : Tree) (id : NodeId) : uproot id t = (t.childrenOf id, t.drop id, []) := by
  unfold uproot drop childrenOf
  cases t.node? id <;> rfl

lemma unlink_of_absent (h : t.node? p = none) (id : NodeId) : t.unlink p id = t := by
  have hnodes : (t.unlink p id).nodes = t.nodes := by
    apply nodes_ext
    intro y
    rw [node?_unlink]
    split
    · next hy => rw [← hy, h, Option.map_none]
    · rfl
  exact Tree.ext hnodes rfl rfl

lemma detach_tree (t : Tree) (id : NodeId) :
    (t.detach id).1 = match t.parentOf id with
      | none => t.drop id
      | some p => (t.drop id).unlink p id := by
  cases hid : t.node? id with
  | none => simp [detach, parentOf, drop, hid]
  | some n =>
    cases hp : n.parent with
    | none => simp [detach, parentOf, drop, hid, hp]
    | some p =>
      have hdrop : t.drop id = { t with
          nodes := t.nodes.erase id, bindings := t.bindings.releaseAll n.arguments } := by
        simp [drop, hid]
      simp only [detach, parentOf, hid, hp, Option.bind_some, ← hdrop]
      cases hq : (t.drop id).node? p with
      | some m => rfl
      | none => exact (unlink_of_absent hq id).symm

lemma detach_snd (t : Tree) (id : NodeId) : (t.detach id).2 =
    ((t.node? id).bind fun n => n.parent.bind fun p => ((t.drop id).node? p).map fun m =>
      (⟨m.hub, .childRemoved n.asChild⟩ : Publication)).toList := by
  unfold detach drop
  cases t.node? id with
  | none => rfl
  | some n =>
    dsimp only [Option.bind_some]
    cases n.parent with
    | none => rfl
    | some p =>
      dsimp only [Option.bind_some]
      split <;> simp_all

lemma Accounts.detach (h : t.Accounts out) (id : NodeId) : (t.detach id).1.Accounts out := by
  rw [detach_tree]
  cases t.parentOf id with
  | none => exact h.drop id
  | some p => exact (h.drop id).unlink p id

@[simp] lemma nextHub_detach (t : Tree) (id : NodeId) : (t.detach id).1.nextHub = t.nextHub := by
  rw [detach_tree]
  cases t.parentOf id <;> simp

lemma sameValues_drop (t : Tree) (id : NodeId) : t.bindings.SameValues (t.drop id).bindings := by
  unfold drop
  cases t.node? id with
  | none => exact Bindings.SameValues.refl _
  | some n => exact Bindings.sameValues_releaseAll _ _

end

end Tree

end LiveQuery
