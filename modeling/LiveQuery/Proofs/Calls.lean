import LiveQuery.Proofs.Replays
import LiveQuery.Proofs.Runs

/-!
# Calls of the insertion

To add a selection is to call an insertion that makes the node at its top and calls itself for the
selections nested in it, one after the other. In between the tree is as no command leaves it.
Whatever the selection is, every call finds a tree that is well formed, the parent of its node
alive, and the values that were bound at first.
-/

namespace LiveQuery

namespace Tree

/-- An insertion of `sel` below `parent` into `t` comes to one of `sel'` below `p` into `v`: to
itself, or to one for a nested selection, when those that come before it are there. -/
inductive Calls (s : Setting) : NodeId → Selection → Tree → NodeId → Selection → Tree → Prop
  | here {parent : NodeId} {sel : Selection} {t : Tree} : Calls s parent sel t parent sel t
  | nested {parent id p : NodeId} {field : String} {arguments : List Argument}
      {before after : List Selection} {child sel' : Selection} {t t' u v : Tree} {n : Node}
      {ps : List Publication} (made : t.sprout s parent id field arguments = (.ok n, t'))
      (earlier : growAll s id before (t'.attach parent n) = ⟨.ok (), u, ps⟩)
      (call : Calls s id child u p sel' v) :
      Calls s parent ⟨id, field, arguments, before ++ child :: after⟩ t p sel' v

/-- From `t` to `v` values stayed bound, hubs stayed given out, and `p` is alive in the end. -/
structure Reaches (root : TypeDef) (t v : Tree) (p : NodeId) : Prop where
  wellFormed : v.WellFormed root
  parent_live : ∃ m, v.node? p = some m
  nextHub_le : t.nextHub ≤ v.nextHub
  accounts : ∀ out, t.Accounts out → v.Accounts out ∧ t.bindings.SameValues v.bindings

section

variable {root : TypeDef} {s : Setting} {t t' u v : Tree} {parent p q : NodeId}
  {sel sel' : Selection} {n : Node}

lemma Reaches.refl (h : t.WellFormed root) (hp : ∃ m, t.node? p = some m) : Reaches root t t p where
  wellFormed := h
  parent_live := hp
  nextHub_le := Nat.le_refl _
  accounts _ ha := ⟨ha, Bindings.SameValues.refl _⟩

lemma Reaches.trans (h : Reaches root t u p) (h' : Reaches root u v q) : Reaches root t v q where
  wellFormed := h'.wellFormed
  parent_live := h'.parent_live
  nextHub_le := Nat.le_trans h.nextHub_le h'.nextHub_le
  accounts out ha := by
    obtain ⟨hu, hvalues⟩ := h.accounts out ha
    obtain ⟨hv, hvalues'⟩ := h'.accounts out hu
    exact ⟨hv, hvalues.trans hvalues'⟩

lemma WellFormed.reaches_growAll (h : t.WellFormed root) (hp : t.node? p = some n)
    {sels : List Selection} {ps : List Publication} (hgrow : growAll s p sels t = ⟨.ok (), u, ps⟩) :
    Reaches root t u p := by
  obtain ⟨new, hgrows⟩ := h.growsAll (s := s) p sels
  rw [hgrow] at hgrows
  obtain ⟨n', hn', -⟩ := hgrows.kept hp
  exact ⟨hgrows.wellFormed, ⟨n', hn'⟩, hgrows.nextHub_le, hgrows.accounts⟩

lemma Plants.reaches (h : Plants root t parent n t') : Reaches root t t' n.id where
  wellFormed := h.wellFormed
  parent_live := ⟨n, h.live⟩
  nextHub_le := h.nextHub_le
  accounts := h.accounts

theorem Calls.reaches (h : Calls s parent sel t p sel' v) (hw : t.WellFormed root)
    (hp : ∃ m, t.node? parent = some m) : Reaches root t v p := by
  induction h with
  | here => exact Reaches.refl hw hp
  | nested made earlier _ ih =>
    obtain ⟨rfl, hplants⟩ := sprout_plants hw made
    have hfirst := hplants.reaches.trans (hplants.wellFormed.reaches_growAll hplants.live earlier)
    exact hfirst.trans (ih hfirst.wellFormed hfirst.parent_live)

end

end Tree

/-- A command that is carried out on the tree `t` begins to add a selection below a node that is
alive, when the tree has come to be `u`. -/
inductive Command.Begins (s : Setting) : Command → Tree → NodeId → Selection → Tree → Prop
  | add {target : NodeId} {sel : Selection} {t : Tree} (live : t.contains target) :
      Begins s (.add target sel) t target sel t
  /-- The changes before it are made. -/
  | change {batch : Batch} {before after : List Change} {target : NodeId} {sel : Selection}
      {t u : Tree} (split : batch.changes = before ++ .add target sel :: after)
      (made : ({ t with bindings := t.bindings.putAll batch.assignments }.changeAll s 0
        before).tree = u)
      (live : u.contains target) : Begins s (.apply batch) t target sel u
  | link {target first : NodeId} {count : Nat} {field : String} {t : Tree}
      (live : t.contains target) :
      Begins s (.addChain target first (count + 1) field) t target { id := first, field } t
  /-- The first node of the chain is there. -/
  | later {target first id p : NodeId} {count : Nat} {field : String} {sel : Selection}
      {t t' u : Tree} {ps : List Publication}
      (added : t.add s target { id := first, field } = ⟨.ok id, t', ps⟩)
      (rest : Begins s (.addChain id id.next count field) t' p sel u) :
      Begins s (.addChain target first (count + 1) field) t p sel u

/-- A command comes to the insertion of a selection, nested in one that it adds or not. -/
def Command.Calls (s : Setting) (c : Command) (t : Tree) (p : NodeId) (sel : Selection) (v : Tree) :
    Prop :=
  ∃ target top u, c.Begins s t target top u ∧ Tree.Calls s target top u p sel v

section

variable {root : TypeDef} {s : Setting} {c : Command} {t u v : Tree} {p : NodeId} {sel : Selection}

/-- A command begins nothing before it has made its assignments. -/
theorem Command.Begins.reaches (h : c.Begins s t p sel u) (hw : t.WellFormed root) :
    Tree.Reaches root { t with bindings := t.bindings.putAll c.assignments } u p := by
  have hlive : ∀ {t : Tree} {p : NodeId}, t.contains p → ∃ m, t.node? p = some m := by
    intro t p hp
    rwa [Tree.contains_eq_isSome, Option.isSome_iff_exists] at hp
  induction h with
  | add live => exact Tree.Reaches.refl hw (hlive live)
  | link live => exact Tree.Reaches.refl hw (hlive live)
  | @change batch before after target sel t u split made live =>
    have hput := (hw.evolves_bindings fun _ hb => hb.putAll batch.assignments).wellFormed
    have hbefore := hput.evolves_changeAll (s := s) 0 before
    rw [made] at hbefore
    refine ⟨hbefore.wellFormed, hlive live, hbefore.nextHub_le, fun out ha => ?_⟩
    exact ⟨hbefore.accounts out ha, made ▸ hput.sameValues_changeAll ha 0 before⟩
  | @later target first id p count field sel t t' u ps added _ ih =>
    have hadd := hw.evolves_add (s := s) target { id := first, field }
    have hvalues : ∀ out, t.Accounts out →
        t.bindings.SameValues (t.add s target { id := first, field }).tree.bindings :=
      fun _ ha => hw.sameValues_add ha target { id := first, field }
    rw [added] at hadd hvalues
    have hrest := ih hadd.wellFormed
    refine ⟨hrest.wellFormed, hrest.parent_live, Nat.le_trans hadd.nextHub_le hrest.nextHub_le,
      fun out ha => ?_⟩
    obtain ⟨hu, hsame⟩ := hrest.accounts out (hadd.accounts out ha)
    exact ⟨hu, (hvalues out ha).trans hsame⟩

theorem Command.Calls.reaches (h : c.Calls s t p sel v) (hw : t.WellFormed root) :
    Tree.Reaches root { t with bindings := t.bindings.putAll c.assignments } v p := by
  obtain ⟨target, top, u, hbegins, hcalls⟩ := h
  have hfirst := hbegins.reaches hw
  exact hfirst.trans (hcalls.reaches hfirst.wellFormed hfirst.parent_live)

end

end LiveQuery
