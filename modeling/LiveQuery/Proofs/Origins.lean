import LiveQuery.Proofs.Calls

/-!
# Where nodes come from

A node never changes but for its children. An operation on a tree leaves every node as it is or
takes it away, and each node that is new was made in a call of the insertion.
-/

namespace LiveQuery

/-- What of a node stays the same as long as it lives, which is all but its children. -/
def Node.lasting (n : Node) : Node := { n with children := [] }

lemma Node.lasting_eq_iff {n m : Node} : n.lasting = m.lasting ↔ n.id = m.id ∧
    n.parent = m.parent ∧ n.depth = m.depth ∧ n.field = m.field ∧ n.type = m.type ∧
    n.arguments = m.arguments ∧ n.hub = m.hub := by
  simp [lasting]

/-- The node was made when `sel` was to go below `p` in the tree `v`. -/
def Node.MadeFor (s : Setting) (n : Node) (p : NodeId) (sel : Selection) (v : Tree) : Prop :=
  ∃ m v', v.sprout s p sel.id sel.field sel.arguments = (.ok m, v') ∧ m.lasting = n.lasting

lemma Node.MadeFor.congr {s : Setting} {n m : Node} {p : NodeId} {sel : Selection} {v : Tree}
    (h : m.MadeFor s p sel v) (hsame : m.lasting = n.lasting) : n.MadeFor s p sel v := by
  obtain ⟨k, v', hsprout, hk⟩ := h
  exact ⟨k, v', hsprout, hk.trans hsame⟩

namespace Tree

/-- A node of `t'` was in `t`, with what it holds, or was made in one of the `calls`. -/
def Stems (s : Setting) (t : Tree) (calls : NodeId → Selection → Tree → Prop) (t' : Tree) : Prop :=
  ∀ x n, t'.node? x = some n → (∃ m, t.node? x = some m ∧ m.lasting = n.lasting) ∨
    ∃ p sel v, calls p sel v ∧ n.MadeFor s p sel v

section

variable {root : TypeDef} {s : Setting} {t t' t'' : Tree} {out : List Reference}
  {calls later all : NodeId → Selection → Tree → Prop} {parent : NodeId} {ps : List Publication}

namespace Stems

lemma of_nodes_eq (h : t'.nodes = t.nodes) : Stems s t calls t' := by
  intro x n hn
  rw [node?_congr h] at hn
  exact .inl ⟨n, hn, rfl⟩

lemma of_without {gone : List NodeId} (h : t.Without gone t') : Stems s t calls t' := by
  intro x n hn
  rw [h x] at hn
  split at hn
  · cases hn
  · obtain ⟨m, hm, rfl⟩ := Option.map_eq_some_iff.mp hn
    exact .inl ⟨m, hm, rfl⟩

lemma trans (h : Stems s t calls t') (h' : Stems s t' later t'')
    (hfirst : ∀ p sel v, calls p sel v → all p sel v)
    (hlater : ∀ p sel v, later p sel v → all p sel v) : Stems s t all t'' := by
  intro x n hn
  obtain ⟨m, hm, hsame⟩ | ⟨p, sel, v, hcall, hmade⟩ := h' x n hn
  · obtain ⟨k, hk, hsame'⟩ | ⟨p, sel, v, hcall, hmade⟩ := h x m hm
    · exact .inl ⟨k, hk, hsame'.trans hsame⟩
    · exact .inr ⟨p, sel, v, hfirst p sel v hcall, hmade.congr hsame⟩
  · exact .inr ⟨p, sel, v, hlater p sel v hcall, hmade⟩

lemma imp (h : Stems s t calls t') (hcalls : ∀ p sel v, calls p sel v → all p sel v) :
    Stems s t all t' :=
  h.trans (Stems.of_nodes_eq rfl) hcalls hcalls

end Stems

/-! ### Additions -/

lemma stems_attach {id : NodeId} {field : String} {arguments : List Argument} {n : Node}
    (children : List Selection) (h : t.sprout s parent id field arguments = (.ok n, t')) :
    Stems s t (Calls s parent ⟨id, field, arguments, children⟩ t) (t'.attach parent n) := by
  obtain ⟨m, type, held, hm, hadmits, rfl, rfl⟩ := admits_of_sprout h
  have hne : id ≠ parent := by
    rintro rfl
    rw [hadmits.absent] at hm
    cases hm
  intro x k hk
  rw [node?_attach hne] at hk
  split at hk
  · cases hk
    exact .inr ⟨parent, _, t, .here, _, _, h, rfl⟩
  · split at hk
    · obtain ⟨m', hm', rfl⟩ := Option.map_eq_some_iff.mp hk
      exact .inl ⟨m', hm', rfl⟩
    · exact .inl ⟨k, hk, rfl⟩

mutual

theorem stems_grow {t t' : Tree} {ps : List Publication} (parent : NodeId) (sel : Selection)
    (hgrow : grow s parent sel t = ⟨.ok (), t', ps⟩) : Stems s t (Calls s parent sel t) t' := by
  match sel with
  | ⟨id, field, arguments, children⟩ =>
    rcases hsprout : t.sprout s parent id field arguments with ⟨e | n, u⟩
    · simp [Tree.grow, hsprout] at hgrow
    · rcases hnested : growAll s id children (u.attach parent n) with ⟨e | ⟨⟩, t₂, qs⟩
      · simp [Tree.grow, hsprout, hnested] at hgrow
      · simp only [Tree.grow, hsprout, hnested, Transition.mk.injEq, true_and] at hgrow
        obtain ⟨rfl, -⟩ := hgrow
        refine (stems_attach children hsprout).trans (stems_growAll id children hnested)
          (fun _ _ _ hcall => hcall) ?_
        rintro p sel v ⟨before, child, after, w, rs, rfl, hbefore, hcall⟩
        exact .nested hsprout hbefore hcall

theorem stems_growAll {t t' : Tree} {ps : List Publication} (parent : NodeId)
    (sels : List Selection) (hgrow : growAll s parent sels t = ⟨.ok (), t', ps⟩) :
    Stems s t (fun p sel v => ∃ before child after u qs, sels = before ++ child :: after ∧
      growAll s parent before t = ⟨.ok (), u, qs⟩ ∧ Calls s parent child u p sel v) t' := by
  match sels with
  | [] =>
    simp only [growAll, Transition.mk.injEq, true_and] at hgrow
    exact Stems.of_nodes_eq (by rw [hgrow.1])
  | sel :: rest =>
    rcases hfirst : grow s parent sel t with ⟨e | ⟨⟩, u, qs⟩
    · simp [growAll, hfirst] at hgrow
    · rcases hrest : growAll s parent rest u with ⟨e | ⟨⟩, u', qs'⟩
      · simp [growAll, hfirst, hrest] at hgrow
      · simp only [growAll, hfirst, hrest, Transition.mk.injEq, true_and] at hgrow
        obtain ⟨rfl, -⟩ := hgrow
        refine (stems_grow parent sel hfirst).trans (stems_growAll parent rest hrest) ?_ ?_
        · exact fun p sel' v hcall => ⟨[], sel, rest, t, [], rfl, rfl, hcall⟩
        · rintro p sel' v ⟨before, child, after, w, rs, rfl, hbefore, hcall⟩
          exact ⟨sel :: before, child, after, w, qs ++ rs, rfl,
            by simp only [growAll, hfirst, hbefore], hcall⟩

end

theorem WellFormed.stems_add (h : t.WellFormed root) (target : NodeId) (sel : Selection) :
    Stems s t (fun p sel' v => t.contains target ∧ Calls s target sel t p sel' v)
      (t.add s target sel).tree := by
  have hrefused := h.grows (s := s) target sel
  cases hm : t.node? target with
  | none =>
    obtain ⟨id, field, arguments, children⟩ := sel
    exact Stems.of_nodes_eq (by simp [Tree.add, grow, sprout, hm])
  | some m =>
    have hlive : t.contains target := by simp [contains_eq_isSome, hm]
    rw [Tree.add]
    rcases hgrow : grow s target sel t with ⟨e | ⟨⟩, t', ps⟩
    · rw [hgrow] at hrefused
      exact Stems.of_nodes_eq hrefused.nodes_eq
    · exact (stems_grow target sel hgrow).imp fun p sel' v hcall => ⟨hlive, hcall⟩

/-! ### Operations -/

lemma WellFormed.stems_dismantle (h : t.WellFormed root) (id : NodeId) :
    Stems s t calls (t.dismantle id).tree := by
  cases hn : t.node? id with
  | none =>
    rw [dismantle_of_absent hn]
    exact Stems.of_nodes_eq rfl
  | some n =>
    obtain ⟨gone, -, hwithout⟩ := h.without_dismantle hn
    exact Stems.of_without hwithout

lemma WellFormed.stems_remove (h : t.WellFormed root) (id : NodeId) :
    Stems s t calls (t.remove id).tree := by
  unfold remove
  split
  · exact Stems.of_nodes_eq rfl
  · split
    · exact h.stems_dismantle id
    · exact Stems.of_nodes_eq rfl

lemma WellFormed.stems_change (h : t.WellFormed root) (c : Change) :
    Stems s t (fun p sel v => ∃ target top, c = .add target top ∧ t.contains target ∧
      Calls s target top t p sel v) (t.change s c).tree := by
  unfold change
  split
  · cases c with
    | add target sel =>
      have hadd := h.stems_add (s := s) target sel
      dsimp only
      split <;> exact hadd.imp fun p sel' v hcall => ⟨target, sel, rfl, hcall⟩
    | delete target =>
      dsimp only
      split
      · exact Stems.of_nodes_eq rfl
      · exact h.stems_dismantle target
  · exact Stems.of_nodes_eq rfl

lemma WellFormed.stems_changeAll (h : t.WellFormed root) (index : Nat) (cs : List Change) :
    Stems s t (fun p sel v => ∃ before target top after u,
      cs = before ++ .add target top :: after ∧ (t.changeAll s index before).tree = u ∧
      u.contains target ∧ Calls s target top u p sel v) (t.changeAll s index cs).tree := by
  induction cs generalizing t index with
  | nil => exact Stems.of_nodes_eq rfl
  | cons c rest ih =>
    have hrest := ih (h.evolves_change (s := s) c).wellFormed (index + 1)
    refine (h.stems_change c).trans hrest ?_ ?_
    · rintro p sel v ⟨target, top, rfl, hlive, hcall⟩
      exact ⟨[], target, top, rest, t, rfl, rfl, hlive, hcall⟩
    · rintro p sel v ⟨before, target, top, after, u, rfl, rfl, hlive, hcall⟩
      exact ⟨c :: before, target, top, after, _, rfl, rfl, hlive, hcall⟩

lemma WellFormed.stems_addChain (h : t.WellFormed root) (field : String) (count : Nat)
    (target first : NodeId) :
    Stems s t ((Command.addChain target first count field).Calls s t)
      (t.addChain s field count target first).tree := by
  induction count generalizing t target first with
  | zero => exact Stems.of_nodes_eq rfl
  | succ count ih =>
    have he := h.evolves_add (s := s) target { id := first, field }
    have hadd := h.stems_add (s := s) target { id := first, field }
    have hlink : ∀ p sel v, t.contains target ∧ Calls s target { id := first, field } t p sel v →
        (Command.addChain target first (count + 1) field).Calls s t p sel v := by
      rintro p sel v ⟨hlive, hcall⟩
      exact ⟨target, _, t, .link hlive, hcall⟩
    unfold addChain
    rcases hg : t.add s target { id := first, field } with ⟨e | id, t', ps⟩
    · rw [hg] at hadd
      exact hadd.imp hlink
    · rw [hg] at he hadd
      refine hadd.trans (ih he.wellFormed id id.next) hlink ?_
      rintro p sel v ⟨target', top, u, hbegins, hcall⟩
      exact ⟨target', top, u, .later hg hbegins, hcall⟩

/-- Whatever an operation adds it adds by calls. -/
theorem WellFormed.stems_effect (h : t.WellFormed root) {c : Command}
    (heffect : c.effect? s t = some (t', ps)) : Stems s t (c.Calls s t) t' := by
  cases c <;> simp only [Command.effect?, Option.some.injEq, Prod.mk.injEq, reduceCtorEq] at heffect
  case apply batch =>
    have hput := h.evolves_bindings fun _ hb => hb.putAll batch.assignments
    rw [← heffect.1]
    refine Stems.imp (hput.wellFormed.stems_changeAll (s := s) 0 batch.changes) ?_
    rintro p sel v ⟨before, target, top, after, u, hsplit, hu, hlive, hcall⟩
    exact ⟨target, top, u, .change hsplit hu hlive, hcall⟩
  case add target sel =>
    rw [← heffect.1]
    refine (h.stems_add target sel).imp ?_
    rintro p sel' v ⟨hlive, hcall⟩
    exact ⟨target, sel, t, .add hlive, hcall⟩
  case addChain target first count field =>
    exact heffect.1 ▸ h.stems_addChain field count target first
  case remove node => exact heffect.1 ▸ h.stems_remove node
  case teardown => exact heffect.1 ▸ h.stems_dismantle .root
  case discard =>
    rw [← heffect.1]
    intro x n hn
    simp [node?, discard] at hn

end

end Tree

end LiveQuery
