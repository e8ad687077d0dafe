import LiveQuery.Batch.Outcome
import LiveQuery.Proofs.Insertion
import LiveQuery.Tree.Chain

/-!
# Operations

Every operation on a tree evolves it: additions, removals, chains, single changes and whole batches.
A refused addition leaves even more as it was: the nodes, the bindings and all observers.
-/

namespace LiveQuery

lemma Bindings.Exact.putAll {b : Bindings} {out : List Reference} (h : b.Exact out)
    (assignments : List Assignment) : (b.putAll assignments).Exact out := by
  induction assignments generalizing b with
  | nil => exact h
  | cons a rest ih => exact ih (h.put a.variableId a.value)

namespace Tree

section

variable {root : TypeDef} {s : Setting} {t t' : Tree} {ps : List Publication} {id : NodeId} {n : Node}

lemma remove_eq (hn : t.node? id = some n) (hroot : id ≠ .root) :
    t.remove id = ⟨.ok (), (t.dismantle id).tree, (t.dismantle id).published⟩ := by
  simp [Tree.remove, NodeId.isRoot, hroot, contains_eq_isSome, hn]

lemma change_delete_eq (hn : t.node? id = some n) (hroot : id ≠ .root) :
    t.change s (.delete id) = ⟨.applied, (t.dismantle id).tree, (t.dismantle id).published⟩ := by
  simp [change, Change.target, NodeId.isRoot, hroot, contains_eq_isSome, hn]

namespace WellFormed

lemma grows_add (h : t.WellFormed root) (target : NodeId) (sel : Selection) :
    ∃ new, Grows root t target new (t.add s target sel).published (t.add s target sel).tree := by
  have hgrow := h.grows (s := s) target sel
  unfold Tree.add
  rcases hg : t.grow s target sel with ⟨e | ⟨⟩, t', ps⟩
  · simp only [hg] at hgrow
    exact ⟨[], hgrow⟩
  · simp only [hg] at hgrow
    exact ⟨[sel.id], hgrow.1⟩

theorem evolves_add (h : t.WellFormed root) (target : NodeId) (sel : Selection) :
    Evolves root t (t.add s target sel).published (t.add s target sel).tree := by
  obtain ⟨new, hgrows⟩ := h.grows_add (s := s) target sel
  exact hgrows.evolves h

/-- A refused addition leaves the nodes and the bindings as they were, and all that it published
was published on hubs of nodes that are gone again. -/
theorem add_error (h : t.WellFormed root) {target : NodeId} {sel : Selection} {e : Rejection}
    (hadd : t.add s target sel = ⟨.error e, t', ps⟩) {out : List Reference} (ha : t.Accounts out) :
    t'.nodes = t.nodes ∧ t'.bindings = t.bindings ∧ t.nextHub ≤ t'.nextHub ∧
      ∀ e ∈ ps, t.nextHub ≤ e.hub.serial := by
  have hgrow := h.grows (s := s) target sel
  unfold Tree.add at hadd
  rcases hg : t.grow s target sel with ⟨e | ⟨⟩, t', ps⟩
  · simp only [hg] at hgrow hadd
    cases hadd
    have hnodes := hgrow.nodes_eq
    obtain ⟨ha', hvalues⟩ := hgrow.accounts out ha
    rw [Accounts, held_congr_nodes hnodes] at ha'
    exact ⟨hnodes, (ha.eq_of_sameValues ha' hvalues).symm, hgrow.nextHub_le, hgrow.silent⟩
  · simp [hg, Except.map] at hadd

theorem evolves_remove (h : t.WellFormed root) (id : NodeId) :
    Evolves root t (t.remove id).published (t.remove id).tree := by
  unfold Tree.remove
  split
  · exact Evolves.refl h
  · split
    · exact h.evolves_dismantle id
    · exact Evolves.refl h

theorem evolves_change (h : t.WellFormed root) (c : Change) :
    Evolves root t (t.change s c).published (t.change s c).tree := by
  unfold Tree.change
  split
  · cases c with
    | add target selection =>
      have hadd := h.evolves_add (s := s) target selection
      dsimp only
      split <;> exact hadd
    | delete target =>
      dsimp only
      split
      · exact Evolves.refl h
      · exact h.evolves_dismantle target
  · exact Evolves.refl h

theorem evolves_changeAll (h : t.WellFormed root) (index : Nat) (cs : List Change) :
    Evolves root t (t.changeAll s index cs).published (t.changeAll s index cs).tree := by
  induction cs generalizing t index with
  | nil => exact Evolves.refl h
  | cons c rest ih =>
    have hfirst := h.evolves_change (s := s) c
    exact hfirst.trans (ih hfirst.wellFormed (index + 1))

theorem evolves_apply (h : t.WellFormed root) (batch : Batch) :
    Evolves root t (t.apply s batch).published (t.apply s batch).tree := by
  have hput := h.evolves_bindings fun _ hb => hb.putAll batch.assignments
  have hchange := hput.wellFormed.evolves_changeAll (s := s) 0 batch.changes
  have hsweep := hchange.wellFormed.evolves_bindings fun _ hb => hb.sweep
  simpa [Tree.apply] using (hput.trans hchange).trans hsweep

theorem evolves_addChain (h : t.WellFormed root) (field : String) (count : Nat) (target first : NodeId) :
    Evolves root t (t.addChain s field count target first).published
      (t.addChain s field count target first).tree := by
  induction count generalizing t target first with
  | zero => exact Evolves.refl h
  | succ count ih =>
    have hadd := h.evolves_add (s := s) target { id := first, field }
    unfold Tree.addChain
    rcases hg : t.add s target { id := first, field } with ⟨e | id, t', ps⟩
    · rw [hg] at hadd
      exact hadd
    · rw [hg] at hadd
      exact hadd.trans (ih hadd.wellFormed id id.next)

end WellFormed

end

end Tree

end LiveQuery
