import LiveQuery.Proofs.Announcements
import LiveQuery.Proofs.Stages

/-!
# One change at a time

From one stage of a command to the next a tree takes one turn: a selection comes with all its nodes,
or a branch goes. A branch that goes is told of node by node, with the children that each of them has
then. A child that is told of is a node of the tree, unless the selection it came with was refused, and
then no hub of the tree tells of it.
-/

namespace LiveQuery

namespace Tree

/-- What a change from `t` to `t'` publishes about nodes that go, come, and have gone. -/
structure Turns (t : Tree) (published : List Publication) (t' : Tree) : Prop where
  gone : ∀ hub, t.Owns hub → ¬ t'.Owns hub →
    eventsOn hub published = .deleted :: (t.family hub).map .childRemoved
  added : ∀ e ∈ published, ∀ c, e.event = .childAdded c →
    (∃ n, t'.node? c.id = some n ∧ n.asChild = c) ∨ ¬ t.Owns e.hub ∧ ¬ t'.Owns e.hub
  removed : ∀ e ∈ published, ∀ c, e.event = .childRemoved c →
    ∃ n, t.node? c.id = some n ∧ n.asChild = c

section

variable {root : TypeDef} {s : Setting} {t t' u u' : Tree} {ps : List Publication}

namespace Turns

lemma of_nodes_eq (hnodes : t'.nodes = t.nodes) : Turns t [] t' where
  gone hub hown hnot := absurd ((owns_congr hnodes).mpr hown) hnot
  added := by simp
  removed := by simp

lemma congr (h : Turns t ps t') (hnodes : u.nodes = t.nodes) (hnodes' : u'.nodes = t'.nodes) :
    Turns u ps u' where
  gone hub hown hnot := by
    rw [family_congr hnodes]
    exact h.gone hub ((owns_congr hnodes).mp hown) fun hown' => hnot ((owns_congr hnodes').mpr hown')
  added e he c hec := by
    rw [owns_congr hnodes, owns_congr hnodes', node?_congr hnodes']
    exact h.added e he c hec
  removed e he c hec := by
    rw [node?_congr hnodes]
    exact h.removed e he c hec

end Turns

/-! ### Additions -/

mutual

lemma added_of_mem_grow {t : Tree} (parent : NodeId) (sel : Selection) {e : Publication}
    (he : e ∈ (grow s parent sel t).published) : ∃ c, e.event = .childAdded c := by
  match sel with
  | ⟨id, field, arguments, children⟩ =>
    rcases hsprout : t.sprout s parent id field arguments with ⟨r | n, t'⟩
    · simp [Tree.grow, hsprout] at he
    · have hnested := added_of_mem_growAll (t := t'.attach parent n) id children (e := e)
      rcases hgrow : growAll s id children (t'.attach parent n) with ⟨r | ⟨⟩, t'', ps⟩
      · simp only [hgrow] at hnested
        simp only [Tree.grow, hsprout, hgrow] at he
        exact hnested he
      · simp only [hgrow] at hnested
        simp only [Tree.grow, hsprout, hgrow] at he
        rcases List.mem_append.mp he with he | he
        · exact hnested he
        · unfold announcement at he
          split at he
          · obtain rfl := List.mem_singleton.mp he
            exact ⟨_, rfl⟩
          · cases he

lemma added_of_mem_growAll {t : Tree} (parent : NodeId) (sels : List Selection) {e : Publication}
    (he : e ∈ (growAll s parent sels t).published) : ∃ c, e.event = .childAdded c := by
  match sels with
  | [] => cases he
  | sel :: rest =>
    have hfirst := added_of_mem_grow (t := t) parent sel (e := e)
    rcases hgrow : Tree.grow s parent sel t with ⟨r | ⟨⟩, t', ps⟩
    · rw [hgrow] at hfirst
      simp only [growAll, hgrow] at he
      exact hfirst he
    · rw [hgrow] at hfirst
      simp only [growAll, hgrow] at he
      rcases List.mem_append.mp he with he | he
      · exact hfirst he
      · exact added_of_mem_growAll parent rest he

end

namespace WellFormed

lemma owns_add (h : t.WellFormed root) {hub : HubId} (hown : t.Owns hub) (target : NodeId)
    (sel : Selection) : (t.add s target sel).tree.Owns hub := by
  obtain ⟨new, hgrows⟩ := h.grows_add (s := s) target sel
  exact hgrows.owns hown

lemma turns_add (h : t.WellFormed root) (target : NodeId) (sel : Selection) :
    Turns t (t.add s target sel).published (t.add s target sel).tree where
  gone hub hown hnot := absurd (h.owns_add hown target sel) hnot
  added e he c hec := by
    have hgrows := h.grows (s := s) target sel
    rcases hadd : t.add s target sel with ⟨r | id, t', ps⟩
    · right
      unfold Tree.add at hadd
      rcases hg : t.grow s target sel with ⟨r' | ⟨⟩, t₁, qs⟩
      · simp only [hg, Transition.mk.injEq] at hadd hgrows
        obtain ⟨-, rfl, rfl⟩ := hadd
        simp only [Tree.add, hg] at he
        have hnot : ¬ t.Owns e.hub := h.not_owns (hgrows.silent e he)
        exact ⟨hnot, fun hown => hnot ((owns_congr hgrows.nodes_eq).mp hown)⟩
      · simp [hg, Except.map] at hadd
    · left
      rw [hadd] at he
      obtain ⟨c', hec', hc'⟩ := h.present_add hadd e he
      rw [hec] at hec'
      cases hec'
      have hw' := (h.evolves_add (s := s) target sel).wellFormed
      rw [hadd] at hw'
      exact (hw'.mem_family hc').2
  removed e he c hec := by
    obtain ⟨c', hec'⟩ := added_of_mem_grow target sel he
    rw [hec] at hec'
    cases hec'

/-! ### Removals -/

lemma turns_dismantle (h : t.WellFormed root) (id : NodeId) :
    Turns t (t.dismantle id).published (t.dismantle id).tree := by
  cases hn : t.node? id with
  | none =>
    rw [dismantle_of_absent hn]
    exact Turns.of_nodes_eq rfl
  | some n =>
    obtain ⟨b, rfl, hb, hwithout, hpublished⟩ := h.dismantle_farewell hn
    rw [hpublished]
    refine ⟨fun hub hown hnot => ?_, fun e he c hec => ?_, fun e he c hec => ?_⟩
    · have hin : hub.node ∈ b.ids := by
        by_contra hkept
        exact hnot (hwithout.owns.mpr ⟨hown, hkept⟩)
      rw [h.eventsOn_farewell b hown hb.holds hb.nodup fun p hp hmem =>
        h.not_below_child hp ((hb.mem_ids p).mp hmem), if_pos hin]
    · obtain ⟨x, k, -, rfl⟩ | ⟨x, k, p, m, -, -, -, rfl⟩ := mem_farewell he <;> cases hec
    · obtain ⟨x, k, -, rfl⟩ | ⟨x, k, p, m, hk, -, -, rfl⟩ := mem_farewell he
      · cases hec
      · cases hec
        have hid : k.asChild.id = x := h.id_eq hk
        exact ⟨k, hid ▸ hk, rfl⟩

lemma turns_remove (h : t.WellFormed root) (id : NodeId) :
    Turns t (t.remove id).published (t.remove id).tree := by
  unfold Tree.remove
  split
  · exact Turns.of_nodes_eq rfl
  · split
    · exact h.turns_dismantle id
    · exact Turns.of_nodes_eq rfl

/-! ### Stages -/

lemma turns_change (h : t.WellFormed root) (c : Change) :
    Turns t (t.change s c).published (t.change s c).tree := by
  unfold Tree.change
  split
  · cases c with
    | add target sel =>
      have hadd := h.turns_add (s := s) target sel
      dsimp only
      split <;> exact hadd
    | delete target =>
      dsimp only
      split
      · exact Turns.of_nodes_eq rfl
      · exact h.turns_dismantle target
  · exact Turns.of_nodes_eq rfl

lemma turns_apply (h : t.WellFormed root) (batch : Batch) (n : Nat) :
    ∃ ps, (t.apply s { batch with changes := batch.changes.take (n + 1) }).published =
        (t.apply s { batch with changes := batch.changes.take n }).published ++ ps ∧
      Turns (t.apply s { batch with changes := batch.changes.take n }).tree ps
        (t.apply s { batch with changes := batch.changes.take (n + 1) }).tree := by
  have hput := h.evolves_bindings fun _ hb => hb.putAll batch.assignments
  have htake := hput.wellFormed.evolves_changeAll (s := s) 0 (batch.changes.take n)
  obtain ⟨htree, hpublished⟩ := changeAll_append s 0 (batch.changes.take n)
    batch.changes[n]?.toList { t with bindings := t.bindings.putAll batch.assignments }
  rw [← List.take_add_one] at htree hpublished
  refine ⟨_, hpublished, ?_⟩
  have hnodes := congrArg Tree.nodes htree
  cases hc : batch.changes[n]? with
  | none =>
    rw [hc] at hnodes
    exact Turns.of_nodes_eq hnodes
  | some c =>
    rw [hc] at hnodes
    simp only [Option.toList_some, changeAll, List.append_nil] at hnodes ⊢
    exact (htake.wellFormed.turns_change c).congr rfl hnodes

lemma turns_addChain (h : t.WellFormed root) (field : String) (n count : Nat)
    (target first : NodeId) :
    ∃ ps, (t.addChain s field (min (n + 1) count) target first).published =
        (t.addChain s field (min n count) target first).published ++ ps ∧
      Turns (t.addChain s field (min n count) target first).tree ps
        (t.addChain s field (min (n + 1) count) target first).tree := by
  induction n generalizing t count target first with
  | zero =>
    cases count with
    | zero => exact ⟨[], rfl, Turns.of_nodes_eq rfl⟩
    | succ count =>
      have hadd := h.turns_add (s := s) target { id := first, field }
      rw [Nat.zero_min, Nat.succ_min_succ, Nat.zero_min]
      simp only [Tree.addChain]
      rcases hg : t.add s target { id := first, field } with ⟨e | id, t', ps⟩
      · rw [hg] at hadd
        exact ⟨ps, rfl, hadd⟩
      · rw [hg] at hadd
        exact ⟨ps, by simp, hadd⟩
  | succ n ih =>
    cases count with
    | zero => exact ⟨[], rfl, Turns.of_nodes_eq rfl⟩
    | succ count =>
      have hevolves := h.evolves_add (s := s) target { id := first, field }
      rw [Nat.succ_min_succ, Nat.succ_min_succ]
      simp only [Tree.addChain]
      rcases hg : t.add s target { id := first, field } with ⟨e | id, t', ps⟩
      · exact ⟨[], by simp, Turns.of_nodes_eq rfl⟩
      · rw [hg] at hevolves
        obtain ⟨qs, hqs, hturns⟩ := ih hevolves.wellFormed count id id.next
        exact ⟨qs, by simp [hqs], hturns⟩

/-- Every command but one takes a tree from stage to stage by turns. -/
theorem turns_stage (h : t.WellFormed root) {c : Command} (hc : c ≠ .discard) {n : Nat}
    {first second : Tree × List Publication} (hfirst : c.stage? s t n = some first)
    (hsecond : c.stage? s t (n + 1) = some second) :
    ∃ ps, second.2 = first.2 ++ ps ∧ Turns first.1 ps second.1 := by
  have huncut : ∀ whole, (∀ m, (c.cut m).effect? s t = some whole) → Turns t whole.2 whole.1 →
      ∃ ps, second.2 = first.2 ++ ps ∧ Turns first.1 ps second.1 := by
    intro whole hcut hturns
    obtain rfl := Option.some.inj ((hcut n).symm.trans hsecond)
    cases n with
    | zero =>
      cases hfirst
      exact ⟨whole.2, rfl, hturns⟩
    | succ n =>
      obtain rfl := Option.some.inj ((hcut n).symm.trans hfirst)
      exact ⟨[], (List.append_nil _).symm, Turns.of_nodes_eq rfl⟩
  cases c
  case apply batch =>
    cases hsecond
    cases n with
    | zero =>
      cases hfirst
      exact ⟨[], rfl, Turns.of_nodes_eq rfl⟩
    | succ n =>
      cases hfirst
      exact h.turns_apply batch n
  case addChain target first count field =>
    cases hsecond
    cases n with
    | zero =>
      cases hfirst
      rw [Nat.zero_min]
      exact ⟨[], rfl, Turns.of_nodes_eq rfl⟩
    | succ n =>
      cases hfirst
      exact h.turns_addChain field n count target first
  case add target sel => exact huncut _ (fun _ => rfl) (h.turns_add target sel)
  case remove node => exact huncut _ (fun _ => rfl) (h.turns_remove node)
  case teardown => exact huncut _ (fun _ => rfl) (h.turns_dismantle .root)
  case discard => exact absurd rfl hc
  all_goals cases hsecond

end WellFormed

end

end Tree

end LiveQuery
