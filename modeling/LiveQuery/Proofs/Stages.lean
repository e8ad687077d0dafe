import LiveQuery.Proofs.Runs

/-!
# Stages of a command

A batch makes its changes one after the other and a chain adds its nodes one after the other, and
observers may start to listen in between. A command that is cut short stands for such a moment. What
is published from one stage to the next is never heard by those who start to listen meanwhile, and
what is published after a stage tracks the tree from there.
-/

namespace LiveQuery

/-- The command with only the first changes of a batch, or the first nodes of a chain. Any other
command is left whole. -/
def Command.cut (n : Nat) : Command → Command
  | .apply batch => .apply { batch with changes := batch.changes.take n }
  | .addChain target first count field => .addChain target first (min n count) field
  | c => c

/-- The stages of an operation: nothing of it, and then what each cut of the command leaves. -/
def Command.stage? (s : Setting) (t : Tree) (c : Command) : Nat → Option (Tree × List Publication)
  | 0 => some (t, [])
  | n + 1 => (c.cut n).effect? s t

lemma Command.isOperation_cut (c : Command) (n : Nat) : (c.cut n).isOperation = c.isOperation := by
  cases c <;> rfl

lemma Command.cut_eq {c : Command} (hc : ¬ c.isOperation) (n : Nat) : c.cut n = c := by
  cases c <;> simp only [Command.isOperation, not_true_eq_false] at hc
  all_goals rfl

lemma Command.effect?_eq_none {c : Command} (hc : ¬ c.isOperation) (s : Setting) (t : Tree) :
    c.effect? s t = none := by
  cases c <;> simp only [Command.isOperation, not_true_eq_false] at hc
  all_goals rfl

/-- Nobody who starts to listen while this is delivered is told any of it: no child is announced, or
one at the very end, after events on hubs from `n` on. -/
def Unheard (n : Nat) (ps : List Publication) : Prop :=
  (∀ e ∈ ps, ∀ c, e.event ≠ .childAdded c) ∨ ∃ nested last, ps = nested ++ last ∧
    last.length ≤ 1 ∧ ∀ e ∈ nested, n ≤ e.hub.serial

lemma unheard_nil (n : Nat) : Unheard n [] := .inl (by simp)

namespace Switchboard

variable {b : Switchboard} {s : Subscription} {n : Nat} {ps : List Publication}

lemma hub_tell {event : Event} {hub : HubId} (hevent : ∀ c, event = .childAdded c → c.hub ≠ hub)
    (id : HubId) (b : Switchboard) (r : Registration) : (tell event id b r).hub hub = b.hub hub := by
  unfold tell
  split
  · rfl
  · next label origin child _ =>
    exact (b.hub_subscribe child.hub hub _).trans (if_neg (hevent child rfl))
  · rfl

/-- Observers come only to the hub of a child that is announced. -/
lemma hub_deliver {p : Publication} {hub : HubId} (hp : ∀ c, p.event = .childAdded c → c.hub ≠ hub)
    (b : Switchboard) : (b.deliver p).2.hub hub = b.hub hub :=
  deliver_induction (motive := fun b' => b'.hub hub = b.hub hub) p rfl fun b' h r _ =>
    (hub_tell hp p.hub b' r).trans h

lemma Sound.told_unheard (h : b.Sound n) (hps : Unheard n ps) (hs : ¬ b.Registered s) :
    told s (b.deliverAll ps).1 = [] := by
  rcases hps with hps | ⟨nested, last, rfl, hlast, hnested⟩
  · have ho := h.ordered
    clear h
    induction ps generalizing b with
    | nil => rfl
    | cons p rest ih =>
      have hhub : (b.deliver p).2.hub s.hub = b.hub s.hub :=
        hub_deliver (fun c hc => absurd hc (hps p List.mem_cons_self c)) b
      have hs' : ¬ (b.deliver p).2.Registered s := by
        rw [Registered, hhub]
        exact hs
      rw [Switchboard.deliverAll, told_append, ho.told_deliver, if_neg fun h => hs h.2,
        ih hs' (fun q hq => hps q (List.mem_cons_of_mem _ hq)) (ho.deliver p)]
      rfl
  · have hunattended : b.deliverAll nested = ([], b) :=
      deliverAll_of_unattended fun e he => h.within e.hub (hnested e he)
    rw [deliverAll_append, hunattended]
    cases last with
    | nil => rfl
    | cons p rest =>
      obtain rfl : rest = [] := by simpa using hlast
      simp only [Switchboard.deliverAll, List.nil_append, List.append_nil]
      rw [h.ordered.told_deliver, if_neg fun h => hs h.2]

/-- A subscription that is made from one stage to the next is told what comes after both. -/
lemma told_staged {rs : List Publication} (qs : List Publication) (ho : b.Ordered)
    (hfirst : (b.deliverAll ps).2.Sound n) (hrs : Unheard n rs)
    (hnew : ¬ (b.deliverAll ps).2.Registered s)
    (hmade : (b.deliverAll (ps ++ rs)).2.Registered s) :
    (b.hub s.hub).nextId ≤ s.id ∧ (b.deliverAll (ps ++ rs ++ qs)).2.Registered s ∧
      told s (b.deliverAll (ps ++ rs ++ qs)).1 = eventsOn s.hub qs := by
  have hsplit := deliverAll_append b ps rs
  have hid : ((b.deliverAll ps).2.hub s.hub).nextId ≤ s.id := by
    by_contra hlt
    rw [hsplit] at hmade
    exact hnew ((deliverAll_grown _ rs).toOnward.registered hmade (by omega))
  refine ⟨Nat.le_trans ((deliverAll_grown b ps).nextId_le s.hub) hid, ?_, ?_⟩
  · rw [deliverAll_append]
    exact (deliverAll_grown _ qs).registered hmade
  · rw [deliverAll_append, told_append, (ho.deliverAll _).told_deliverAll hmade, hsplit,
      told_append, ho.told_eq_nil hid, hfirst.told_unheard hrs hnew]
    rfl

end Switchboard

namespace Tree

section

variable {root : TypeDef} {s : Setting} {t t' u u' : Tree} {ps : List Publication}

lemma Tracks.congr (h : t.Tracks ps t') (hnodes : u.nodes = t.nodes) (hnext : u.nextHub = t.nextHub)
    (hnodes' : u'.nodes = t'.nodes) : u.Tracks ps u' := by
  intro hub hlt
  rw [view_congr hnodes, view_congr hnodes']
  exact h hub (hnext ▸ hlt)

lemma removals_dismantle (t : Tree) (id : NodeId) :
    ∀ e ∈ (t.dismantle id).published, ∀ c, e.event ≠ .childAdded c := by
  have hvisit : ∀ v u, ∀ e ∈ (visit v u).2.2, ∀ c, e.event ≠ .childAdded c := by
    intro v u e he c
    cases v with
    | enter x =>
      simp only [visit] at he
      split at he
      · simp at he
      · obtain rfl := List.mem_singleton.mp he
        simp
    | leave x =>
      simp only [visit, detach] at he
      split at he
      · simp at he
      · split at he
        · simp at he
        · split at he
          · simp at he
          · obtain rfl := List.mem_singleton.mp he
            simp
  intro e he
  exact Worklist.run_output hvisit _ (by simp) e (Array.mem_toList_iff.mp he)

lemma unheard_dismantle (t : Tree) (id : NodeId) (n : Nat) :
    Unheard n (t.dismantle id).published := .inl (removals_dismantle t id)

lemma unheard_remove (t : Tree) (id : NodeId) (n : Nat) : Unheard n (t.remove id).published := by
  unfold Tree.remove
  split
  · exact unheard_nil n
  · split
    · exact unheard_dismantle t id n
    · exact unheard_nil n

lemma length_announcement_le (t : Tree) (parent id : NodeId) :
    (t.announcement parent id).length ≤ 1 := by
  unfold announcement
  split <;> simp

namespace WellFormed

lemma unheard_add (h : t.WellFormed root) (target : NodeId) (sel : Selection) :
    Unheard t.nextHub (t.add s target sel).published := by
  have hgrow := h.grows (s := s) target sel
  unfold Tree.add
  rcases hg : t.grow s target sel with ⟨e | ⟨⟩, t', ps⟩
  · simp only [hg] at hgrow
    exact .inr ⟨ps, [], (List.append_nil ps).symm, by simp, hgrow.silent⟩
  · simp only [hg] at hgrow
    obtain ⟨-, nested, rfl, hnested⟩ := hgrow
    exact .inr ⟨nested, _, rfl, length_announcement_le t' target sel.id, hnested⟩

lemma unheard_change (h : t.WellFormed root) (c : Change) :
    Unheard t.nextHub (t.change s c).published := by
  unfold Tree.change
  split
  · cases c with
    | add target sel =>
      have hadd := h.unheard_add (s := s) target sel
      dsimp only
      split <;> exact hadd
    | delete target =>
      dsimp only
      split
      · exact unheard_nil _
      · exact unheard_dismantle t target _
  · exact unheard_nil _

end WellFormed

/-- Two stages of an operation that follow each other, and the whole of it. -/
structure Staged (first second whole : Tree × List Publication) : Prop where
  step : ∃ ps, second.2 = first.2 ++ ps ∧ Unheard first.1.nextHub ps
  rest : ∃ ps, whole.2 = second.2 ++ ps ∧ second.1.Tracks ps whole.1 ∧
    second.1.nextHub ≤ whole.1.nextHub

namespace Staged

lemma whole {first whole : Tree × List Publication} {ps : List Publication}
    (h : whole.2 = first.2 ++ ps) (hps : Unheard first.1.nextHub ps) :
    Staged first whole whole where
  step := ⟨ps, h, hps⟩
  rest := ⟨[], (List.append_nil _).symm, Tracks.nil _, Nat.le_refl _⟩

lemma same (first : Tree × List Publication) : Staged first first first :=
  whole (List.append_nil _).symm (unheard_nil _)

lemma append_left {first second whole : Tree × List Publication} (h : Staged first second whole)
    (ps : List Publication) :
    Staged (first.1, ps ++ first.2) (second.1, ps ++ second.2) (whole.1, ps ++ whole.2) where
  step := by
    obtain ⟨qs, hqs, hunheard⟩ := h.step
    exact ⟨qs, by simp [hqs], hunheard⟩
  rest := by
    obtain ⟨qs, hqs, htracks, hnext⟩ := h.rest
    exact ⟨qs, by simp [hqs], htracks, hnext⟩

end Staged

lemma changeAll_append (s : Setting) (index : Nat) (cs later : List Change) (t : Tree) :
    (t.changeAll s index (cs ++ later)).tree =
        ((t.changeAll s index cs).tree.changeAll s (index + cs.length) later).tree ∧
      (t.changeAll s index (cs ++ later)).published = (t.changeAll s index cs).published ++
        ((t.changeAll s index cs).tree.changeAll s (index + cs.length) later).published := by
  induction cs generalizing t index with
  | nil => exact ⟨rfl, rfl⟩
  | cons c rest ih =>
    obtain ⟨htree, hpublished⟩ := ih (index + 1) (t.change s c).tree
    have hindex : index + (c :: rest).length = index + 1 + rest.length := by
      simp only [List.length_cons]
      omega
    rw [hindex]
    simp [changeAll, htree, hpublished]

namespace WellFormed

lemma rest_apply (h : t.WellFormed root) (batch : Batch) (n : Nat) :
    ∃ ps, (t.apply s batch).published =
        (t.apply s { batch with changes := batch.changes.take n }).published ++ ps ∧
      (t.apply s { batch with changes := batch.changes.take n }).tree.Tracks ps
        (t.apply s batch).tree ∧
      (t.apply s { batch with changes := batch.changes.take n }).tree.nextHub ≤
        (t.apply s batch).tree.nextHub := by
  have hput := h.evolves_bindings fun _ hb => hb.putAll batch.assignments
  have htake := hput.wellFormed.evolves_changeAll (s := s) 0 (batch.changes.take n)
  obtain ⟨htree, hpublished⟩ := changeAll_append s 0 (batch.changes.take n)
    (batch.changes.drop n) { t with bindings := t.bindings.putAll batch.assignments }
  rw [List.take_append_drop] at htree hpublished
  have hrest := htake.wellFormed.evolves_changeAll (s := s)
    (0 + (batch.changes.take n).length) (batch.changes.drop n)
  rw [← htree] at hrest
  exact ⟨_, hpublished, hrest.tracks.congr rfl rfl rfl, hrest.nextHub_le⟩

lemma staged_apply (h : t.WellFormed root) (batch : Batch) (n : Nat) :
    Staged
      ((t.apply s { batch with changes := batch.changes.take n }).tree,
        (t.apply s { batch with changes := batch.changes.take n }).published)
      ((t.apply s { batch with changes := batch.changes.take (n + 1) }).tree,
        (t.apply s { batch with changes := batch.changes.take (n + 1) }).published)
      ((t.apply s batch).tree, (t.apply s batch).published) := by
  refine ⟨?_, h.rest_apply batch (n + 1)⟩
  have hput := h.evolves_bindings fun _ hb => hb.putAll batch.assignments
  have htake := hput.wellFormed.evolves_changeAll (s := s) 0 (batch.changes.take n)
  obtain ⟨-, hpublished⟩ := changeAll_append s 0 (batch.changes.take n)
    batch.changes[n]?.toList { t with bindings := t.bindings.putAll batch.assignments }
  rw [← List.take_add_one] at hpublished
  refine ⟨_, hpublished, ?_⟩
  cases batch.changes[n]? with
  | none => exact unheard_nil _
  | some c =>
    simp only [Option.toList_some, changeAll, List.append_nil]
    exact htake.wellFormed.unheard_change c

lemma staged_addChain (h : t.WellFormed root) (field : String) (n count : Nat)
    (target first : NodeId) :
    Staged
      ((t.addChain s field (min n count) target first).tree,
        (t.addChain s field (min n count) target first).published)
      ((t.addChain s field (min (n + 1) count) target first).tree,
        (t.addChain s field (min (n + 1) count) target first).published)
      ((t.addChain s field count target first).tree,
        (t.addChain s field count target first).published) := by
  induction n generalizing t count target first with
  | zero =>
    cases count with
    | zero => exact Staged.same _
    | succ count =>
      have hevolves := h.evolves_add (s := s) target { id := first, field }
      have hunheard := h.unheard_add (s := s) target { id := first, field }
      rw [Nat.zero_min, Nat.succ_min_succ, Nat.zero_min]
      simp only [Tree.addChain]
      rcases hg : t.add s target { id := first, field } with ⟨e | id, t', ps⟩
      · rw [hg] at hunheard
        exact Staged.whole rfl hunheard
      · rw [hg] at hevolves hunheard
        refine ⟨⟨ps, by simp, hunheard⟩, ?_⟩
        have hrest := hevolves.wellFormed.evolves_addChain (s := s) field count id id.next
        exact ⟨_, by simp, hrest.tracks, hrest.nextHub_le⟩
  | succ n ih =>
    cases count with
    | zero => exact Staged.same _
    | succ count =>
      have hevolves := h.evolves_add (s := s) target { id := first, field }
      rw [Nat.succ_min_succ, Nat.succ_min_succ]
      simp only [Tree.addChain]
      rcases hg : t.add s target { id := first, field } with ⟨e | id, t', ps⟩
      · exact Staged.same _
      · rw [hg] at hevolves
        exact (ih hevolves.wellFormed count id id.next).append_left ps

theorem staged_effect (h : t.WellFormed root) {c : Command} (hc : c.isOperation) (n : Nat) :
    ∃ first second whole, c.stage? s t n = some first ∧ c.stage? s t (n + 1) = some second ∧
      c.effect? s t = some whole ∧ Staged first second whole := by
  have huncut : ∀ whole, (∀ m, (c.cut m).effect? s t = some whole) → c.effect? s t = some whole →
      Unheard t.nextHub whole.2 → ∃ first second whole, c.stage? s t n = some first ∧
        c.stage? s t (n + 1) = some second ∧ c.effect? s t = some whole ∧
        Staged first second whole := by
    intro whole hcut heffect hunheard
    cases n with
    | zero => exact ⟨(t, []), whole, whole, rfl, hcut 0, heffect, Staged.whole rfl hunheard⟩
    | succ n => exact ⟨whole, whole, whole, hcut n, hcut (n + 1), heffect, Staged.same whole⟩
  cases c <;> simp only [Command.isOperation, Bool.false_eq_true] at hc
  case apply batch =>
    cases n with
    | zero => exact ⟨_, _, _, rfl, rfl, rfl, ⟨[], rfl, unheard_nil _⟩, h.rest_apply batch 0⟩
    | succ n => exact ⟨_, _, _, rfl, rfl, rfl, h.staged_apply batch n⟩
  case addChain target first count field =>
    cases n with
    | zero =>
      have hchain := h.evolves_addChain (s := s) field count target first
      refine ⟨(t, []), (t, []), _, rfl, ?_, rfl, ⟨[], rfl, unheard_nil _⟩, ?_⟩
      · simp [Command.stage?, Command.cut, Command.effect?, Tree.addChain]
      · exact ⟨_, rfl, hchain.tracks, hchain.nextHub_le⟩
    | succ n => exact ⟨_, _, _, rfl, rfl, rfl, h.staged_addChain field n count target first⟩
  case add target sel => exact huncut _ (fun _ => rfl) rfl (h.unheard_add target sel)
  case remove node => exact huncut _ (fun _ => rfl) rfl (unheard_remove t node _)
  case teardown => exact huncut _ (fun _ => rfl) rfl (unheard_dismantle t .root _)
  case discard => exact huncut _ (fun _ => rfl) rfl (unheard_nil _)

end WellFormed

end

end Tree

end LiveQuery
