import LiveQuery.Proofs.Evolution

/-!
# Walks over a branch

The two walks that take a branch out of a tree, told by recursion on the branch. A purge drops the
nodes as it meets them. A removal announces a node, removes the branches of its children and only
then detaches the node, so that every step leaves a well-formed tree.
-/

namespace LiveQuery

namespace Worklist

variable {ι σ ω : Type} {visit : ι → σ → List ι × σ × List ω}

lemma run_output {P : ω → Prop} (hvisit : ∀ item state, ∀ x ∈ (visit item state).2.2, P x)
    (fuel : Nat) {w : Worklist ι σ ω} (hw : ∀ x ∈ w.output, P x) :
    ∀ x ∈ (run visit fuel w).output, P x := by
  induction fuel generalizing w with
  | zero => exact hw
  | succ fuel ih =>
    rw [run_succ]
    apply ih
    obtain ⟨pending, state, output⟩ := w
    cases pending with
    | nil => exact hw
    | cons item rest =>
      intro x hx
      rw [step_cons, ← Array.mem_toList_iff, Array.toList_appendList, List.mem_append] at hx
      rcases hx with hx | hx
      · exact hw x (Array.mem_toList_iff.mp hx)
      · exact hvisit item state x hx

lemma run_state {P : σ → Prop} (hvisit : ∀ item state, P state → P (visit item state).2.1)
    (fuel : Nat) {w : Worklist ι σ ω} (hw : P w.state) : P (run visit fuel w).state := by
  induction fuel generalizing w with
  | zero => exact hw
  | succ fuel ih =>
    rw [run_succ]
    apply ih
    obtain ⟨pending, state, output⟩ := w
    cases pending with
    | nil => exact hw
    | cons item rest => exact hvisit item state hw

lemma append_list_assoc (output : Array ω) (l l' : List ω) :
    output ++ l ++ l' = output ++ (l ++ l') := by
  apply Array.ext'
  simp

/-- Two runs that are both finished are the same, however much fuel they had. -/
lemma run_eq_of_finished {m n : Nat} {w : Worklist ι σ ω} (hm : (run visit m w).pending = [])
    (hn : (run visit n w).pending = []) : run visit m w = run visit n w := by
  have h := run_add visit m n w
  rw [Nat.add_comm, run_add, run_of_finished visit _ hm, run_of_finished visit _ hn] at h
  exact h.symm

/-- From `w` on the walk comes to `w'`. It takes up `items` on the way, one in each step, and `P` holds of each
of them and the state in which it is taken up. -/
inductive Takes (visit : ι → σ → List ι × σ × List ω) (P : ι → σ → Prop) :
    Worklist ι σ ω → List ι → Worklist ι σ ω → Prop
  | refl (w : Worklist ι σ ω) : Takes visit P w [] w
  | next {item : ι} {rest items : List ι} {state : σ} {output : Array ω} {w : Worklist ι σ ω} :
      P item state → Takes visit P (step visit ⟨item :: rest, state, output⟩) items w →
      Takes visit P ⟨item :: rest, state, output⟩ (item :: items) w

section

variable {P : ι → σ → Prop} {w w' w'' : Worklist ι σ ω} {items later : List ι}

lemma Takes.trans (h : Takes visit P w items w') (h' : Takes visit P w' later w'') :
    Takes visit P w (items ++ later) w'' := by
  induction h with
  | refl => exact h'
  | next hitem _ ih => exact .next hitem (ih h')

lemma Takes.run_add (h : Takes visit P w items w') (fuel : Nat) :
    run visit (items.length + fuel) w = run visit fuel w' := by
  induction h with
  | refl => rw [List.length_nil, Nat.zero_add]
  | next _ _ ih => rw [List.length_cons, Nat.succ_add, run_succ, ih]

lemma Takes.run_eq (h : Takes visit P w items w') (hend : w'.pending = []) {steps : Nat}
    (hsteps : items.length ≤ steps) : run visit steps w = w' := by
  obtain ⟨fuel, rfl⟩ := Nat.exists_eq_add_of_le hsteps
  rw [h.run_add, run_of_finished visit fuel hend]

end

end Worklist

def Visit.node : Visit → NodeId
  | enter id => id
  | leave id => id

/-- The node is there when the visit is paid to it. -/
def Visit.Meets (v : Visit) (t : Tree) : Prop := t.contains v.node

namespace Branch

mutual

/-- The visits a removal pays to a branch: those to what is below a node stand between the two to the node. -/
def rounds : Branch → List Visit
  | ⟨id, children⟩ => .enter id :: (roundsAll children ++ [.leave id])

def roundsAll : List Branch → List Visit
  | [] => []
  | b :: rest => b.rounds ++ roundsAll rest

end

mutual

theorem rounds_perm (b : Branch) : b.rounds.Perm (b.ids.map .enter ++ b.ids.map .leave) := by
  match b with
  | ⟨id, children⟩ =>
    have hbelow := (roundsAll_perm children).append_right [.leave id]
    rw [List.append_assoc] at hbelow
    exact (hbelow.trans (List.perm_append_comm.append_left _)).cons _

theorem roundsAll_perm (bs : List Branch) :
    (roundsAll bs).Perm ((idsAll bs).map .enter ++ (idsAll bs).map .leave) := by
  match bs with
  | [] => exact .nil
  | b :: rest =>
    refine ((rounds_perm b).append (roundsAll_perm rest)).trans ?_
    rw [idsAll, List.map_append, List.map_append, List.append_assoc, List.append_assoc]
    exact (List.perm_append_comm_assoc ..).append_left _

end

lemma length_rounds (b : Branch) : b.rounds.length = 2 * b.ids.length := by
  rw [b.rounds_perm.length_eq, List.length_append, List.length_map, List.length_map, Nat.two_mul]

end Branch

namespace Tree

open Worklist

section

variable {root : TypeDef} {t t' : Tree} {id p : NodeId} {n m : Node} {out : List Reference}

/-! ### The silent walk -/

lemma node?_dropAll (ids : List NodeId) (t : Tree) (y : NodeId) :
    (ids.foldl drop t).node? y = if y ∈ ids then none else t.node? y := by
  induction ids generalizing t with
  | nil => simp
  | cons x rest ih =>
    rw [List.foldl_cons, ih, node?_drop]
    grind

lemma nextHub_dropAll (ids : List NodeId) (t : Tree) :
    (ids.foldl drop t).nextHub = t.nextHub := by
  induction ids generalizing t with
  | nil => rfl
  | cons x rest ih => rw [List.foldl_cons, ih, nextHub_drop]

lemma Accounts.dropAll (h : t.Accounts out) (ids : List NodeId) :
    (ids.foldl Tree.drop t).Accounts out := by
  induction ids generalizing t with
  | nil => exact h
  | cons x rest ih => exact ih (h.drop x)

lemma sameValues_dropAll (ids : List NodeId) (t : Tree) :
    t.bindings.SameValues (ids.foldl drop t).bindings := by
  induction ids generalizing t with
  | nil => exact Bindings.SameValues.refl _
  | cons x rest ih => exact (sameValues_drop t x).trans (ih _)

lemma step_uproot (id : NodeId) (rest : List NodeId) (t : Tree) (output : Array Empty) :
    Worklist.step uproot ⟨id :: rest, t, output⟩ = ⟨t.childrenOf id ++ rest, t.drop id, output⟩ := by
  simp [step_cons, uproot_eq]

lemma disjoint_of_nodup {b b' : Branch} {bs : List Branch} (h : (Branch.idsAll (b :: bs)).Nodup)
    (hb : b' ∈ bs) : ∀ y ∈ b'.ids, y ∉ b.ids := by
  intro y hy hyb
  exact (List.nodup_append.mp h).2.2 y hyb y (Branch.mem_idsAll.mpr ⟨b', hb, hy⟩) rfl

mutual

/-- The silent walk takes out a branch and goes on with what was pending behind it. -/
theorem run_uproot_branch (b : Branch) {t : Tree} (ht : t.Holds b) (hids : b.ids.Nodup)
    (fuel : Nat) (rest : List NodeId) (output : Array Empty) :
    run uproot (b.ids.length + fuel) ⟨b.id :: rest, t, output⟩ =
      run uproot fuel ⟨rest, b.ids.foldl drop t, output⟩ := by
  match b with
  | ⟨id, children⟩ =>
    obtain @⟨_, _, n, hn, hchildren, -, hbelow⟩ := ht
    obtain ⟨hid, hids⟩ := List.nodup_cons.mp hids
    have hlength : (Branch.ids ⟨id, children⟩).length + fuel =
        ((Branch.idsAll children).length + fuel) + 1 := by
      simp only [Branch.ids, List.length_cons]
      omega
    have hdrop : ∀ b ∈ children, (t.drop id).Holds b := by
      intro b hb
      refine (hbelow b hb).congr fun y hy => ?_
      rw [node?_drop, if_neg]
      rintro rfl
      exact hid (Branch.mem_idsAll.mpr ⟨b, hb, hy⟩)
    rw [hlength, run_succ]
    simp only [Branch.id, step_uproot, childrenOf_eq hn, hchildren]
    rw [run_uproot_branches children hdrop hids]
    rfl

theorem run_uproot_branches (bs : List Branch) {t : Tree} (ht : ∀ b ∈ bs, t.Holds b)
    (hids : (Branch.idsAll bs).Nodup) (fuel : Nat) (rest : List NodeId) (output : Array Empty) :
    run uproot ((Branch.idsAll bs).length + fuel) ⟨bs.map Branch.id ++ rest, t, output⟩ =
      run uproot fuel ⟨rest, (Branch.idsAll bs).foldl drop t, output⟩ := by
  match bs with
  | [] => simp [Branch.idsAll]
  | b :: bs =>
    obtain ⟨hb, hbs, -⟩ := List.nodup_append.mp hids
    have hkeep : ∀ b' ∈ bs, (b.ids.foldl Tree.drop t).Holds b' := by
      intro b' hb'
      refine (ht b' (List.mem_cons_of_mem _ hb')).congr fun y hy => ?_
      rw [node?_dropAll, if_neg (disjoint_of_nodup hids hb' y hy)]
    rw [Branch.idsAll, List.length_append, Nat.add_assoc, List.map_cons, List.cons_append,
      run_uproot_branch b (ht b List.mem_cons_self) hb, List.foldl_append,
      run_uproot_branches bs hkeep hbs]

end

lemma linkCount_eq (t : Tree) :
    t.linkCount = (t.nodes.toList.map fun e => e.2.children.length).sum := by
  rw [linkCount]
  induction t.nodes.toList with
  | nil => rfl
  | cons e rest ih => simp [ih]

lemma linkCount_drop (t : Tree) (id : NodeId) :
    (t.childrenOf id).length + (t.drop id).linkCount = t.linkCount := by
  cases hid : t.node? id with
  | none => simp [childrenOf, drop, hid]
  | some n =>
    rw [linkCount_eq, linkCount_eq, ((toList_perm_erase hid).map _).sum_nat]
    simp [childrenOf, drop, hid]

/-- On any index whatever, one visit for each pending node and for each link is enough. -/
lemma finished_uproot (fuel : Nat) {w : Worklist NodeId Tree Empty}
    (h : w.pending.length + w.state.linkCount ≤ fuel) : (run uproot fuel w).pending = [] := by
  induction fuel generalizing w with
  | zero => simpa [run] using List.length_eq_zero_iff.mp (by omega)
  | succ fuel ih =>
    obtain ⟨pending, t, output⟩ := w
    cases pending with
    | nil => rw [run_of_finished uproot _ rfl]
    | cons id rest =>
      rw [run_succ]
      apply ih
      rw [step_uproot]
      have := linkCount_drop t id
      simp only [List.length_append, List.length_cons] at h ⊢
      omega

theorem WellFormed.purge_eq (h : t.WellFormed root) (hp : t.parentOf id = some p) :
    ∃ ids : List NodeId, (∀ y, y ∈ ids ↔ t.Below id y) ∧
      t.purge id = ids.foldl drop (t.unlink p id) := by
  obtain ⟨n, hn, -⟩ := live_of_parentOf hp
  obtain ⟨b, rfl, hb⟩ := h.exists_branch hn
  refine ⟨b.ids, hb.mem_ids, ?_⟩
  have hcut : (t.unlink p b.id).Holds b := by
    refine hb.holds.congr fun y hy => ?_
    rw [node?_unlink, if_neg]
    rintro rfl
    exact h.not_below_child hp ((hb.mem_ids _).mp hy)
  have hrun := run_uproot_branch b hcut hb.nodup 0 [] #[]
  -- the purge has more fuel than the branch needs, which makes no difference once both are done
  have hfinished := finished_uproot (1 + (t.unlink p b.id).linkCount)
    (w := ⟨[b.id], t.unlink p b.id, #[]⟩) (Nat.le_refl _)
  have hsame := run_eq_of_finished hfinished (n := b.ids.length + 0) (by rw [hrun]; rfl)
  rw [purge, hp]
  simp only [hsame, hrun]
  rfl

lemma WellFormed.purge_accounts (h : t.WellFormed root) (hp : t.parentOf id = some p) :
    (t.purge id).nextHub = t.nextHub ∧ ∀ out, t.Accounts out →
      (t.purge id).Accounts out ∧ t.bindings.SameValues (t.purge id).bindings := by
  obtain ⟨ids, -, hpurge⟩ := h.purge_eq hp
  rw [hpurge]
  exact ⟨nextHub_dropAll ids _, fun out ha =>
    ⟨(ha.unlink p id).dropAll ids, sameValues_dropAll ids (t.unlink p id)⟩⟩

/-! ### The announced walk -/

mutual

/-- What a removal makes of a tree in which it meets a branch, and what it publishes: the node is
announced, the branches of its children go one after the other, and the node is detached. -/
def fell : Branch → Tree → Tree × List Publication
  | ⟨id, children⟩, t =>
    let announced := (t.node? id).toList.map fun n => ⟨n.hub, .deleted⟩
    let (t, below) := fellAll children t
    let (t, last) := t.detach id
    (t, announced ++ below ++ last)

def fellAll : List Branch → Tree → Tree × List Publication
  | [], t => (t, [])
  | b :: rest, t =>
    let (t, ps) := fell b t
    let (t, later) := fellAll rest t
    (t, ps ++ later)

end

lemma Holds.without {gone : List NodeId} {b : Branch} (h : t.Holds b) (ht : t.Without gone t')
    (hb : ∀ y ∈ b.ids, y ∉ gone) : t'.Holds b := by
  induction b using Branch.induct with
  | mk id children ih =>
    obtain @⟨_, _, n, hn, hchildren, hparent, hbelow⟩ := h
    have hsub : ∀ b ∈ children, ∀ y ∈ b.ids, y ∉ gone := fun b hbc y hy =>
      hb y (List.mem_cons_of_mem _ (Branch.mem_idsAll.mpr ⟨b, hbc, hy⟩))
    have hkeep : n.children.filter (· ∉ gone) = n.children := by
      rw [List.filter_eq_self, hchildren]
      intro c hc
      obtain ⟨b, hbc, rfl⟩ := List.mem_map.mp hc
      simpa using hsub b hbc _ b.id_mem_ids
    have hnode : t'.node? id = some n := by
      rw [ht id, if_neg (hb id List.mem_cons_self), hn, Option.map_some, hkeep]
    refine .mk hnode hchildren (fun b hbc => ?_) fun b hbc => ih b hbc (hbelow b hbc) (hsub b hbc)
    obtain ⟨k, hk, hkp⟩ := live_of_parentOf (hparent b hbc)
    have hb' := ht b.id
    rw [if_neg (hsub b hbc _ b.id_mem_ids), hk, Option.map_some] at hb'
    exact (parentOf_eq hb').trans hkp

mutual

/-- Felling a branch is a sequence of small steps, and takes out the ids of the branch. -/
theorem WellFormed.evolves_fell (b : Branch) {t : Tree} (h : t.WellFormed root) (hb : t.Holds b)
    (hids : b.ids.Nodup) :
    Evolves root t (fell b t).2 (fell b t).1 ∧ t.Without b.ids (fell b t).1 := by
  match b with
  | ⟨id, children⟩ =>
    obtain @⟨_, _, n, hn, hchildren, -, hbelow⟩ := hb
    obtain ⟨hid, hids⟩ := List.nodup_cons.mp hids
    obtain ⟨hevolves, hwithout⟩ := h.evolves_fellAll children hbelow hids
    have hleaf := hwithout id
    rw [if_neg hid, hn, Option.map_some] at hleaf
    have hnone : n.children.filter (· ∉ Branch.idsAll children) = [] := by
      rw [List.filter_eq_nil_iff, hchildren]
      intro c hc
      obtain ⟨b, hb, rfl⟩ := List.mem_map.mp hc
      simpa using Branch.mem_idsAll.mpr ⟨b, hb, b.id_mem_ids⟩
    have h' := hevolves.wellFormed
    refine ⟨?_, ?_⟩
    · simp only [Tree.fell, hn, Option.toList_some, List.map_cons, List.map_nil]
      exact ((h.evolves_deleted n.hub).trans hevolves).trans (h'.evolves_detach_leaf hleaf hnone)
    · have hlast := hwithout.trans (h'.without_leaf hleaf)
      refine hlast.of_mem_iff fun y => ?_
      simp [Branch.ids, or_comm]

theorem WellFormed.evolves_fellAll (bs : List Branch) {t : Tree} (h : t.WellFormed root)
    (hbs : ∀ b ∈ bs, t.Holds b) (hids : (Branch.idsAll bs).Nodup) :
    Evolves root t (fellAll bs t).2 (fellAll bs t).1 ∧
      t.Without (Branch.idsAll bs) (fellAll bs t).1 := by
  match bs with
  | [] => exact ⟨Evolves.refl h, Without.nil t⟩
  | b :: bs =>
    obtain ⟨hfirst, hrest, -⟩ := List.nodup_append.mp hids
    obtain ⟨hevolves, hwithout⟩ := h.evolves_fell b (hbs b List.mem_cons_self) hfirst
    have hkeep : ∀ b' ∈ bs, (Tree.fell b t).1.Holds b' := fun b' hb' =>
      (hbs b' (List.mem_cons_of_mem _ hb')).without hwithout (disjoint_of_nodup hids hb')
    obtain ⟨hevolves', hwithout'⟩ := hevolves.wellFormed.evolves_fellAll bs hkeep hrest
    exact ⟨hevolves.trans hevolves', hwithout.trans hwithout'⟩

end

lemma step_enter (hn : t.node? id = some n) (rest : List Visit) (output : Array Publication) :
    Worklist.step visit ⟨.enter id :: rest, t, output⟩ =
      ⟨n.children.map .enter ++ .leave id :: rest, t, output.push ⟨n.hub, .deleted⟩⟩ := by
  simp [step_cons, visit, hn]

lemma step_leave (id : NodeId) (rest : List Visit) (t : Tree) (output : Array Publication) :
    Worklist.step visit ⟨.leave id :: rest, t, output⟩ =
      ⟨rest, (t.detach id).1, output ++ (t.detach id).2⟩ := by
  simp [step_cons, visit]

mutual

/-- A removal fells the branch of the node it enters and goes on with what was pending behind. Each node is
there when it is entered and when it is left. -/
theorem WellFormed.takes_visit_branch (b : Branch) {t : Tree} (h : t.WellFormed root)
    (hb : t.Holds b) (hids : b.ids.Nodup) (rest : List Visit) (output : Array Publication) :
    Takes visit Visit.Meets ⟨.enter b.id :: rest, t, output⟩ b.rounds
      ⟨rest, (Tree.fell b t).1, output ++ (Tree.fell b t).2⟩ := by
  match b with
  | ⟨id, children⟩ =>
    obtain @⟨_, _, n, hn, hchildren, -, hbelow⟩ := hb
    obtain ⟨hid, hids⟩ := List.nodup_cons.mp hids
    obtain ⟨-, hwithout⟩ := h.evolves_fellAll children hbelow hids
    have hleft := hwithout id
    rw [if_neg hid, hn, Option.map_some] at hleft
    refine .next (contains_iff.mpr ⟨n, hn⟩) ?_
    rw [Branch.id, step_enter hn, hchildren]
    refine (h.takes_visit_branches children hbelow hids _ _).trans
      (.next (contains_iff.mpr ⟨_, hleft⟩) ?_)
    rw [step_leave]
    simpa [Tree.fell, hn, append_list_assoc] using .refl _

theorem WellFormed.takes_visit_branches (bs : List Branch) {t : Tree} (h : t.WellFormed root)
    (hbs : ∀ b ∈ bs, t.Holds b) (hids : (Branch.idsAll bs).Nodup) (rest : List Visit)
    (output : Array Publication) :
    Takes visit Visit.Meets ⟨(bs.map Branch.id).map .enter ++ rest, t, output⟩
      (Branch.roundsAll bs) ⟨rest, (fellAll bs t).1, output ++ (fellAll bs t).2⟩ := by
  match bs with
  | [] => simpa [Branch.roundsAll, fellAll] using .refl _
  | b :: bs =>
    obtain ⟨hfirst, hrest, -⟩ := List.nodup_append.mp hids
    have hb := hbs b List.mem_cons_self
    obtain ⟨hevolves, hwithout⟩ := h.evolves_fell b hb hfirst
    have hkeep : ∀ b' ∈ bs, (Tree.fell b t).1.Holds b' := fun b' hb' =>
      (hbs b' (List.mem_cons_of_mem _ hb')).without hwithout (disjoint_of_nodup hids hb')
    have hlater := hevolves.wellFormed.takes_visit_branches bs hkeep hrest rest
      (output ++ (Tree.fell b t).2)
    rw [append_list_assoc] at hlater
    exact (h.takes_visit_branch b hb hfirst _ output).trans hlater

end

lemma Carries.length_le {b : Branch} (h : t.Carries b) (hn : t.node? b.id = some n) :
    b.ids.length ≤ t.size := by
  have hlive : b.ids ⊆ t.nodes.keys := by
    intro y hy
    rw [Std.ExtTreeMap.mem_keys, Std.ExtTreeMap.mem_iff_isSome_getElem?, Option.isSome_iff_exists]
    exact ((h.mem_ids y).mp hy).live hn
  have hlength := (List.subperm_of_subset h.nodup hlive).length_le
  rwa [Std.ExtTreeMap.length_keys] at hlength

lemma Carries.length_rounds_le {b : Branch} (h : t.Carries b) (hn : t.node? b.id = some n) :
    b.rounds.length ≤ 2 * t.size := by
  rw [b.length_rounds]
  exact Nat.mul_le_mul_left 2 (h.length_le hn)

theorem WellFormed.dismantle_eq (h : t.WellFormed root) (hn : t.node? id = some n) :
    ∃ b : Branch, b.id = id ∧ t.Carries b ∧
      t.dismantle id = ⟨(), (Tree.fell b t).1, (Tree.fell b t).2⟩ := by
  obtain ⟨b, rfl, hb⟩ := h.exists_branch hn
  refine ⟨b, rfl, hb, ?_⟩
  have htakes := h.takes_visit_branch b hb.holds hb.nodup [] #[]
  rw [dismantle, htakes.run_eq rfl (hb.length_rounds_le hn)]
  simp

lemma dismantle_of_absent (h : t.node? id = none) : t.dismantle id = ⟨(), t, []⟩ := by
  unfold dismantle
  cases 2 * t.size with
  | zero => simp [run]
  | succ fuel =>
    rw [run_succ, step_cons, run_of_finished visit _ (by simp [visit, h])]
    simp [visit, h]

theorem WellFormed.without_dismantle (h : t.WellFormed root) (hn : t.node? id = some n) :
    ∃ ids : List NodeId, (∀ y, y ∈ ids ↔ t.Below id y) ∧ t.Without ids (t.dismantle id).tree := by
  obtain ⟨b, rfl, hb, heq⟩ := h.dismantle_eq hn
  rw [heq]
  exact ⟨b.ids, hb.mem_ids, (h.evolves_fell b hb.holds hb.nodup).2⟩

theorem WellFormed.evolves_dismantle (h : t.WellFormed root) (id : NodeId) :
    Evolves root t (t.dismantle id).published (t.dismantle id).tree := by
  cases hn : t.node? id with
  | none =>
    rw [dismantle_of_absent hn]
    exact Evolves.refl h
  | some n =>
    obtain ⟨b, -, hb, heq⟩ := h.dismantle_eq hn
    rw [heq]
    exact (h.evolves_fell b hb.holds hb.nodup).1

end

end Tree

end LiveQuery
