import LiveQuery.Proofs.Clearances
import LiveQuery.Proofs.Outlines

/-!
# How long the walks are

The loops of the walks know no bound: they go on until nothing is pending. A removal leaves a node where it is
when it first meets it, and an outline takes nothing out at all, so both come to an end only since the links of
a tree lead to every node once. A purge takes out what it meets, and comes to an end whatever the links are.
-/

namespace LiveQuery

namespace Worklist

variable {ι σ ω : Type} {visit : ι → σ → List ι × σ × List ω} {P : ι → σ → Prop}
  {w w' : Worklist ι σ ω} {items : List ι}

lemma Takes.pending_eq_nil_iff (h : Takes visit P w items w') (hend : w'.pending = [])
    (steps : Nat) : (run visit steps w).pending = [] ↔ items.length ≤ steps := by
  induction h generalizing steps with
  | refl w => simp [run_of_finished visit steps hend, hend]
  | next _ _ ih =>
    cases steps with
    | zero => simp [run]
    | succ steps => rw [run_succ, ih hend, List.length_cons, Nat.succ_le_succ_iff]

lemma eq_of_ends {length steps : Nat} {last : ι}
    (h : ∀ i, (run visit i w).pending = [] ↔ length ≤ i)
    (hlast : (run visit steps w).pending = [last])
    (hend : (run visit (steps + 1) w).pending = []) : length = steps + 1 := by
  have hle : length ≤ steps + 1 := (h _).mp hend
  have hnot : ¬ length ≤ steps := (h steps).not.mp (hlast.trans_ne (List.cons_ne_nil _ _))
  omega

lemma exists_takes (visit : ι → σ → List ι × σ × List ω) (steps : Nat) (w : Worklist ι σ ω) :
    ∃ items, Takes visit (fun _ _ => True) w items (run visit steps w) := by
  induction steps generalizing w with
  | zero => exact ⟨[], .refl w⟩
  | succ steps ih =>
    obtain ⟨pending, state, output⟩ := w
    cases pending with
    | nil =>
      rw [run_of_finished visit _ rfl]
      exact ⟨[], .refl _⟩
    | cons item rest =>
      obtain ⟨items, hitems⟩ := ih (step visit ⟨item :: rest, state, output⟩)
      rw [run_succ]
      exact ⟨item :: items, .next trivial hitems⟩

end Worklist

namespace Branch

lemma sublist_roundsAll {b : Branch} {bs : List Branch} (hb : b ∈ bs) :
    b.rounds.Sublist (roundsAll bs) := by
  induction bs with
  | nil => cases hb
  | cons c rest ih =>
    obtain rfl | hb := List.mem_cons.mp hb
    · exact List.sublist_append_left _ _
    · exact (ih hb).trans (List.sublist_append_right _ _)

lemma rounds_order (b : Branch) : ∀ x ∈ b.ids, [.enter x, .leave x].Sublist b.rounds := by
  induction b using Branch.induct with
  | mk id children ih =>
    intro x hx
    obtain rfl | hx := List.mem_cons.mp hx
    · exact (List.sublist_append_right _ _).cons_cons _
    · obtain ⟨c, hc, hx⟩ := mem_idsAll.mp hx
      have hbelow := (ih c hc x hx).trans (sublist_roundsAll hc)
      exact (hbelow.trans (List.sublist_append_left _ _)).cons _

end Branch

namespace Tree

open Worklist

/-- The loop of a removal pays two visits to each of the nodes `below`, and none to others. -/
structure Rounds (t : Tree) (id : NodeId) (below : List NodeId) (visits : List Visit) : Prop where
  nodup : below.Nodup
  mem_iff : ∀ x, x ∈ below ↔ t.Below id x
  perm : visits.Perm (below.map .enter ++ below.map .leave)
  length_eq : visits.length = 2 * below.length
  order : ∀ x ∈ below, [.enter x, .leave x].Sublist visits
  /-- Every visit meets its node. -/
  loop : ∃ w, Takes visit Visit.Meets ⟨[.enter id], t, #[]⟩ visits w ∧ w.pending = [] ∧
    t.dismantle id = ⟨(), w.state, w.output.toList⟩
  ends : ∀ steps, (t.walk id steps).pending = [] ↔ 2 * below.length ≤ steps

/-- The loop that writes the outline takes up each node once. -/
structure Listing (t : Tree) (order : List NodeId) : Prop where
  nodup : order.Nodup
  mem_iff : ∀ x, x ∈ order ↔ t.contains x
  length_eq : order.length = t.size
  loop : ∃ w, Takes t.writeLine (fun x _ => t.contains x) ⟨[.root], (), #[]⟩ order w ∧
    w.pending = [] ∧ w.output.toList = t.outlineLines
  ends : ∀ steps, (t.writing .root steps).pending = [] ↔ t.size ≤ steps

/-- The tree on which the loop of a purge begins: the node is not in the list of its parent any more. -/
def severed (t : Tree) (id : NodeId) : Tree :=
  match t.parentOf id with
  | some parent => t.unlink parent id
  | none => t

/-- The loop of a purge takes up `ids`, one for the node and one for each link that goes. -/
structure Purging (t : Tree) (id : NodeId) (ids : List NodeId) : Prop where
  loop : ∃ w, Takes uproot (fun _ _ => True) ⟨[id], t.severed id, #[]⟩ ids w ∧ w.pending = [] ∧
    t.purge id = w.state
  length_eq : ids.length + (t.purge id).linkCount = 1 + (t.severed id).linkCount
  length_le : ids.length ≤ 1 + t.linkCount
  ends : ∀ steps, (Worklist.run uproot steps ⟨[id], t.severed id, #[]⟩).pending = [] ↔
    ids.length ≤ steps

/-- Removals and the outline end after as many steps as they should. -/
structure Halts (t : Tree) : Prop where
  removal : ∀ id, t.contains id → ∃ below visits, t.Rounds id below visits
  outline : ∃ order, t.Listing order

section

variable {root : TypeDef} {s : Setting} {t : Tree} {id : NodeId}

/-! ### Removals and outlines -/

theorem WellFormed.rounds (h : t.WellFormed root) (hid : t.contains id) :
    ∃ below visits, t.Rounds id below visits := by
  obtain ⟨n, hn⟩ := contains_iff.mp hid
  obtain ⟨b, rfl, hb⟩ := h.exists_branch hn
  have htakes := h.takes_visit_branch b hb.holds hb.nodup [] #[]
  refine ⟨b.ids, b.rounds, hb.nodup, hb.mem_ids, b.rounds_perm, b.length_rounds,
    b.rounds_order, ⟨_, htakes, rfl, ?_⟩, fun steps => ?_⟩
  · rw [dismantle, htakes.run_eq rfl (hb.length_rounds_le hn)]
  · rw [walk, htakes.pending_eq_nil_iff rfl, b.length_rounds]

lemma WellFormed.length_root_branch (h : t.WellFormed root) (hlive : t.isLive) {b : Branch}
    (hb : t.Carries b) (hid : b.id = .root) : b.ids.length = t.size := by
  have hperm : b.ids.Perm t.nodes.keys := by
    rw [List.perm_ext_iff_of_nodup hb.nodup t.nodes.nodup_keys]
    intro x
    rw [h.mem_ids_iff hlive hb hid, Std.ExtTreeMap.mem_keys]
    rfl
  rw [hperm.length_eq, Std.ExtTreeMap.length_keys]
  rfl

theorem WellFormed.listing (h : t.WellFormed root) (hlive : t.isLive) :
    ∃ order, t.Listing order := by
  obtain ⟨r, hr⟩ := isLive_iff.mp hlive
  obtain ⟨b, hid, hb⟩ := h.exists_branch hr
  have htakes := takes_writeLine_branch b hb.holds [] #[]
  have hlength := h.length_root_branch hlive hb hid
  rw [hid] at htakes
  refine ⟨b.ids, hb.nodup, h.mem_ids_iff hlive hb hid, hlength, ⟨_, htakes, rfl, ?_⟩,
    fun steps => ?_⟩
  · rw [outlineLines_eq hlive hb hid]
    simp
  · rw [writing, htakes.pending_eq_nil_iff rfl, hlength]

theorem WellFormed.halts (h : t.WellFormed root) (hlive : t.isLive) : t.Halts where
  removal _ hid := h.rounds hid
  outline := h.listing hlive

lemma WellFormed.isLive_amid (h : t.WellFormed root) (hlive : t.isLive) (batch : Batch) (i : Nat) :
    (t.amid s batch i).tree.isLive :=
  isLive_changeAll (t := { t with bindings := t.bindings.putAll batch.assignments })
    (h.congr rfl (Nat.le_refl _)) hlive 0 (batch.changes.take i)

/-! ### Purges -/

/-- In each step of the loop one pending node goes, and one is pending for each link that goes. -/
lemma length_of_takes_uproot {P : NodeId → Tree → Prop} {w w' : Worklist NodeId Tree Empty}
    {ids : List NodeId} (h : Takes uproot P w ids w') :
    ids.length + (w'.pending.length + w'.state.linkCount) =
      w.pending.length + w.state.linkCount := by
  induction h with
  | refl => rw [List.length_nil, Nat.zero_add]
  | @next item rest ids state output w _ _ ih =>
    simp only [step_uproot, List.length_append] at ih
    have hlinks := linkCount_drop state item
    simp only [List.length_cons]
    omega

lemma linkCount_congr {t' : Tree} (h : t'.nodes = t.nodes) : t'.linkCount = t.linkCount := by
  rw [linkCount, linkCount, h]

lemma linkCount_unlink_le (t : Tree) (p id : NodeId) : (t.unlink p id).linkCount ≤ t.linkCount := by
  have hnodes : ((t.unlink p id).drop p).nodes = (t.drop p).nodes := by
    refine nodes_ext fun y => ?_
    rw [node?_drop, node?_drop, node?_unlink]
    split_ifs <;> simp_all
  have hlength : ((t.unlink p id).childrenOf p).length ≤ (t.childrenOf p).length := by
    rw [childrenOf, childrenOf, node?_unlink, if_pos rfl]
    cases t.node? p with
    | none => exact Nat.le_refl _
    | some m => exact List.length_filter_le _ _
  rw [← linkCount_drop (t.unlink p id) p, ← linkCount_drop t p, linkCount_congr hnodes]
  exact Nat.add_le_add_right hlength _

lemma linkCount_severed_le (t : Tree) (id : NodeId) : (t.severed id).linkCount ≤ t.linkCount := by
  unfold severed
  cases t.parentOf id with
  | none => exact Nat.le_refl _
  | some p => exact linkCount_unlink_le t p id

/-- Whatever the links are, well formed or not. -/
theorem purging (t : Tree) (id : NodeId) : ∃ ids, t.Purging id ids := by
  have hend := finished_uproot (1 + (t.severed id).linkCount)
    (w := ⟨[id], t.severed id, #[]⟩) (Nat.le_refl _)
  obtain ⟨ids, htakes⟩ := exists_takes uproot (1 + (t.severed id).linkCount)
    ⟨[id], t.severed id, #[]⟩
  have hlength : ids.length + (t.purge id).linkCount = 1 + (t.severed id).linkCount := by
    have hsteps := length_of_takes_uproot htakes
    rwa [hend, List.length_nil, Nat.zero_add] at hsteps
  have hsevered := linkCount_severed_le t id
  exact ⟨ids, ⟨_, htakes, hend, rfl⟩, hlength, by omega, htakes.pending_eq_nil_iff hend⟩

end

end Tree

namespace Server

/-- The walks in the tree of a session, also in the middle of a batch, end after as many steps as they
should, and a purge ends in whatever tree. -/
theorem walks_end_exactly (setting : Setting) (root : TypeDef) (count : Nat)
    (cs : List (Nat × Command)) (k : Nat) (a : Session)
    (hk : ((start setting root count).run cs).sessions[k]? = some a) (hlive : a.tree.isLive) :
    a.tree.Halts ∧ (∀ batch i, (a.tree.amid a.setting batch i).tree.Halts) ∧
      ∀ (t : Tree) (id : NodeId), ∃ ids, t.Purging id ids := by
  have hw := (sound_run setting root count cs).wellFormed k a hk
  exact ⟨hw.halts hlive,
    fun batch i => (hw.evolves_amid batch i).wellFormed.halts (hw.isLive_amid hlive batch i),
    Tree.purging⟩

namespace Sample

/-- Two nodes that are linked to each other and to themselves, some of the links twice. -/
def knotted : Tree where
  nodes := ((∅ : Std.ExtTreeMap NodeId Node).insert ⟨1⟩
    { id := ⟨1⟩, parent := some ⟨2⟩, children := [⟨1⟩, ⟨2⟩, ⟨2⟩], depth := 0, field := "a",
      type := .defined person, hub := ⟨0, ⟨1⟩⟩ }).insert ⟨2⟩
    { id := ⟨1⟩, parent := some ⟨1⟩, children := [⟨2⟩, ⟨1⟩], depth := 0, field := "b",
      type := .defined person, hub := ⟨1, ⟨2⟩⟩ }
  bindings := .empty
  nextHub := 2

end Sample

theorem walks_end_exactly_descent : ∃ (a : Session) (below below' : List NodeId)
    (visits visits' : List Visit) (order ids : List NodeId),
    ((start Sample.setting Sample.person 1).run Sample.descent).sessions[0]? = some a ∧
    a.tree.isLive ∧ a.tree.Rounds ⟨1⟩ below visits ∧ visits.length = 6 ∧
    a.tree.Listing order ∧ order.length = 5 ∧
    (a.tree.amid a.setting (.deletions [⟨4⟩, ⟨2⟩]) 1).tree.Rounds ⟨2⟩ below' visits' ∧
    visits'.length = 4 ∧ Sample.knotted.Purging ⟨1⟩ ids ∧ ids.length = 5 := by
  have hend : (((start Sample.setting Sample.person 1).run Sample.descent).sessions[0]?).map
      (fun a => (a.tree.isLive && a.tree.contains ⟨1⟩, a.tree.size,
        [5, 6].map fun i => (a.tree.walk ⟨1⟩ i).pending)) =
      some (true, 5, [[.leave ⟨1⟩], []]) := by decide +kernel
  have hamid : (((start Sample.setting Sample.person 1).run Sample.descent).sessions[0]?).map
      (fun a => ((a.tree.amid a.setting (.deletions [⟨4⟩, ⟨2⟩]) 1).tree.contains ⟨2⟩,
        [3, 4].map fun i =>
          ((a.tree.amid a.setting (.deletions [⟨4⟩, ⟨2⟩]) 1).tree.walk ⟨2⟩ i).pending)) =
      some (true, [[.leave ⟨2⟩], []]) := by decide +kernel
  have hknotted : [4, 5].map (fun i => (Worklist.run Tree.uproot i
      ⟨[⟨1⟩], Sample.knotted.severed ⟨1⟩, #[]⟩).pending) = [[⟨2⟩], []] := by decide +kernel
  obtain ⟨a, hk, hend⟩ := Option.map_eq_some_iff.mp hend
  rw [hk, Option.map_some, Option.some_inj] at hamid
  simp only [Prod.mk.injEq, Bool.and_eq_true, List.map_cons, List.map_nil, List.cons.injEq,
    and_true] at hend hamid hknotted
  obtain ⟨⟨hlive, hfirst⟩, hsize, hfive, hsix⟩ := hend
  obtain ⟨hsecond, hthree, hfour⟩ := hamid
  obtain ⟨hfour', hfive'⟩ := hknotted
  obtain ⟨htree, hbatch, hpurge⟩ :=
    walks_end_exactly Sample.setting Sample.person 1 Sample.descent 0 a hk hlive
  obtain ⟨below, visits, hvisits⟩ := htree.removal ⟨1⟩ hfirst
  obtain ⟨order, horder⟩ := htree.outline
  obtain ⟨below', visits', hvisits'⟩ := (hbatch (.deletions [⟨4⟩, ⟨2⟩]) 1).removal ⟨2⟩ hsecond
  obtain ⟨ids, hids⟩ := hpurge Sample.knotted ⟨1⟩
  have hlength := Worklist.eq_of_ends hvisits.ends hfive hsix
  have hlength' := Worklist.eq_of_ends hvisits'.ends hthree hfour
  have hcount := Worklist.eq_of_ends hids.ends hfour' hfive'
  exact ⟨a, below, below', visits, visits', order, ids, hk, hlive, hvisits,
    hvisits.length_eq.trans hlength, horder, horder.length_eq.trans hsize, hvisits',
    hvisits'.length_eq.trans hlength', hids, hcount⟩

end Server

end LiveQuery
