import LiveQuery.Proofs.Commuting
import LiveQuery.Proofs.Followers
import LiveQuery.Proofs.Locality

/-!
# Disposal

A removal walks down a branch with a list of the visits to come, in a tree that gets smaller
meanwhile. What it publishes is what a recursion over the tree as it was before would: a node says that
it is going away, its children go one after the other, and its parent's hub tells that it was removed.
-/

namespace LiveQuery

namespace Tree

/-- The removal of a node, after some visits. -/
def walk (t : Tree) (id : NodeId) (visits : Nat) : Worklist Visit Tree Publication :=
  Worklist.run visit visits ⟨[.enter id], t, #[]⟩

/-- What `E` says for a node is what its removal should publish, by recursion on its children. -/
def Recites (t : Tree) (E : NodeId → List Publication) : Prop :=
  ∀ x n, t.node? x = some n → E x = ⟨n.hub, .deleted⟩ :: n.children.flatMap E ++ t.removal x

section

variable {root : TypeDef} {t t' : Tree} {id y : NodeId} {n m : Node} {b c : Branch} {hub : HubId}
  {E : NodeId → List Publication} {e : Publication} {before after : List Publication}

/-! ### The recursion -/

lemma farewellAll_eq (t : Tree) (bs : List Branch) : t.farewellAll bs = bs.flatMap t.farewell := by
  induction bs with
  | nil => rfl
  | cons b rest ih => rw [farewellAll, ih, List.flatMap_cons]

mutual

theorem Holds.eq (b c : Branch) (hb : t.Holds b) (hc : t.Holds c) (hid : b.id = c.id) : b = c := by
  match b, c with
  | ⟨id, children⟩, ⟨id', children'⟩ =>
    obtain rfl : id = id' := hid
    obtain @⟨_, _, n, hn, hchildren, -, hbelow⟩ := hb
    obtain @⟨_, _, n', hn', hchildren', -, hbelow'⟩ := hc
    obtain rfl : n = n' := Option.some.inj (hn.symm.trans hn')
    rw [Holds.eqAll children children' hbelow hbelow' (hchildren.symm.trans hchildren')]

theorem Holds.eqAll (bs cs : List Branch) (hbs : ∀ b ∈ bs, t.Holds b) (hcs : ∀ c ∈ cs, t.Holds c)
    (hids : bs.map Branch.id = cs.map Branch.id) : bs = cs := by
  match bs, cs with
  | [], [] => rfl
  | [], c :: later => simp at hids
  | b :: rest, [] => simp at hids
  | b :: rest, c :: later =>
    obtain ⟨hid, hids⟩ := List.cons.inj hids
    obtain ⟨hb, hrest⟩ := List.forall_mem_cons.mp hbs
    obtain ⟨hc, hlater⟩ := List.forall_mem_cons.mp hcs
    rw [Holds.eq b c hb hc hid, Holds.eqAll rest later hrest hlater hids]

end

lemma Holds.live (hb : t.Holds b) : ∃ n, t.node? b.id = some n := by
  obtain ⟨hn, -⟩ := hb
  exact ⟨_, hn⟩

lemma WellFormed.carries (h : t.WellFormed root) (hb : t.Holds b) : t.Carries b := by
  obtain ⟨n, hn⟩ := hb.live
  obtain ⟨c, hid, hc⟩ := h.exists_branch hn
  rwa [Holds.eq b c hb hc.holds hid.symm]

lemma WellFormed.published_dismantle (h : t.WellFormed root) (hb : t.Holds b) :
    (t.dismantle b.id).published = t.farewell b := by
  obtain ⟨n, hn⟩ := hb.live
  obtain ⟨c, hid, hc, -, hpublished⟩ := h.dismantle_farewell hn
  rw [hpublished, Holds.eq b c hb hc.holds hid.symm]

lemma farewell_mk {children : List Branch} (hn : t.node? id = some n) :
    t.farewell ⟨id, children⟩ =
      ⟨n.hub, .deleted⟩ :: children.flatMap t.farewell ++ t.removal id := by
  simp [farewell, parting, hn, farewellAll_eq]

theorem WellFormed.recites (h : t.WellFormed root) :
    t.Recites fun x => (t.dismantle x).published := by
  intro x n hn
  obtain ⟨b, rfl, hb⟩ := h.exists_branch hn
  obtain ⟨hm, hchildren, -, hbelow⟩ := hb.holds
  obtain rfl := Option.some.inj (hn.symm.trans hm)
  have hrest := List.flatMap_congr fun c hc => (h.published_dismantle (hbelow c hc)).symm
  dsimp only
  rw [h.published_dismantle hb.holds, farewell_mk hm, hrest, hchildren, List.flatMap_map]
  rfl

lemma Recites.farewell (hE : t.Recites E) (hb : t.Holds b) : t.farewell b = E b.id := by
  induction b using Branch.induct with
  | mk id children ih =>
    obtain @⟨_, _, n, hn, hchildren, -, hbelow⟩ := hb
    have hrest := List.flatMap_congr fun c hc => ih c hc (hbelow c hc)
    rw [farewell_mk hn, hrest, Branch.id, hE id n hn, hchildren, List.flatMap_map]

lemma Recites.published (hE : t.Recites E) (h : t.WellFormed root) (hn : t.node? id = some n) :
    (t.dismantle id).published = E id := by
  obtain ⟨b, rfl, hb⟩ := h.exists_branch hn
  rw [h.published_dismantle hb.holds, hE.farewell hb.holds]

lemma Recites.congr (hE : t.Recites E) (hnodes : t'.nodes = t.nodes) : t'.Recites E := by
  intro x n hn
  rw [node?_congr hnodes] at hn
  rw [hE x n hn, removal, removal, node?_congr hnodes]
  simp only [node?_congr hnodes]

/-! ### The order of events -/

lemma WellFormed.eventsOn_carried (h : t.WellFormed root) (hown : t.Owns hub) (hb : t.Carries b) :
    eventsOn hub (t.farewell b) =
      if hub.node ∈ b.ids then .deleted :: (t.family hub).map .childRemoved
      else if t.parentOf b.id = some hub.node then (t.records [b.id]).map .childRemoved
      else [] :=
  h.eventsOn_farewell b hown hb.holds hb.nodup fun _ hq hmem =>
    h.not_below_child hq ((hb.mem_ids _).mp hmem)

lemma owns_of_mem_farewell (h : t.WellFormed root) (he : e ∈ t.farewell b) : t.Owns e.hub := by
  obtain ⟨x, k, hk, rfl⟩ | ⟨x, k, p, m, -, -, hm, rfl⟩ := mem_farewell he
  · exact owns_hub h hk
  · exact owns_hub h hm

lemma mem_eventsOn {ps : List Publication} (he : e ∈ ps) : e.event ∈ eventsOn e.hub ps :=
  List.mem_filterMap.mpr ⟨e, he, if_pos rfl⟩

lemma WellFormed.farewell_split (h : t.WellFormed root) (hb : t.Holds b) (hy : y ∈ b.ids) :
    ∃ c before after, c.id = y ∧ t.Carries c ∧
      t.farewell b = before ++ t.farewell c ++ after := by
  induction b using Branch.induct with
  | mk id children ih =>
    obtain rfl | hy := List.mem_cons.mp hy
    · exact ⟨_, [], [], rfl, h.carries hb, by simp⟩
    · obtain @⟨_, _, n, hn, hchildren, -, hbelow⟩ := hb
      obtain ⟨d, hd, hy⟩ := Branch.mem_idsAll.mp hy
      obtain ⟨c, before, after, hid, hc, hsplit⟩ := ih d hd (hbelow d hd) hy
      obtain ⟨first, last, rfl⟩ := List.append_of_mem hd
      refine ⟨c, ⟨n.hub, .deleted⟩ :: first.flatMap t.farewell ++ before,
        after ++ last.flatMap t.farewell ++ t.removal id, hid, hc, ?_⟩
      simp [farewell_mk hn, hsplit]

lemma WellFormed.apart (h : t.WellFormed root) (hb : t.Carries b) (hc : t.Carries c)
    (hmem : c.id ∈ b.ids) (hsplit : t.farewell b = before ++ t.farewell c ++ after) :
    ∀ e ∈ before ++ after, ¬ t.Below c.id e.hub.node := by
  intro e he hbelow
  have hin : e ∈ t.farewell b := by
    rw [hsplit]
    simp only [List.mem_append] at he ⊢
    tauto
  have hown := owns_of_mem_farewell h hin
  have hinc : e.hub.node ∈ c.ids := (hc.mem_ids _).mpr hbelow
  have hinb : e.hub.node ∈ b.ids := (hb.mem_ids _).mpr (((hb.mem_ids _).mp hmem).trans hbelow)
  have hevents := congrArg (eventsOn e.hub) hsplit
  rw [eventsOn_append, eventsOn_append, h.eventsOn_carried hown hb, h.eventsOn_carried hown hc,
    if_pos hinb, if_pos hinc] at hevents
  have hlength := congrArg List.length hevents
  simp only [List.length_append] at hlength
  have hnone : eventsOn e.hub (before ++ after) = [] := by
    rw [eventsOn_append, ← List.length_eq_zero_iff, List.length_append]
    omega
  have hevent := mem_eventsOn he
  rw [hnone] at hevent
  cases hevent

lemma nodup_of_eventsOn {ps : List Publication} (h : ∀ e ∈ ps, (eventsOn e.hub ps).Nodup) :
    ps.Nodup := by
  induction ps with
  | nil => exact .nil
  | cons e rest ih =>
    have hsplit : ∀ hub, eventsOn hub (e :: rest) = eventsOn hub [e] ++ eventsOn hub rest :=
      fun hub => eventsOn_append hub [e] rest
    refine List.nodup_cons.mpr ⟨fun hmem => ?_, ih fun d hd => ?_⟩
    · have hfirst := h e List.mem_cons_self
      rw [hsplit, eventsOn_singleton, if_pos rfl] at hfirst
      exact (List.nodup_cons.mp hfirst).1 (mem_eventsOn hmem)
    · have hlater := h d (List.mem_cons_of_mem _ hd)
      rw [hsplit] at hlater
      exact (List.nodup_append.mp hlater).2.1

lemma WellFormed.nodup_farewell (h : t.WellFormed root) (hb : t.Carries b) :
    (t.farewell b).Nodup := by
  refine nodup_of_eventsOn fun e he => ?_
  have hown := owns_of_mem_farewell h he
  have hfamily : ((t.family e.hub).map Event.childRemoved).Nodup :=
    (h.nodup_family e.hub).map fun _ _ => Event.childRemoved.inj
  rw [h.eventsOn_carried hown hb]
  split
  · exact List.nodup_cons.mpr ⟨by simp, hfamily⟩
  · split
    · obtain ⟨n, hn⟩ := hb.holds.live
      simp [records_singleton hn]
    · exact .nil

/-- What is said on the hubs of a node and of those below it stands together: that the node is going
away, what comes of those below, and that it was removed. -/
lemma WellFormed.farewell_cut (h : t.WellFormed root) (hb : t.Carries b) (hy : y ∈ b.ids)
    (hn : t.node? y = some n) : ∃ before below after,
      t.farewell b = before ++ (⟨n.hub, .deleted⟩ :: below ++ t.removal y) ++ after ∧
      ∀ e ∈ before ++ after, ¬ t.Below y e.hub.node := by
  obtain ⟨⟨x, children⟩, before, after, hid, hc, hsplit⟩ := h.farewell_split hb.holds hy
  obtain rfl : x = y := hid
  refine ⟨before, children.flatMap t.farewell, after, ?_, h.apart hb hc hy hsplit⟩
  rw [hsplit, farewell_mk hn]

lemma WellFormed.deleted_first (h : t.WellFormed root) (hb : t.Carries b) (hy : y ∈ b.ids)
    (hn : t.node? y = some n) : ∃ before after,
      t.farewell b = before ++ ⟨n.hub, .deleted⟩ :: after ∧
      ∀ e ∈ before, ¬ t.Below y e.hub.node := by
  obtain ⟨before, below, after, hcut, hapart⟩ := h.farewell_cut hb hy hn
  exact ⟨before, below ++ t.removal y ++ after, by simp [hcut],
    fun e he => hapart e (List.mem_append_left _ he)⟩

/-- The parent's hub tells that a node was removed after all that is said on the hub of the node and on
those below, and after the parent has said that it is going away, if it does. -/
lemma WellFormed.removed_last (h : t.WellFormed root) (hb : t.Carries b) (hy : y ∈ b.ids)
    {p : NodeId} (hn : t.node? y = some n) (hp : n.parent = some p) (hm : t.node? p = some m) :
    ∃ before after, t.farewell b = before ++ ⟨m.hub, .childRemoved n.asChild⟩ :: after ∧
      (∀ e ∈ after, ¬ t.Below y e.hub.node) ∧ (p ∈ b.ids → ⟨m.hub, .deleted⟩ ∈ before) := by
  obtain ⟨before, below, after, hcut, hapart⟩ := h.farewell_cut hb hy hn
  have hremoval : t.removal y = [⟨m.hub, .childRemoved n.asChild⟩] := by simp [removal, hn, hp, hm]
  have hcut : t.farewell b = (before ++ ⟨n.hub, .deleted⟩ :: below) ++
      ⟨m.hub, .childRemoved n.asChild⟩ :: after := by simp [hcut, hremoval]
  refine ⟨_, after, hcut, fun e he => hapart e (List.mem_append_right _ he), fun hmem => ?_⟩
  obtain ⟨first, rest, hfirst, hnone⟩ := h.deleted_first hb hmem hm
  rw [hcut] at hfirst
  obtain ⟨later, rfl, hlater⟩ | ⟨later, hbefore, hlater⟩ := List.append_eq_append_iff.mp hfirst
  · -- the removal would be told before the parent has said anything
    obtain ⟨-, heq⟩ | ⟨later, rfl, -⟩ := List.cons_eq_append_iff.mp hlater
    · cases heq
    · refine absurd ?_ (hnone ⟨m.hub, .childRemoved n.asChild⟩ (by simp))
      rw [(h.hub hm).1]
      exact .refl
  · obtain ⟨-, heq⟩ | ⟨later, rfl, -⟩ := List.cons_eq_append_iff.mp hlater
    · cases heq
    · simp [hbefore]

lemma WellFormed.told_before (h : t.WellFormed root) (hb : t.Carries b) (hy : y ∈ b.ids)
    {x p q : NodeId} {l k : Node} (hn : t.node? y = some n) (hp : n.parent = some p)
    (hm : t.node? p = some m) (hl : t.node? x = some l) (hq : l.parent = some q)
    (hk : t.node? q = some k) (hbelow : t.Below y q)
    (hcut : t.farewell b = before ++ ⟨m.hub, .childRemoved n.asChild⟩ :: after)
    (hlast : ∀ e ∈ after, ¬ t.Below y e.hub.node) : ⟨k.hub, .childRemoved l.asChild⟩ ∈ before := by
  have hx : x ∈ b.ids := by
    have hstep : t.Below y x := .step ((parentOf_eq hl).trans hq) hbelow
    exact (hb.mem_ids x).mpr (((hb.mem_ids y).mp hy).trans hstep)
  obtain ⟨first, later, hcut', -⟩ := h.removed_last hb hx hl hq hk
  have htold : ⟨k.hub, .childRemoved l.asChild⟩ ∈
      before ++ ⟨m.hub, .childRemoved n.asChild⟩ :: after := by
    rw [← hcut, hcut']
    simp
  have hnode : k.hub.node = q := (h.hub hk).1
  obtain hbefore | hrest := List.mem_append.mp htold
  · exact hbefore
  · obtain heq | hafter := List.mem_cons.mp hrest
    · have hpq : p = q := by
        rw [← hnode, ← (h.hub hm).1, (Publication.mk.inj heq).1]
      exact absurd (hpq ▸ hbelow) (h.not_below_child ((parentOf_eq hn).trans hp))
    · exact absurd (hnode.symm ▸ hbelow) (hlast _ hafter)

/-! ### The walk -/

lemma live_of_detach {x : NodeId} (hx : (t.detach id).1.node? x = some n) :
    x ≠ id ∧ ∃ m, t.node? x = some m ∧ n.id = m.id := by
  have hne : x ≠ id := by
    rintro rfl
    rw [detach_tree] at hx
    cases hp : t.parentOf x <;> simp [hp, node?_unlink, node?_drop] at hx
  refine ⟨hne, ?_⟩
  rw [detach_tree] at hx
  cases hp : t.parentOf id with
  | none =>
    simp only [hp, node?_drop, if_neg hne] at hx
    exact ⟨n, hx, rfl⟩
  | some p =>
    simp only [hp, node?_unlink, node?_drop, if_neg hne] at hx
    split at hx
    · obtain ⟨m, hm, rfl⟩ := Option.map_eq_some_iff.mp hx
      exact ⟨m, hm, rfl⟩
    · exact ⟨n, hx, rfl⟩

/-- In the middle of a walk, what was told as removed is not in the tree any more. -/
structure Vacated (w : Worklist Visit Tree Publication) : Prop where
  id_eq : ∀ x n, w.state.node? x = some n → n.id = x
  absent : ∀ e ∈ w.output, ∀ d, e.event = .childRemoved d → w.state.node? d.id = none

lemma Vacated.step {w : Worklist Visit Tree Publication} (h : Vacated w) :
    Vacated (w.step visit) := by
  obtain ⟨pending, t, output⟩ := w
  match pending with
  | [] => exact h
  | .enter x :: rest =>
    cases hx : t.node? x with
    | none =>
      have hstep : Worklist.step visit ⟨.enter x :: rest, t, output⟩ = ⟨rest, t, output⟩ := by
        simp [Worklist.step_cons, visit, hx]
      rw [hstep]
      exact ⟨h.id_eq, h.absent⟩
    | some n =>
      rw [step_enter hx]
      refine ⟨h.id_eq, fun e he d hd => ?_⟩
      obtain he | rfl := Array.mem_push.mp he
      · exact h.absent e he d hd
      · cases hd
  | .leave x :: rest =>
    rw [step_leave]
    refine ⟨fun y n hn => ?_, fun e he d hd => ?_⟩
    · obtain ⟨-, m, hm, hid⟩ := live_of_detach hn
      rw [hid, h.id_eq y m hm]
    · by_contra hlive
      obtain ⟨n, hn⟩ := Option.ne_none_iff_exists'.mp hlive
      obtain ⟨hne, m, hm, -⟩ := live_of_detach hn
      rw [← Array.mem_toList_iff, Array.toList_appendList, List.mem_append] at he
      obtain he | he := he
      · simp [h.absent e (Array.mem_toList_iff.mp he) d hd] at hm
      · rw [detach_snd] at he
        simp only [Option.mem_toList, Option.bind_eq_some_iff, Option.map_eq_some_iff] at he
        obtain ⟨k, hk, p, -, q, -, rfl⟩ := he
        cases hd
        exact hne (h.id_eq x k hk)

lemma Vacated.run {w : Worklist Visit Tree Publication} (h : Vacated w) (i : Nat) :
    Vacated (Worklist.run visit i w) := by
  induction i generalizing w with
  | zero => exact h
  | succ i ih =>
    rw [Worklist.run_succ]
    exact ih h.step

lemma output_run (w : Worklist Visit Tree Publication) (i : Nat) :
    w.output.toList <+: (Worklist.run visit i w).output.toList := by
  induction i generalizing w with
  | zero => exact List.prefix_refl _
  | succ i ih =>
    rw [Worklist.run_succ]
    refine List.IsPrefix.trans ?_ (ih _)
    obtain ⟨pending, t, output⟩ := w
    cases pending with
    | nil => exact List.prefix_refl _
    | cons item rest => simp [Worklist.step_cons]

lemma WellFormed.finished_dismantle (h : t.WellFormed root) (hn : t.node? id = some n) :
    (t.walk id (2 * t.size)).pending = [] := by
  obtain ⟨b, rfl, hb⟩ := h.exists_branch hn
  have htakes := h.takes_visit_branch b hb.holds hb.nodup [] #[]
  rw [walk, htakes.run_eq rfl (hb.length_rounds_le hn)]

lemma WellFormed.output_walk (h : t.WellFormed root) (hn : t.node? id = some n) (visits : Nat) :
    (t.walk id visits).output.toList <+: (t.dismantle id).published := by
  have hrest := output_run (t.walk id visits) (2 * t.size)
  have hfinished := h.finished_dismantle hn
  rw [walk] at hfinished
  rw [walk, ← Worklist.run_add, Nat.add_comm, Worklist.run_add,
    Worklist.run_of_finished visit _ hfinished] at hrest
  exact hrest

lemma mem_of_prefix {ps : List Publication} (hbegun : ps <+: before ++ e :: after) (he : e ∈ ps)
    (hnodup : (before ++ e :: after).Nodup) {d : Publication} (hd : d ∈ before) : d ∈ ps := by
  obtain ⟨rest, hrest⟩ := hbegun
  obtain ⟨later, rfl, -⟩ | ⟨later, rfl, -⟩ := List.append_eq_append_iff.mp hrest
  · exact absurd rfl ((List.nodup_append.mp hnodup).2.2 e (List.mem_append_left _ he) e
      List.mem_cons_self)
  · exact List.mem_append_left _ hd

lemma mem_removal_of_mem_farewell {d : Child} (he : e ∈ t.farewell b)
    (hd : e.event = .childRemoved d) : ∃ x ∈ b.ids, e ∈ t.removal x := by
  induction b using Branch.induct with
  | mk id children ih =>
    rw [farewell, List.mem_append, List.mem_append, farewellAll_eq] at he
    obtain (he | he) | he := he
    · obtain ⟨n, -, rfl⟩ := mem_parting he
      cases hd
    · obtain ⟨c, hc, he⟩ := List.mem_flatMap.mp he
      obtain ⟨x, hx, hremoval⟩ := ih c hc he
      exact ⟨x, List.mem_cons_of_mem _ (Branch.mem_idsAll.mpr ⟨c, hc, hx⟩), hremoval⟩
    · exact ⟨id, List.mem_cons_self, he⟩

/-- When a node's removal is told, the node and all that were below it are gone. -/
theorem WellFormed.gone_of_removed (h : t.WellFormed root) (hn : t.node? id = some n)
    (visits : Nat) {d : Child} (he : e ∈ (t.walk id visits).output) (hd : e.event = .childRemoved d)
    {x : NodeId} (hx : t.Below d.id x) : (t.walk id visits).state.node? x = none := by
  have hvacated : Vacated (t.walk id visits) := Vacated.run ⟨fun _ _ => h.id_eq, by simp⟩ visits
  have hbegun := h.output_walk hn visits
  obtain ⟨b, rfl, hb⟩ := h.exists_branch hn
  rw [h.published_dismantle hb.holds] at hbegun
  have hmem := hbegun.subset (Array.mem_toList_iff.mpr he)
  obtain ⟨y, hy, hremoval⟩ := mem_removal_of_mem_farewell hmem hd
  obtain ⟨k, p, m, hk, hp, hm, rfl⟩ := mem_removal hremoval
  cases hd
  obtain rfl : k.id = y := h.id_eq hk
  cases hx with
  | refl => exact hvacated.absent _ he _ rfl
  | @step q x hq hbelow =>
    obtain ⟨l, hl, hlq⟩ := live_of_parentOf hq
    obtain ⟨r, hr, -⟩ := h.parent_live hl hlq
    obtain ⟨before, after, hcut, hlast, -⟩ := h.removed_last hb hy hk hp hm
    have hearlier := h.told_before hb hy hk hp hm hl hlq hr hbelow hcut hlast
    rw [hcut] at hbegun
    have hout := mem_of_prefix hbegun (Array.mem_toList_iff.mpr he)
      (hcut ▸ h.nodup_farewell hb) hearlier
    rw [← h.id_eq hl]
    exact hvacated.absent _ (Array.mem_toList_iff.mp hout) _ rfl

/-- What the removal of a node publishes, in the order of the recursion. -/
structure Departure (t : Tree) (id : NodeId) (ps : List Publication) : Prop where
  recited : (∃ E, t.Recites E) ∧ ∀ E, t.Recites E → ps = E id
  once : ps.Nodup
  /-- A node says that it is going away before anything is said on its hub or on those below. -/
  deleted_first : ∀ x n, t.Below id x → t.node? x = some n → ∃ before after,
    ps = before ++ ⟨n.hub, .deleted⟩ :: after ∧ ∀ e ∈ before, ¬ t.Below x e.hub.node
  /-- A parent tells of a child that was removed after it has said that it is going away itself, and
  when nothing will be said any more on the child's hub or on those below. -/
  removed_last : ∀ x n p m, t.Below id x → t.node? x = some n → n.parent = some p →
    t.node? p = some m → ∃ before after,
      ps = before ++ ⟨m.hub, .childRemoved n.asChild⟩ :: after ∧
      (∀ e ∈ after, ¬ t.Below x e.hub.node) ∧ (t.Below id p → ⟨m.hub, .deleted⟩ ∈ before)
  /-- The events are published in the course of the walk, and when a child is told as removed, it is
  not in the tree any more, nor is any node that was below it. -/
  walked : ∀ visits, (t.walk id visits).output.toList <+: ps ∧
    ∀ e ∈ (t.walk id visits).output, ∀ d, e.event = .childRemoved d → ∀ x, t.Below d.id x →
      (t.walk id visits).state.node? x = none

theorem WellFormed.departure (h : t.WellFormed root) (hn : t.node? id = some n) :
    t.Departure id (t.dismantle id).published := by
  have hrecited := fun E (hE : t.Recites E) => hE.published h hn
  have hwalked := fun visits => And.intro (h.output_walk hn visits)
    fun e he d hd x hx => h.gone_of_removed hn visits (e := e) (d := d) (x := x) he hd hx
  obtain ⟨b, rfl, hb⟩ := h.exists_branch hn
  rw [h.published_dismantle hb.holds] at hrecited hwalked ⊢
  refine ⟨⟨⟨_, h.recites⟩, hrecited⟩, h.nodup_farewell hb, ?_, ?_, hwalked⟩
  · intro x k hx hk
    exact h.deleted_first hb ((hb.mem_ids x).mpr hx) hk
  · intro x k p m hx hk hp hm
    obtain ⟨before, after, hcut, hlast, hparent⟩ :=
      h.removed_last hb ((hb.mem_ids x).mpr hx) hk hp hm
    exact ⟨before, after, hcut, hlast, fun hpb => hparent ((hb.mem_ids p).mpr hpb)⟩

lemma WellFormed.published_congr (h : t.WellFormed root) (h' : t'.WellFormed root)
    (hnodes : t'.nodes = t.nodes) (hn : t.node? id = some n) :
    (t'.dismantle id).published = (t.dismantle id).published :=
  (h.recites.congr hnodes).published h' ((node?_congr hnodes id).trans hn)

end

end Tree

/-- The observers who are registered on a hub when something is published there are told of it, and
they are those who were registered on it at first. -/
def Switchboard.Tells (b : Switchboard) (ps : List Publication) (told : List Notice) : Prop :=
  told = (ps.flatMap fun e => b.alerts e.hub e.event) ∧ ∀ before e after,
    ps = before ++ e :: after → (b.deliverAll before).2.alerts e.hub e.event = b.alerts e.hub e.event

lemma Switchboard.tells_removals {ps : List Publication} (b : Switchboard)
    (h : ∀ e ∈ ps, ∀ c, e.event ≠ .childAdded c) : b.Tells ps (b.deliverAll ps).1 := by
  refine ⟨deliverAll_removals h, ?_⟩
  rintro before e after rfl
  refine alerts_congr (hub_deliverAll (fun e he => h e (List.mem_append_left _ he)) b e.hub) e.event

namespace Server

/-- Each way to take nodes out of the tree of session `a`, the `k`-th one, publishes what it should
and tells it to those who are there to hear it. -/
structure Disposes (s : Server) (k : Nat) (a : Session) : Prop where
  remove : ∀ id n, a.tree.node? id = some n → id ≠ .root →
    (s.step k (.remove id)).reply = .removed ∧
    a.tree.Departure id (s.publishes k k (.remove id)) ∧
    a.switchboard.Tells (s.publishes k k (.remove id)) (s.step k (.remove id)).notices
  teardown : a.tree.Departure .root (s.publishes k k .teardown) ∧
    a.switchboard.Tells (s.publishes k k .teardown) (s.step k .teardown).notices
  /-- The next change of a batch is a deletion. -/
  delete : ∀ (batch : Batch) (i : Nat) (id : NodeId), batch.changes[i]? = some (.delete id) →
    ∃ (b : Session) (ps : List Publication) (told : List Notice),
      (s.step k ((Command.apply batch).cut i)).server.sessions[k]? = some b ∧
      s.publishes k k ((Command.apply batch).cut (i + 1)) =
        s.publishes k k ((Command.apply batch).cut i) ++ ps ∧
      (s.step k ((Command.apply batch).cut (i + 1))).notices =
        (s.step k ((Command.apply batch).cut i)).notices ++ told ∧
      ∀ n, b.tree.node? id = some n → id ≠ .root →
        b.tree.Departure id ps ∧ b.switchboard.Tells ps told

section

variable {root : TypeDef} {s : Server} {k : Nat} {a : Session}

lemma Sound.disposes (hs : s.Sound root) (hk : s.sessions[k]? = some a) (hlive : a.tree.isLive) :
    s.Disposes k a where
  remove id n hn hroot := by
    have hw := hs.wellFormed k a hk
    have hpublishes : s.publishes k k (.remove id) = (a.tree.dismantle id).published :=
      publishes_of_live hk hlive (by rw [Command.effect?, Tree.remove_eq hn hroot])
    rw [notices_eq hk, hpublishes]
    exact ⟨(step_remove_ok hk hlive hn hroot).1, hw.departure hn,
      a.switchboard.tells_removals (Tree.removals_dismantle a.tree id)⟩
  teardown := by
    have hw := hs.wellFormed k a hk
    obtain ⟨r, hr⟩ := Tree.isLive_iff.mp hlive
    have hpublishes : s.publishes k k .teardown = (a.tree.dismantle .root).published :=
      publishes_of_live hk hlive rfl
    rw [notices_eq hk, hpublishes]
    exact ⟨hw.departure hr, a.switchboard.tells_removals (Tree.removals_dismantle a.tree .root)⟩
  delete batch i id hc := by
    obtain ⟨b, t, hb, ht, htree, hpublishes, hnotices⟩ := hs.cut_succ hk hlive batch hc
    refine ⟨b, _, _, hb, hpublishes, hnotices, fun n hn hroot => ?_⟩
    have hw := (hs.step k ((Command.apply batch).cut i)).wellFormed k b hb
    have hnodes : t.nodes = b.tree.nodes := by rw [htree]
    have hlives : t.node? id = some n := (Tree.node?_congr hnodes id).trans hn
    rw [Tree.change_delete_eq hlives hroot, hw.published_congr ht hnodes hn]
    exact ⟨hw.departure hn, b.switchboard.tells_removals (Tree.removals_dismantle b.tree id)⟩

end

/-- However nodes leave the tree of a live session, the events are those of the recursion. -/
theorem disposal_recursive (setting : Setting) (root : TypeDef) (count : Nat)
    (cs : List (Nat × Command)) (k : Nat) (a : Session)
    (hk : ((start setting root count).run cs).sessions[k]? = some a) (hlive : a.tree.isLive) :
    ((start setting root count).run cs).Disposes k a :=
  (sound_run setting root count cs).disposes hk hlive

theorem disposal_recursive_descent : ∃ (a b : Session) (n m : Node) (ps : List Publication)
    (told : List Notice),
    ((start Sample.setting Sample.person 1).run Sample.descent).sessions[0]? = some a ∧
    a.tree.isLive ∧
    ((start Sample.setting Sample.person 1).run Sample.descent).Disposes 0 a ∧
    a.tree.node? ⟨1⟩ = some n ∧
    a.tree.Departure ⟨1⟩
      (((start Sample.setting Sample.person 1).run Sample.descent).publishes 0 0 (.remove ⟨1⟩)) ∧
    (((start Sample.setting Sample.person 1).run Sample.descent).publishes 0 0
      (.remove ⟨1⟩)).map (·.hub.node) = [⟨1⟩, ⟨2⟩, ⟨3⟩, ⟨2⟩, ⟨1⟩, .root] ∧
    (((start Sample.setting Sample.person 1).run Sample.descent).publishes 0 0
      .teardown).map (·.hub.node) =
        [.root, ⟨1⟩, ⟨2⟩, ⟨3⟩, ⟨2⟩, ⟨1⟩, .root, ⟨4⟩, .root] ∧
    (((start Sample.setting Sample.person 1).run Sample.descent).step 0
      ((Command.apply (.deletions [⟨4⟩, ⟨2⟩])).cut 1)).server.sessions[0]? = some b ∧
    b.tree.node? ⟨2⟩ = some m ∧ b.tree.Departure ⟨2⟩ ps ∧ b.switchboard.Tells ps told ∧
    ps.map (·.hub.node) = [⟨2⟩, ⟨3⟩, ⟨2⟩, ⟨1⟩] := by
  have hstart : (((start Sample.setting Sample.person 1).run Sample.descent).sessions[0]?).map
      (fun a => (a.tree.isLive, (a.tree.node? ⟨1⟩).isSome)) = some (true, true) := by cbv
  obtain ⟨a, hk, hlive⟩ := Option.map_eq_some_iff.mp hstart
  obtain ⟨hlive, hn⟩ := Prod.mk.inj hlive
  obtain ⟨n, hn⟩ := Option.isSome_iff_exists.mp hn
  have hdisposes := disposal_recursive Sample.setting Sample.person 1 Sample.descent 0 a hk hlive
  obtain ⟨-, hdeparture, -⟩ := hdisposes.remove ⟨1⟩ n hn (by decide)
  obtain ⟨b, ps, told, hb, hps, -, hdelete⟩ := hdisposes.delete (.deletions [⟨4⟩, ⟨2⟩]) 1 ⟨2⟩ rfl
  have hbegun : ((((start Sample.setting Sample.person 1).run Sample.descent).step 0
      ((Command.apply (.deletions [⟨4⟩, ⟨2⟩])).cut 1)).server.sessions[0]?).map
        (fun b => (b.tree.node? ⟨2⟩).isSome) = some true := by cbv
  rw [hb] at hbegun
  obtain ⟨m, hm⟩ := Option.isSome_iff_exists.mp (Option.some.inj hbegun)
  obtain ⟨hlater, htells⟩ := hdelete m hm (by decide)
  have hnodes := congrArg (List.map (·.hub.node)) hps
  have hall : (((start Sample.setting Sample.person 1).run Sample.descent).publishes 0 0
      ((Command.apply (.deletions [⟨4⟩, ⟨2⟩])).cut 2)).map (·.hub.node) =
        [⟨4⟩, .root] ++ [⟨2⟩, ⟨3⟩, ⟨2⟩, ⟨1⟩] := by cbv
  have hfirst : (((start Sample.setting Sample.person 1).run Sample.descent).publishes 0 0
      ((Command.apply (.deletions [⟨4⟩, ⟨2⟩])).cut 1)).map (·.hub.node) = [⟨4⟩, .root] := by cbv
  rw [hall, List.map_append, hfirst, List.append_cancel_left_eq] at hnodes
  exact ⟨a, b, n, m, ps, told, hk, hlive, hdisposes, hn, hdeparture, by cbv, by cbv, hb, hm, hlater,
    htells, hnodes.symm⟩

end Server

end LiveQuery
