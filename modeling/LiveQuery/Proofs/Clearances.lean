import LiveQuery.Proofs.Disposal
import LiveQuery.Proofs.ReferenceCounts

/-!
# What a removal leaves

A removal takes a node out with all that is below it, and nothing else changes: the parent has one
child less, the other nodes and their observers are as they were, and each binding has lost as many
references as arguments that were bound to it have gone.
-/

namespace LiveQuery

namespace Tree

/-- The arguments of the nodes of `t` that are not in `t'` any more. -/
def lost (t t' : Tree) : List (NodeId × String × Reference) :=
  t.entries.filter fun e => !t'.contains e.1

/-- The bindings nobody refers to are swept away. -/
def swept (t : Tree) : Tree := { t with bindings := t.bindings.sweep.2 }

/-- The middle of a batch: the assignments and the first `i` changes are made, and nothing is swept
away yet. -/
def amid (s : Setting) (batch : Batch) (i : Nat) (t : Tree) : Transition (List Report) :=
  changeAll s 0 (batch.changes.take i)
    { t with bindings := t.bindings.putAll batch.assignments }

/-- From `t` to `t'` a node went with all that was below it. -/
structure Clears (t : Tree) (id : NodeId) (t' : Tree) : Prop where
  contains_iff : ∀ x, t'.contains x ↔ t.contains x ∧ ¬ t.Below id x
  /-- The parent has lost one child, and everything else is as it was. -/
  kept : ∀ x n, t.node? x = some n → ¬ t.Below id x → t'.node? x =
    some (if t.parentOf id = some x then { n with children := n.children.erase id } else n)
  /-- The same variables are bound. -/
  count : ∀ v, t.bindings.count? v =
    (t'.bindings.count? v).map (· + (t.lost t').countP (·.2.2.variableId = v))
  /-- What was lost belonged to the nodes that went. -/
  mem_lost : ∀ e, e ∈ t.lost t' ↔ e ∈ t.entries ∧ t.Below id e.1
  values : t.bindings.SameValues t'.bindings
  nextHub_eq : t'.nextHub = t.nextHub

section

variable {root : TypeDef} {s : Setting} {t t' : Tree} {id x : NodeId} {n : Node}
  {gone : List NodeId} {out : List Reference} {e : NodeId × String × Reference}

lemma mem_entries : e ∈ t.entries ↔
    ∃ n, t.node? e.1 = some n ∧ n.arguments[e.2.1]? = some e.2.2 := by
  obtain ⟨x, name, r⟩ := e
  simp only [entries, List.mem_flatMap, List.mem_map, Prod.exists, Prod.mk.injEq,
    Std.ExtTreeMap.mem_toList_iff_getElem?_eq_some]
  constructor
  · rintro ⟨y, n, hn, name', r', hr, rfl, rfl, rfl⟩
    exact ⟨n, hn, hr⟩
  · rintro ⟨n, hn, hr⟩
    exact ⟨x, n, hn, name, r, hr, rfl, rfl, rfl⟩

lemma Without.entries_eq (h : t.Without gone t') :
    t'.entries = t.entries.filter fun e => t'.contains e.1 := by
  have hmap : t'.nodes.map (fun _ n => n.arguments) =
      (t.nodes.map fun _ n => n.arguments).filter fun x _ => t'.contains x := by
    apply Std.ExtTreeMap.ext_getElem?
    intro x
    rw [Std.ExtTreeMap.getElem?_filter', Std.ExtTreeMap.getElem?_map, Std.ExtTreeMap.getElem?_map]
    change (t'.node? x).map _ = ((t.node? x).map _).filter _
    rw [contains_eq_isSome, h x]
    by_cases hx : x ∈ gone <;> cases t.node? x <;> simp [hx, Option.filter]
  have hentries : ∀ u : Tree, u.entries = (u.nodes.map fun _ n => n.arguments).toList.flatMap
      fun e => e.2.toList.map fun a => (e.1, a.1, a.2) := by
    intro u
    rw [entries, Std.ExtTreeMap.toList_map, List.flatMap_map]
  rw [hentries, hentries, hmap, Std.ExtTreeMap.toList_filter]
  induction (t.nodes.map fun _ n => n.arguments).toList with
  | nil => rfl
  | cons e rest ih =>
    rw [List.flatMap_cons, List.filter_append, ← ih, List.filter_map, List.filter_cons]
    by_cases hx : t'.contains e.1 <;> simp [hx, Function.comp_def]

lemma Accounts.count_lost (ha : t.Accounts out) (ha' : t'.Accounts out)
    (hvalues : t.bindings.SameValues t'.bindings)
    (hentries : t'.entries = t.entries.filter fun e => t'.contains e.1) (v : VariableId) :
    t.bindings.count? v =
      (t'.bindings.count? v).map (· + (t.lost t').countP (·.2.2.variableId = v)) := by
  have hcount := ha.count v
  have hcount' := ha'.count v
  have hsplit := List.countP_eq_countP_filter_add t.entries (·.2.2.variableId = v)
    (fun e => t'.contains e.1)
  rw [List.countP_append, countP_held] at hcount hcount'
  rw [← hentries] at hsplit
  have hbound := hvalues v
  unfold Bindings.count? at hcount hcount' ⊢
  cases hb : t.bindings.get? v with
  | none =>
    rw [hb, Option.map_none, eq_comm, Option.map_eq_none_iff] at hbound
    rw [hbound]
    rfl
  | some x =>
    rw [hb, Option.map_some, eq_comm, Option.map_eq_some_iff] at hbound
    obtain ⟨y, hy, -⟩ := hbound
    rw [hb, Option.map_some, Option.getD_some] at hcount
    rw [hy, Option.map_some, Option.getD_some] at hcount'
    rw [hy, Option.map_some, Option.map_some, Option.map_some, hcount, hcount', hsplit, lost]
    congr 1
    omega

lemma WellFormed.filter_children (h : t.WellFormed root) (hgone : ∀ y, y ∈ gone ↔ t.Below id y)
    (hn : t.node? x = some n) (hx : ¬ t.Below id x) :
    n.children.filter (· ∉ gone) = n.children.erase id := by
  rw [(h.nodup hn).erase_eq_filter]
  refine List.filter_congr fun c hc => ?_
  have hparent : t.parentOf c = some x := h.mem_children_iff.mp (by rwa [childrenOf_eq hn])
  have hiff : c ∈ gone ↔ c = id := by
    rw [hgone]
    constructor
    · intro hbelow
      cases hbelow with
      | refl => rfl
      | step hp hbelow =>
        cases hp.symm.trans hparent
        exact absurd hbelow hx
    · rintro rfl
      exact .refl
  rw [Bool.eq_iff_iff]
  simp [hiff]

theorem WellFormed.clears_dismantle (h : t.WellFormed root) (ha : t.Accounts out)
    (hn : t.node? id = some n) : t.Clears id (t.dismantle id).tree := by
  obtain ⟨gone, hgone, hwithout⟩ := h.without_dismantle hn
  have hvalues := sameValues_dismantle t id
  have hcontains : ∀ x, (t.dismantle id).tree.contains x ↔ t.contains x ∧ ¬ t.Below id x := by
    intro x
    rw [(hwithout.survivors h).1 x, hgone]
  constructor
  case contains_iff => exact hcontains
  case kept =>
    intro x m hm hx
    rw [hwithout x, if_neg ((hgone x).not.mpr hx), hm, Option.map_some,
      h.filter_children hgone hm hx]
    split
    · rfl
    · next hnot =>
      rw [← h.mem_children_iff, childrenOf_eq hm] at hnot
      rw [List.erase_of_not_mem hnot]
  case count =>
    exact ha.count_lost ((h.evolves_dismantle id).accounts out ha) hvalues hwithout.entries_eq
  case mem_lost =>
    intro e
    rw [lost, List.mem_filter]
    refine and_congr_right fun he => ?_
    obtain ⟨m, hm, -⟩ := mem_entries.mp he
    have hlive : t.contains e.1 := by rw [contains_eq_isSome, hm, Option.isSome_some]
    simpa [hlive] using (hcontains e.1).not
  case values => exact hvalues
  case nextHub_eq => exact nextHub_dismantle t id

lemma held_eq_nil (h : ∀ x, t.node? x = none) : t.held = [] := by
  have hnone : t.entries = [] := by
    refine List.eq_nil_iff_forall_not_mem.mpr fun e he => ?_
    obtain ⟨n, hn, -⟩ := mem_entries.mp he
    rw [h] at hn
    cases hn
  rw [held, hnone, List.map_nil]

/-! ### In the middle of a batch -/

variable {batch : Batch} {i : Nat}

lemma WellFormed.evolves_amid (h : t.WellFormed root) (batch : Batch) (i : Nat) :
    Evolves root t (t.amid s batch i).published (t.amid s batch i).tree := by
  have hput := h.evolves_bindings fun _ hb => hb.putAll batch.assignments
  exact hput.trans (hput.wellFormed.evolves_changeAll (s := s) 0 (batch.changes.take i))

/-- The next change is a deletion that is made. -/
lemma amid_succ (hc : batch.changes[i]? = some (.delete id))
    (hn : (t.amid s batch i).tree.node? id = some n) (hroot : id ≠ .root) :
    (t.amid s batch (i + 1)).tree = ((t.amid s batch i).tree.dismantle id).tree ∧
      (t.amid s batch (i + 1)).published = (t.amid s batch i).published ++
        ((t.amid s batch i).tree.dismantle id).published := by
  have hchange := change_delete_eq (s := s) hn hroot
  obtain ⟨htree, hpublished⟩ := changeAll_append s 0 (batch.changes.take i) [.delete id]
    { t with bindings := t.bindings.putAll batch.assignments }
  rw [amid] at hchange
  rw [amid, amid, List.take_add_one, hc, Option.toList_some, htree, hpublished]
  simp only [changeAll, hchange, List.append_nil, and_self]

lemma WellFormed.clears_amid (h : t.WellFormed root) (ha : t.Accounts out)
    (hc : batch.changes[i]? = some (.delete id)) (hn : (t.amid s batch i).tree.node? id = some n)
    (hroot : id ≠ .root) :
    (t.amid s batch i).tree.Clears id (t.amid s batch (i + 1)).tree := by
  have he := h.evolves_amid (s := s) batch i
  rw [(amid_succ hc hn hroot).1]
  exact he.wellFormed.clears_dismantle (he.accounts out ha) hn

end

end Tree

/-- From `a` to `b` a node went with all that was below it, and no observer came or went. -/
structure Session.Clears (a : Session) (id : NodeId) (b : Session) : Prop where
  tree : a.tree.Clears id b.tree
  setting_eq : b.setting = a.setting
  hub_eq : ∀ hub, b.switchboard.hub hub = a.switchboard.hub hub

namespace Server

/-- What the removals from the tree of session `a`, the `k`-th one, leave. -/
structure Clears (s : Server) (k : Nat) (a : Session) : Prop where
  remove : ∀ id n, a.tree.node? id = some n → id ≠ .root → ∃ b : Session,
    (s.step k (.remove id)).reply = .removed ∧
    (s.step k (.remove id)).server = s.setSession k b ∧ a.Clears id b
  /-- Only references that were handed out are left. -/
  teardown : ∃ b : Session, (s.step k .teardown).reply = .done ∧
    (s.step k .teardown).server = s.setSession k b ∧ a.Clears .root b ∧
    (∀ x, b.tree.node? x = none) ∧
    ∀ v, (b.tree.bindings.count? v).getD 0 = (s.outstanding k).countP (·.variableId = v)
  /-- A batch that is cut leaves the tree in the middle of the whole batch, and sweeps it. -/
  batch : ∀ (batch : Batch) (i : Nat), ∃ b : Session,
    (s.step k ((Command.apply batch).cut i)).server = s.setSession k b ∧
    b.tree = (a.tree.amid a.setting batch i).tree.swept
  whole : ∀ batch : Batch, (Command.apply batch).cut batch.changes.length = .apply batch
  /-- The next change of a batch is a deletion. -/
  delete : ∀ (batch : Batch) (i : Nat) (id : NodeId) (n : Node),
    batch.changes[i]? = some (.delete id) →
    (a.tree.amid a.setting batch i).tree.node? id = some n → id ≠ .root →
    (a.tree.amid a.setting batch i).tree.Clears id (a.tree.amid a.setting batch (i + 1)).tree ∧
    ∀ b b' : Session, (s.step k ((Command.apply batch).cut i)).server.sessions[k]? = some b →
      (s.step k ((Command.apply batch).cut (i + 1))).server.sessions[k]? = some b' →
      ∀ hub, b'.switchboard.hub hub = b.switchboard.hub hub

section

variable {root : TypeDef} {s : Server} {k : Nat} {a : Session} {id : NodeId} {n : Node}

lemma step_teardown (hk : s.sessions[k]? = some a) (hlive : a.tree.isLive) :
    (s.step k .teardown).reply = .done ∧ (s.step k .teardown).server =
      s.setSession k (a.after (a.tree.dismantle .root).tree (a.tree.dismantle .root).published) := by
  rw [step, onTree, live?_eq_ok_iff.mpr ⟨hk, hlive⟩]
  exact ⟨rfl, rfl⟩

lemma step_cut (hk : s.sessions[k]? = some a) (hlive : a.tree.isLive) (batch : Batch) (i : Nat) :
    ∃ b : Session, (s.step k ((Command.apply batch).cut i)).server = s.setSession k b ∧
      b.tree = (a.tree.amid a.setting batch i).tree.swept ∧
      b.switchboard = (a.switchboard.deliverAll (a.tree.amid a.setting batch i).published).2 := by
  rw [Command.cut, step_apply hk hlive ⟨batch.assignments, batch.changes.take i⟩ rfl rfl]
  exact ⟨_, rfl, rfl, rfl⟩

lemma Sound.clears_after (hs : s.Sound root) (hk : s.sessions[k]? = some a)
    (hn : a.tree.node? id = some n) :
    a.Clears id (a.after (a.tree.dismantle id).tree (a.tree.dismantle id).published) where
  tree := (hs.wellFormed k a hk).clears_dismantle (hs.accounted k a hk) hn
  setting_eq := rfl
  hub_eq := Switchboard.hub_deliverAll (Tree.removals_dismantle a.tree id) a.switchboard

lemma Sound.clears (hs : s.Sound root) (hk : s.sessions[k]? = some a) (hlive : a.tree.isLive) :
    s.Clears k a where
  remove id n hn hroot := by
    obtain ⟨hreply, hserver⟩ := step_remove_ok hk hlive hn hroot
    exact ⟨_, hreply, hserver, hs.clears_after hk hn⟩
  teardown := by
    obtain ⟨r, hr⟩ := Tree.isLive_iff.mp hlive
    have hw := hs.wellFormed k a hk
    have hclears := hs.clears_after hk hr
    have hnone : ∀ x, (a.tree.dismantle .root).tree.node? x = none := by
      intro x
      rw [← Option.not_isSome_iff_eq_none, ← Tree.contains_eq_isSome]
      intro hlive
      obtain ⟨hcontains, hnot⟩ := (hclears.tree.contains_iff x).mp hlive
      rw [Tree.contains_eq_isSome, Option.isSome_iff_exists] at hcontains
      obtain ⟨n, hn⟩ := hcontains
      exact hnot (hw.below_root hn)
    obtain ⟨hreply, hserver⟩ := step_teardown hk hlive
    refine ⟨_, hreply, hserver, hclears, hnone, fun v => ?_⟩
    have haccounts := (hw.evolves_dismantle .root).accounts _ (hs.accounted k a hk)
    have hheld : (a.tree.dismantle .root).tree.held = [] :=
      Tree.held_eq_nil hnone
    have hcount := haccounts.count v
    rwa [hheld] at hcount
  batch batch i := by
    obtain ⟨b, hserver, htree, -⟩ := step_cut hk hlive batch i
    exact ⟨b, hserver, htree⟩
  whole batch := by rw [Command.cut, List.take_length]
  delete batch i id n hc hn hroot := by
    have hw := hs.wellFormed k a hk
    refine ⟨hw.clears_amid (hs.accounted k a hk) hc hn hroot, fun b b' hb hb' hub => ?_⟩
    obtain ⟨c, hserver, -, hswitchboard⟩ := step_cut hk hlive batch i
    obtain ⟨c', hserver', -, hswitchboard'⟩ := step_cut hk hlive batch (i + 1)
    rw [hserver, getElem?_setSession hk] at hb
    rw [hserver', getElem?_setSession hk] at hb'
    cases hb
    cases hb'
    rw [hswitchboard', (Tree.amid_succ hc hn hroot).2, Switchboard.deliverAll_append, hswitchboard]
    exact Switchboard.hub_deliverAll (Tree.removals_dismantle _ id) _ hub

end

/-- Whatever happened before, a removal from a live tree takes out the node with all that is below it,
gives back the references that were held there, and touches nothing else. -/
theorem removals_clear_exactly (setting : Setting) (root : TypeDef) (count : Nat)
    (cs : List (Nat × Command)) (k : Nat) (a : Session)
    (hk : ((start setting root count).run cs).sessions[k]? = some a) (hlive : a.tree.isLive) :
    ((start setting root count).run cs).Clears k a :=
  (sound_run setting root count cs).clears hk hlive

namespace Sample

/-- One variable is the value of five arguments, three of them below the first child of the root, and
a reference to it is kept under a handle. -/
def spread : List (Nat × Command) :=
  descent ++ [
    (0, .add ⟨2⟩ { id := ⟨5⟩, field := "name", arguments := [⟨"from", year⟩, ⟨"to", year⟩] }),
    (0, .add .root { id := ⟨6⟩, field := "name", arguments := [⟨"from", year⟩, ⟨"to", year⟩] }),
    (0, .acquire year "mine")]

end Sample

theorem removals_clear_exactly_spread : ∃ (a b c : Session) (n : Node),
    ((start Sample.setting Sample.person 1).run Sample.spread).sessions[0]? = some a ∧
    a.tree.isLive ∧ ((start Sample.setting Sample.person 1).run Sample.spread).Clears 0 a ∧
    a.tree.node? ⟨1⟩ = some n ∧ a.tree.bindings.count? Sample.year = some 6 ∧
    a.Clears ⟨1⟩ b ∧ b.tree.bindings.count? Sample.year = some 3 ∧
    a.Clears .root c ∧ c.tree.bindings.count? Sample.year = some 1 := by
  have hstart : (((start Sample.setting Sample.person 1).run Sample.spread).sessions[0]?).map
      (fun a => (a.tree.isLive, (a.tree.node? ⟨1⟩).isSome, a.tree.bindings.count? Sample.year)) =
        some (true, true, some 6) := by cbv
  obtain ⟨a, hk, hstart⟩ := Option.map_eq_some_iff.mp hstart
  obtain ⟨hlive, hstart⟩ := Prod.mk.inj hstart
  obtain ⟨hn, hcount⟩ := Prod.mk.inj hstart
  obtain ⟨n, hn⟩ := Option.isSome_iff_exists.mp hn
  have hclears := removals_clear_exactly Sample.setting Sample.person 1 Sample.spread 0 a hk hlive
  obtain ⟨b, -, hremove, hb⟩ := hclears.remove ⟨1⟩ n hn (by decide)
  obtain ⟨c, -, hteardown, hc, -⟩ := hclears.teardown
  have hless : ((((start Sample.setting Sample.person 1).run Sample.spread).step 0
      (.remove ⟨1⟩)).server.sessions[0]?).bind (·.tree.bindings.count? Sample.year) = some 3 := by cbv
  have hleast : ((((start Sample.setting Sample.person 1).run Sample.spread).step 0
      .teardown).server.sessions[0]?).bind (·.tree.bindings.count? Sample.year) = some 1 := by cbv
  rw [hremove, getElem?_setSession hk] at hless
  rw [hteardown, getElem?_setSession hk] at hleast
  exact ⟨a, b, c, n, hk, hlive, hclears, hn, hcount, hb, hless, hc, hleast⟩

end Server

end LiveQuery
