import LiveQuery.Proofs.Walks

/-!
# Insertion and its undoing

Growing a selection puts its nodes in one by one, and a refusal anywhere takes the whole attempt
back. In the middle of it every node that was there before is as it was, except for the list that
gets longer, and every node that is new is below a new child and has a hub that was never used.
-/

namespace LiveQuery

namespace Tree

/-- The nodes of `t` are still there, `parent` with `new` further children, and what else is there
is below one of these and has a hub of its own. -/
structure Extends (t : Tree) (parent : NodeId) (new : List NodeId) (t' : Tree) : Prop where
  old : ∀ x n, t.node? x = some n → t'.node? x =
    some (if x = parent then { n with children := n.children ++ new } else n)
  fresh : ∀ x n, t'.node? x = some n → t.node? x = none →
    t.nextHub ≤ n.hub.serial ∧ ∃ c ∈ new, t'.Below c x
  nextHub_le : t.nextHub ≤ t'.nextHub

/-- From `t` to `t'` the children `new` grew below `parent`, which alone of the nodes of `t` was
told of it. -/
structure Grows (root : TypeDef) (t : Tree) (parent : NodeId) (new : List NodeId)
    (published : List Publication) (t' : Tree) : Prop extends t.Extends parent new t' where
  wellFormed : t'.WellFormed root
  accounts : ∀ out, t.Accounts out → t'.Accounts out ∧ t.bindings.SameValues t'.bindings
  quiet : ∀ e ∈ published, t.nextHub ≤ e.hub.serial ∨ ∃ m, t.node? parent = some m ∧ e.hub = m.hub
  told : ∀ m, t.node? parent = some m → ∃ added : List Child, added.map Child.id = new ∧
    eventsOn m.hub published = added.map .childAdded
  child_lt : ∀ e ∈ published, ∀ c, e.event.child? = some c → c.hub.serial < t'.nextHub

section

variable {root : TypeDef} {s : Setting} {t t' t'' : Tree} {id parent : NodeId} {n m : Node}
  {new later : List NodeId} {ps qs : List Publication} {field : String}
  {arguments : List Argument}

/-! ### One node -/

lemma sprout_ok (h : t.sprout s parent id field arguments = (.ok n, t')) :
    ∃ m, t.node? parent = some m ∧ t.node? id = none ∧
      n.id = id ∧ n.parent = some parent ∧ n.children = [] ∧ n.depth = m.depth + 1 ∧
      n.hub = ⟨t.nextHub, id⟩ ∧ t'.nodes = t.nodes ∧ t'.nextHub = t.nextHub + 1 ∧
      ∀ out, t.Accounts out → t'.bindings.Exact (n.arguments.all ++ (t.held ++ out)) ∧
        t.bindings.SameValues t'.bindings := by
  unfold sprout at h
  split at h
  · simp at h
  · next m hm =>
    split at h
    · simp at h
    · next type htype =>
      have hnew : t.node? id = none := by
        unfold typeBelow at htype
        split at htype
        · simp at htype
        · next hid => simpa [contains_eq_isSome] using hid
      split at h
      · simp at h
      · next held b hold =>
        split at h
        · simp at h
        · simp only [Prod.mk.injEq, Except.ok.injEq] at h
          obtain ⟨rfl, rfl⟩ := h
          refine ⟨m, hm, hnew, rfl, rfl, rfl, rfl, rfl, rfl, rfl, fun out ha => ?_⟩
          have hexact := ha.hold arguments
          rw [hold] at hexact
          exact hexact

lemma sprout_error {e : Rejection} (h : t.sprout s parent id field arguments = (.error e, t')) :
    t'.nodes = t.nodes ∧ t'.nextHub = t.nextHub ∧
      ∀ out, t.Accounts out → t'.Accounts out ∧ t.bindings.SameValues t'.bindings := by
  have hsame : ∀ out, t.Accounts out → t.Accounts out ∧ t.bindings.SameValues t.bindings :=
    fun out ha => ⟨ha, Bindings.SameValues.refl _⟩
  unfold sprout at h
  split at h
  · simp only [Prod.mk.injEq] at h
    exact h.2 ▸ ⟨rfl, rfl, hsame⟩
  · split at h
    · simp only [Prod.mk.injEq] at h
      exact h.2 ▸ ⟨rfl, rfl, hsame⟩
    · have hexact := fun out (ha : t.Accounts out) => ha.hold arguments
      split at h
      · next a b hold =>
        simp only [Prod.mk.injEq] at h
        obtain ⟨-, rfl⟩ := h
        simp only [hold] at hexact
        exact ⟨rfl, rfl, hexact⟩
      · next held b hold =>
        simp only [hold] at hexact
        split at h
        · simp only [Prod.mk.injEq] at h
          obtain ⟨-, rfl⟩ := h
          refine ⟨rfl, rfl, fun out ha => ?_⟩
          obtain ⟨hb, hvalues⟩ := hexact out ha
          exact ⟨hb.releaseAll, hvalues.trans (Bindings.sameValues_releaseAll b held)⟩
        · simp at h

/-! ### The nodes in the middle of an insertion -/

namespace Extends

lemma kept (h : t.Extends parent new t') {x : NodeId} (hx : t.node? x = some n) :
    ∃ n', t'.node? x = some n' ∧ n'.parent = n.parent ∧ n'.hub = n.hub := by
  refine ⟨_, h.old x n hx, ?_⟩
  split <;> exact ⟨rfl, rfl⟩

lemma parentOf (h : t.Extends parent new t') {x p : NodeId} (hx : t.parentOf x = some p) :
    t'.parentOf x = some p := by
  obtain ⟨n, hn, hp⟩ := live_of_parentOf hx
  obtain ⟨n', hn', hp', -⟩ := h.kept hn
  rw [parentOf_eq hn', hp', hp]

lemma below (h : t.Extends parent new t') {a x : NodeId} (hx : t.Below a x) : t'.Below a x :=
  hx.mono fun _ _ hp => h.parentOf hp

lemma trans (h : t.Extends parent new t') (h' : t'.Extends parent later t'') :
    t.Extends parent (new ++ later) t'' where
  old x n hx := by
    rw [h'.old x _ (h.old x n hx)]
    split <;> simp
  fresh x n hx hnew := by
    cases hx' : t'.node? x with
    | none =>
      obtain ⟨hhub, c, hc, hcx⟩ := h'.fresh x n hx hx'
      exact ⟨Nat.le_trans h.nextHub_le hhub, c, List.mem_append_right _ hc, hcx⟩
    | some k =>
      obtain ⟨hhub, c, hc, hcx⟩ := h.fresh x k hx' hnew
      obtain ⟨n', hn', -, hsame⟩ := h'.kept hx'
      rw [hx] at hn'
      cases hn'
      exact ⟨hsame ▸ hhub, c, List.mem_append_left _ hc, h'.below hcx⟩
  nextHub_le := Nat.le_trans h.nextHub_le h'.nextHub_le

lemma nest (h : t.Extends parent [id] t') (h' : t'.Extends id later t'') (hid : t.node? id = none)
    (hw : t''.WellFormed root) (hn : t'.node? id = some n) : t.Extends parent [id] t'' where
  old x k hx := by
    have hne : x ≠ id := by
      rintro rfl
      simp [hid] at hx
    rw [h'.old x _ (h.old x k hx), if_neg hne]
  fresh x k hx hnew := by
    cases hx' : t'.node? x with
    | none =>
      obtain ⟨hhub, c, hc, hcx⟩ := h'.fresh x k hx hx'
      have hmem : c ∈ t''.childrenOf id := by
        rw [childrenOf_eq (h'.old id n hn), if_pos rfl]
        exact List.mem_append_right _ hc
      have hbelow : t''.Below id x := Below.trans (.step (hw.mem_children_iff.mp hmem) .refl) hcx
      exact ⟨Nat.le_trans h.nextHub_le hhub, id, List.mem_singleton_self id, hbelow⟩
    | some k' =>
      obtain ⟨hhub, c, hc, hcx⟩ := h.fresh x k' hx' hnew
      obtain ⟨n', hn', -, hsame⟩ := h'.kept hx'
      rw [hx] at hn'
      cases hn'
      exact ⟨hsame ▸ hhub, c, hc, h'.below hcx⟩
  nextHub_le := Nat.le_trans h.nextHub_le h'.nextHub_le

lemma nodes_eq (h : t.Extends parent [] t') : t'.nodes = t.nodes := by
  apply nodes_ext
  intro x
  cases hx : t.node? x with
  | some n => simp [h.old x n hx]
  | none =>
    cases hx' : t'.node? x with
    | none => rfl
    | some n =>
      obtain ⟨-, c, hc, -⟩ := h.fresh x n hx' hx
      simp at hc

lemma not_below (h : t.Extends parent [id] t') (hw : t.WellFormed root) (hid : t.node? id = none)
    {x : NodeId} (hx : t.node? x = some n) : ¬ t'.Below id x := by
  intro hb
  induction hb generalizing n with
  | refl => simp [hid] at hx
  | step hp _ ih =>
    obtain ⟨n', hn', hsame, -⟩ := h.kept hx
    rw [parentOf_eq hn', hsame] at hp
    obtain ⟨m, hm, -⟩ := hw.parent_live hx hp
    exact ih hm

/-- Purging the new child undoes an insertion: the nodes are those there were before. -/
theorem purge (h : t.Extends parent [id] t') (hw : t.WellFormed root) (hw' : t'.WellFormed root)
    (hid : t.node? id = none) (hp : t'.parentOf id = some parent) :
    (t'.purge id).nodes = t.nodes := by
  obtain ⟨ids, hids, hpurge⟩ := hw'.purge_eq hp
  apply nodes_ext
  intro x
  rw [hpurge, node?_dropAll, node?_unlink]
  cases hx : t.node? x with
  | none =>
    cases hx' : t'.node? x with
    | none => simp
    | some n =>
      obtain ⟨-, c, hc, hcx⟩ := h.fresh x n hx' hx
      obtain rfl := List.mem_singleton.mp hc
      rw [if_pos ((hids x).mpr hcx)]
  | some n =>
    have hnot : x ∉ ids := fun hmem => h.not_below hw hid hx ((hids x).mp hmem)
    rw [if_neg hnot, h.old x n hx]
    by_cases hpx : x = parent
    · subst hpx
      have hfilter : n.children.filter (· ≠ id) = n.children := by
        rw [List.filter_eq_self]
        intro c hc
        obtain ⟨k, hk, -⟩ := hw.child_live hx hc
        have hne : c ≠ id := by
          rintro rfl
          simp [hid] at hk
        simpa using hne
      have hlast : [id].filter (· ≠ id) = [] := by simp
      simp only [if_true, Option.map_some, List.filter_append, hfilter, hlast, List.append_nil]
    · simp [hpx, Ne.symm hpx]

end Extends

/-! ### What an insertion leaves -/

namespace Grows

lemma of_nodes_eq (h : t.WellFormed root) (hnodes : t'.nodes = t.nodes)
    (hnext : t.nextHub ≤ t'.nextHub)
    (haccounts : ∀ out, t.Accounts out → t'.Accounts out ∧ t.bindings.SameValues t'.bindings)
    (hquiet : ∀ e ∈ ps, t.nextHub ≤ e.hub.serial)
    (hchild : ∀ e ∈ ps, ∀ c, e.event.child? = some c → c.hub.serial < t'.nextHub) :
    Grows root t parent [] ps t' where
  old x n hx := by
    rw [node?_congr hnodes, hx]
    simp
  fresh x n hx hnew := by
    rw [node?_congr hnodes, hnew] at hx
    cases hx
  nextHub_le := hnext
  wellFormed := h.congr hnodes hnext
  accounts := haccounts
  quiet e he := .inl (hquiet e he)
  told m hm := by
    refine ⟨[], rfl, eventsOn_eq_nil fun e he heq => ?_⟩
    have hold := (h.hub hm).2
    have hnew := hquiet e he
    rw [heq] at hnew
    omega
  child_lt := hchild

lemma trans (h : Grows root t parent new ps t')
    (h' : Grows root t' parent later qs t'') :
    Grows root t parent (new ++ later) (ps ++ qs) t'' where
  toExtends := h.toExtends.trans h'.toExtends
  wellFormed := h'.wellFormed
  accounts out ha := by
    obtain ⟨ha', hvalues⟩ := h.accounts out ha
    obtain ⟨ha'', hvalues'⟩ := h'.accounts out ha'
    exact ⟨ha'', hvalues.trans hvalues'⟩
  quiet e he := by
    rcases List.mem_append.mp he with he | he
    · exact h.quiet e he
    · obtain hnew | ⟨m, hm, hhub⟩ := h'.quiet e he
      · exact .inl (Nat.le_trans h.nextHub_le hnew)
      · cases hp : t.node? parent with
        | none => exact .inl (hhub ▸ (h.fresh parent m hm hp).1)
        | some k =>
          obtain ⟨m', hm', -, hsame⟩ := h.kept hp
          rw [hm] at hm'
          cases hm'
          exact .inr ⟨k, rfl, hhub.trans hsame⟩
  told m hm := by
    obtain ⟨m', hm', -, hsame⟩ := h.kept hm
    obtain ⟨added, rfl, hadded⟩ := h.told m hm
    obtain ⟨added', rfl, hadded'⟩ := h'.told m' hm'
    refine ⟨added ++ added', List.map_append, ?_⟩
    rw [eventsOn_append, hadded, ← hsame, hadded', List.map_append]
  child_lt e he c hc := by
    rcases List.mem_append.mp he with he | he
    · exact Nat.lt_of_lt_of_le (h.child_lt e he c hc) h'.nextHub_le
    · exact h'.child_lt e he c hc

lemma hub_of_told (h : Grows root t parent new ps t') (hw : t.WellFormed root) {e : Publication}
    (he : e ∈ ps) (hlt : e.hub.serial < t.nextHub) :
    e.hub.node = parent ∧ ∃ m, t.node? parent = some m ∧ m.hub = e.hub := by
  obtain hnew | ⟨m, hm, hhub⟩ := h.quiet e he
  · omega
  · exact ⟨hhub ▸ (hw.hub hm).1, m, hm, hhub.symm⟩

lemma tracks (h : Grows root t parent new ps t') (hw : t.WellFormed root) : t.Tracks ps t' := by
  intro hub hlt
  have hother : (hub.node = parent → ∀ m, t.node? parent = some m → m.hub ≠ hub) →
      eventsOn hub ps = [] := by
    intro hne
    refine eventsOn_eq_nil fun e he heq => ?_
    obtain ⟨hnode, m, hm, hhub⟩ := h.hub_of_told hw he (heq ▸ hlt)
    exact hne (heq ▸ hnode) m hm (hhub.trans heq)
  cases hx : t.node? hub.node with
  | none =>
    -- a node that came under the old id has another hub
    have hview : t'.view hub = [] := by
      refine view_eq_nil fun n hn heq => ?_
      have := (h.fresh _ n hn hx).1
      rw [heq] at this
      omega
    rw [hview, view, hx, hother, mirror_nil]
    rintro hnode m hm
    simp [hnode, hm] at hx
  | some n =>
    have hx' := h.old _ n hx
    by_cases hhub : n.hub = hub
    · rw [view_eq hx hhub]
      by_cases hnode : hub.node = parent
      · rw [if_pos hnode] at hx'
        obtain ⟨added, rfl, hadded⟩ := h.told n (hnode ▸ hx)
        rw [view_eq hx' hhub, ← hhub, hadded]
        exact mirror_added (h.wellFormed.nodup hx')
      · rw [if_neg hnode] at hx'
        rw [view_eq hx' hhub, hother (fun h => absurd h hnode), mirror_nil]
    · have hview : ∀ k, t.node? hub.node = some k → k.hub ≠ hub := by
        rw [hx]
        rintro k ⟨⟩
        exact hhub
      have hview' : t'.view hub = [] := by
        refine view_eq_nil fun k hk => ?_
        obtain ⟨k', hk', -, hsame⟩ := h.kept hx
        rw [hk'] at hk
        cases hk
        rwa [hsame]
      rw [view_eq_nil hview, hview', hother, mirror_nil]
      exact fun hnode => hnode ▸ hview

lemma evolves (h : Grows root t parent new ps t') (hw : t.WellFormed root) :
    Evolves root t ps t' where
  wellFormed := h.wellFormed
  accounts out ha := (h.accounts out ha).1
  nextHub_le := h.nextHub_le
  hub_old x n hn hlt := by
    cases hx : t.node? x with
    | none =>
      have := (h.fresh x n hn hx).1
      omega
    | some m =>
      obtain ⟨n', hn', -, hhub⟩ := h.kept hx
      obtain rfl : n = n' := Option.some.inj (hn.symm.trans hn')
      exact ⟨m, rfl, hhub.symm⟩
  tracks := h.tracks hw
  child_lt := h.child_lt

/-- If nothing is new in the end, then nothing was told on a hub that was there before. -/
lemma silent (h : Grows root t parent [] ps t') : ∀ e ∈ ps, t.nextHub ≤ e.hub.serial := by
  intro e he
  obtain hnew | ⟨m, hm, hhub⟩ := h.quiet e he
  · exact hnew
  · obtain ⟨added, hadded, hevents⟩ := h.told m hm
    rw [List.map_eq_nil_iff.mp hadded, List.map_nil, eventsOn, List.filterMap_eq_nil_iff] at hevents
    have := hevents e he
    simp [hhub] at this

end Grows

/-! ### A node with what is nested in it -/

/-- A new leaf below `parent`, before anything nested in it is there. -/
structure Plants (root : TypeDef) (t : Tree) (parent : NodeId) (n : Node) (t' : Tree) :
    Prop extends t.Extends parent [n.id] t' where
  absent : t.node? n.id = none
  live : t'.node? n.id = some n
  leaf : n.children = []
  /-- There is no other new node. -/
  only : ∀ x k, t'.node? x = some k → t.node? x = none → x = n.id
  parent_live : ∃ m, t.node? parent = some m
  parent_eq : n.parent = some parent
  hub_eq : n.hub.serial = t.nextHub
  wellFormed : t'.WellFormed root
  accounts : ∀ out, t.Accounts out → t'.Accounts out ∧ t.bindings.SameValues t'.bindings

lemma sprout_plants (hw : t.WellFormed root)
    (h : t.sprout s parent id field arguments = (.ok n, t')) :
    n.id = id ∧ Plants root t parent n (t'.attach parent n) := by
  obtain ⟨m, hm, hid, rfl, hparent, hchildren, hdepth, hhub, hnodes, hnext, haccounts⟩ := sprout_ok h
  have hnode := node?_congr hnodes
  have hne : n.id ≠ parent := by
    rintro heq
    rw [heq, hm] at hid
    cases hid
  have hattach := node?_attach (t := t') hne
  have honly : ∀ x k, (t'.attach parent n).node? x = some k → t.node? x = none →
      x = n.id ∧ k = n := by
    intro x k hx hnew
    rw [hattach, hnode, hnew] at hx
    split at hx
    · next hxid => exact ⟨hxid, (Option.some.inj hx).symm⟩
    · simp at hx
  refine ⟨rfl, ⟨?_, ?_, hnext ▸ Nat.le_succ _⟩, hid, ?_, hchildren,
    fun x k hx hnew => (honly x k hx hnew).1, ⟨m, hm⟩, hparent, ?_, ?_, ?_⟩
  · intro x k hx
    have hxid : x ≠ n.id := by
      rintro rfl
      rw [hx] at hid
      cases hid
    rw [hattach, if_neg hxid, hnode, hx]
    split <;> rfl
  · intro x k hx hnew
    obtain ⟨rfl, hk⟩ := honly x k hx hnew
    exact ⟨hk ▸ hhub ▸ Nat.le_refl _, n.id, List.mem_singleton_self _, .refl⟩
  · rw [hattach, if_pos rfl]
  · rw [hhub]
  · have hw' : t'.WellFormed root := hw.congr hnodes (hnext ▸ Nat.le_succ _)
    refine hw'.attach ((hnode parent).trans hm) ((hnode _).trans hid) hparent hchildren hdepth ?_
    rw [hhub, hnext]
    exact ⟨rfl, Nat.lt_succ_self _⟩
  · intro out ha
    obtain ⟨hexact, hvalues⟩ := haccounts out ha
    rw [← held_congr_nodes hnodes] at hexact
    exact ⟨Accounts.attach hexact hne ((hnode _).trans hid), hvalues⟩

namespace Plants

lemma extends_nested (h : Plants root t parent n t') (h' : Grows root t' n.id new ps t'') :
    t.Extends parent [n.id] t'' :=
  h.toExtends.nest h'.toExtends h.absent h'.wellFormed h.live

lemma accounts_nested (h : Plants root t parent n t') (h' : Grows root t' n.id new ps t'')
    {out : List Reference} (ha : t.Accounts out) :
    t''.Accounts out ∧ t.bindings.SameValues t''.bindings := by
  obtain ⟨ha', hvalues⟩ := h.accounts out ha
  obtain ⟨ha'', hvalues'⟩ := h'.accounts out ha'
  exact ⟨ha'', hvalues.trans hvalues'⟩

lemma quiet_nested (h : Plants root t parent n t') (h' : Grows root t' n.id new ps t'') :
    ∀ e ∈ ps, t.nextHub ≤ e.hub.serial := by
  intro e he
  obtain hnew | ⟨k, hk, hhub⟩ := h'.quiet e he
  · exact Nat.le_trans h.nextHub_le hnew
  · rw [h.live] at hk
    cases hk
    exact Nat.le_of_eq (by rw [hhub, h.hub_eq])

lemma purged (h : Plants root t parent n t') (h' : Grows root t' n.id new ps t'')
    (hw : t.WellFormed root) : Grows root t parent [] ps (t''.purge n.id) := by
  obtain ⟨n', hn', hparent, -⟩ := h'.kept h.live
  have hp : t''.parentOf n.id = some parent := by
    rw [parentOf_eq hn', hparent, h.parent_eq]
  obtain ⟨hnext, hpurge⟩ := h'.wellFormed.purge_accounts hp
  have hextends := h.extends_nested h'
  refine Grows.of_nodes_eq hw (hextends.purge hw h'.wellFormed h.absent hp) ?_ ?_
    (h.quiet_nested h') ?_
  · rw [hnext]
    exact hextends.nextHub_le
  · intro out ha
    obtain ⟨ha', hvalues⟩ := h.accounts_nested h' ha
    obtain ⟨ha'', hvalues'⟩ := hpurge out ha'
    exact ⟨ha'', hvalues.trans hvalues'⟩
  · rw [hnext]
    exact h'.child_lt

lemma announced (h : Plants root t parent n t') (h' : Grows root t' n.id new ps t'')
    (hw : t.WellFormed root) :
    Grows root t parent [n.id] (ps ++ t''.announcement parent n.id) t'' := by
  have hextends := h.extends_nested h'
  obtain ⟨n', hn', -, -⟩ := h'.kept h.live
  obtain ⟨m, hm⟩ := h.parent_live
  obtain ⟨m', hm', -, hmhub⟩ := hextends.kept hm
  have hannounced : t''.announcement parent n.id = [⟨m.hub, .childAdded n'.asChild⟩] := by
    simp only [announcement, hm', hn', hmhub]
  rw [hannounced]
  refine ⟨hextends, h'.wellFormed, fun out ha => h.accounts_nested h' ha, ?_, ?_, ?_⟩
  · intro e he
    rcases List.mem_append.mp he with he | he
    · exact .inl (h.quiet_nested h' e he)
    · obtain rfl := List.mem_singleton.mp he
      exact .inr ⟨m, hm, rfl⟩
  · intro k hk
    rw [hm] at hk
    cases hk
    have hnone : eventsOn m.hub ps = [] := by
      refine eventsOn_eq_nil fun e he heq => ?_
      have hnew := h.quiet_nested h' e he
      have hold := (hw.hub hm).2
      rw [heq] at hnew
      omega
    refine ⟨[n'.asChild], ?_, ?_⟩
    · simp [Node.asChild, h'.wellFormed.id_eq hn']
    · rw [eventsOn_append, hnone, eventsOn_singleton, if_pos rfl]
      rfl
  · intro e he c hc
    rcases List.mem_append.mp he with he | he
    · exact h'.child_lt e he c hc
    · obtain rfl := List.mem_singleton.mp he
      simp only [Event.child?, Option.some.injEq] at hc
      subst hc
      exact (h'.wellFormed.hub hn').2

end Plants

mutual

/-- Growing a selection puts one more child below the parent, with everything nested in it, and
announces it in the end, or it leaves the nodes as they were. -/
theorem WellFormed.grows {t : Tree} (h : t.WellFormed root) (parent : NodeId) (sel : Selection) :
    match grow s parent sel t with
    | ⟨.ok (), t', ps⟩ => Grows root t parent [sel.id] ps t' ∧
      ∃ nested, ps = nested ++ t'.announcement parent sel.id ∧
        ∀ e ∈ nested, t.nextHub ≤ e.hub.serial
    | ⟨.error _, t', ps⟩ => Grows root t parent [] ps t' := by
  match sel with
  | ⟨id, field, arguments, children⟩ =>
    rcases hsprout : t.sprout s parent id field arguments with ⟨e | n, t'⟩
    · obtain ⟨hnodes, hnext, haccounts⟩ := sprout_error hsprout
      simp only [Tree.grow, hsprout]
      exact Grows.of_nodes_eq h hnodes (Nat.le_of_eq hnext.symm) haccounts (by simp) (by simp)
    · obtain ⟨rfl, hplants⟩ := sprout_plants h hsprout
      obtain ⟨new, hnested⟩ := hplants.wellFormed.growsAll n.id children
      rcases hgrow : growAll s n.id children (t'.attach parent n) with ⟨e | ⟨⟩, t'', ps⟩
      · simp only [hgrow] at hnested
        simp only [Tree.grow, hsprout, hgrow]
        exact hplants.purged hnested h
      · simp only [hgrow] at hnested
        simp only [Tree.grow, hsprout, hgrow]
        exact ⟨hplants.announced hnested h, ps, rfl, hplants.quiet_nested hnested⟩

theorem WellFormed.growsAll {t : Tree} (h : t.WellFormed root) (parent : NodeId)
    (sels : List Selection) :
    ∃ new, Grows root t parent new (growAll s parent sels t).published
      (growAll s parent sels t).tree := by
  match sels with
  | [] =>
    have hsame : ∀ out, t.Accounts out → t.Accounts out ∧ t.bindings.SameValues t.bindings :=
      fun _ ha => ⟨ha, Bindings.SameValues.refl _⟩
    exact ⟨[], Grows.of_nodes_eq h rfl (Nat.le_refl _) hsame (by simp [growAll])
      (by simp [growAll])⟩
  | sel :: rest =>
    have hfirst := h.grows parent sel
    rcases hgrow : Tree.grow s parent sel t with ⟨e | ⟨⟩, t', ps⟩
    · rw [hgrow] at hfirst
      simp only [growAll, hgrow]
      exact ⟨[], hfirst⟩
    · rw [hgrow] at hfirst
      simp only [growAll, hgrow]
      obtain ⟨new, hrest⟩ := hfirst.1.wellFormed.growsAll parent rest
      exact ⟨[sel.id] ++ new, hfirst.1.trans hrest⟩

end

end

end Tree

end LiveQuery
