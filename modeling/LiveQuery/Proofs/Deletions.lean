import LiveQuery.Proofs.SingleCalls
import LiveQuery.Proofs.Values

/-!
# Batches of deletions

What a batch of deletions leaves depends on the set of its targets alone. The nodes that go are those
that are below a target, the root apart. In what order the targets come only decides which deletions
are made and which find their target gone already, together with a node above it.
-/

namespace LiveQuery

/-- The batch that deletes some nodes one after the other and assigns nothing. -/
def Batch.deletions (targets : List NodeId) : Batch where
  changes := targets.map .delete

namespace Tree

/-- The node is one of the targets or below one. The root does not count as a target. -/
def Doomed (t : Tree) (targets : List NodeId) (x : NodeId) : Prop :=
  ∃ y ∈ targets, y ≠ .root ∧ t.Below y x

section

variable {root : TypeDef} {s : Setting} {t t' t'' : Tree} {x y : NodeId} {n : Node}
  {gone targets : List NodeId} {out : List Reference}

lemma doomed_cons : t.Doomed (y :: targets) x ↔ (y ≠ .root ∧ t.Below y x) ∨ t.Doomed targets x := by
  simp [Doomed]

lemma nextHub_dismantle (t : Tree) (id : NodeId) : (t.dismantle id).tree.nextHub = t.nextHub := by
  have hvisit : ∀ v (u : Tree), u.nextHub = t.nextHub → (visit v u).2.1.nextHub = t.nextHub := by
    intro v u hu
    cases v with
    | enter y =>
      unfold visit
      cases hn : u.node? y <;> simpa [hn] using hu
    | leave y => exact (nextHub_detach u y).trans hu
  exact Worklist.run_state hvisit _ rfl

namespace Without

lemma node?_eq_some (h : t.Without gone t') (hx : t'.node? x = some n) :
    x ∉ gone ∧ ∃ m, t.node? x = some m ∧ n.parent = m.parent := by
  rw [h x] at hx
  split at hx
  · cases hx
  · next hkept =>
    obtain ⟨m, hm, rfl⟩ := Option.map_eq_some_iff.mp hx
    exact ⟨hkept, m, hm, rfl⟩

lemma below_iff (h : t.Without gone t')
    (hdown : ∀ c p, t.parentOf c = some p → p ∈ gone → c ∈ gone) (hx : x ∉ gone) :
    t'.Below y x ↔ t.Below y x := by
  constructor
  · intro hbelow
    refine hbelow.mono fun c p hp => ?_
    obtain ⟨n, hn, hnp⟩ := live_of_parentOf hp
    obtain ⟨-, m, hm, hparent⟩ := h.node?_eq_some hn
    rw [parentOf_eq hm, ← hparent, hnp]
  · intro hbelow
    induction hbelow with
    | refl => exact .refl
    | @step p c hp _ ih =>
      obtain ⟨n, hn, hnp⟩ := live_of_parentOf hp
      have hc : t'.node? c = some { n with children := n.children.filter (· ∉ gone) } := by
        rw [h c, if_neg hx, hn, Option.map_some]
      have hp' : t'.parentOf c = some p := (parentOf_eq hc).trans hnp
      exact .step hp' (ih fun hmem => hx (hdown c p hp hmem))

end Without

namespace WellFormed

lemma without_deletion (h : t.WellFormed root) (y : NodeId) :
    ∃ gone, t.Without gone (t.change s (.delete y)).tree ∧
      (∀ c p, t.parentOf c = some p → p ∈ gone → c ∈ gone) ∧
      (∀ x n, t.node? x = some n → (x ∈ gone ↔ y ≠ .root ∧ t.Below y x)) ∧
      (t.change s (.delete y)).tree.nextHub = t.nextHub := by
  cases hy : t.node? y with
  | none =>
    refine ⟨[], ?_, by simp, fun x n hx => ?_, ?_⟩
    · simpa [change, Change.target, contains_eq_isSome, hy] using Without.nil t
    · have hnot : ¬ t.Below y x := fun hbelow => by
        obtain ⟨m, hm⟩ := h.live_of_below hbelow hx
        rw [hy] at hm
        cases hm
      simp [hnot]
    · simp [change, Change.target, contains_eq_isSome, hy]
  | some m =>
    by_cases hroot : y = .root
    · subst hroot
      have hchange : (t.change s (.delete .root)).tree = t := by
        simp [change, Change.target, contains_eq_isSome, hy]
      rw [hchange]
      exact ⟨[], Without.nil t, by simp, by simp, rfl⟩
    · obtain ⟨gone, hgone, hwithout⟩ := h.without_dismantle hy
      rw [change_delete_eq hy hroot]
      refine ⟨gone, hwithout, fun c p hp hmem => ?_, fun x _ _ => ?_, nextHub_dismantle t y⟩
      · exact (hgone c).mpr (.step hp ((hgone p).mp hmem))
      · simp [hgone, hroot]

/-- Deletions take out what is doomed, whatever their order is. -/
theorem without_deletions (h : t.WellFormed root) (index : Nat) (targets : List NodeId) :
    ∃ gone, t.Without gone (t.changeAll s index (targets.map .delete)).tree ∧
      (∀ x n, t.node? x = some n → (x ∈ gone ↔ t.Doomed targets x)) ∧
      (t.changeAll s index (targets.map .delete)).tree.nextHub = t.nextHub := by
  induction targets generalizing t index with
  | nil => exact ⟨[], Without.nil t, by simp [Doomed], rfl⟩
  | cons y rest ih =>
    obtain ⟨gone, hwithout, hdown, hgone, hnext⟩ := h.without_deletion (s := s) y
    have hw := (h.evolves_change (s := s) (.delete y)).wellFormed
    obtain ⟨later, hwithout', hlater, hnext'⟩ := ih hw (index + 1)
    refine ⟨gone ++ later, hwithout.trans hwithout', fun x n hx => ?_, hnext'.trans hnext⟩
    rw [List.mem_append, doomed_cons, ← hgone x n hx]
    by_cases hmem : x ∈ gone
    · simp [hmem]
    · have hx' : (t.change s (.delete y)).tree.node? x =
          some { n with children := n.children.filter (· ∉ gone) } := by
        rw [hwithout x, if_neg hmem, hx, Option.map_some]
      rw [hlater x _ hx']
      simp only [Doomed, hwithout.below_iff hdown hmem]

end WellFormed

lemma Without.survivors (h : t.Without gone t') (hw : t.WellFormed root) :
    (∀ x, t'.contains x ↔ t.contains x ∧ x ∉ gone) ∧
      ∀ x n, t.node? x = some n → t'.contains x →
        t'.node? x = some { n with children := n.children.filter t'.contains } := by
  have hcontains : ∀ x, t'.contains x ↔ t.contains x ∧ x ∉ gone := by
    intro x
    rw [contains_eq_isSome, contains_eq_isSome, h x]
    by_cases hx : x ∈ gone <;> simp [hx]
  refine ⟨hcontains, fun x n hx hlive => ?_⟩
  have hkept : n.children.filter (· ∉ gone) = n.children.filter t'.contains := by
    refine List.filter_congr fun c hc => ?_
    obtain ⟨m, hm, -⟩ := hw.child_live hx hc
    have hc' := hcontains c
    rw [contains_eq_isSome t, hm] at hc'
    rw [Bool.eq_iff_iff, hc']
    simp
  rw [h x, if_neg ((hcontains x).mp hlive).2, hx, Option.map_some, hkept]

/-- Exact counts and the values tell the bindings of trees whose nodes hold the same. -/
lemma bindings_eq_of_arguments_eq (ha : t'.Accounts out) (ha' : t''.Accounts out)
    (hheld : ∀ x, (t'.node? x).map (·.arguments) = (t''.node? x).map (·.arguments))
    (hvalues : t'.bindings.SameValues t''.bindings) : t'.bindings = t''.bindings := by
  rw [Accounts, held_congr hheld] at ha
  exact ha.eq_of_sameValues ha' hvalues

lemma WellFormed.tree_deletions (h : t.WellFormed root) (ha : t.Accounts out)
    {targets' : List NodeId} (hsame : ∀ x, x ∈ targets ↔ x ∈ targets') :
    (t.changeAll s 0 (targets.map .delete)).tree = (t.changeAll s 0 (targets'.map .delete)).tree := by
  obtain ⟨gone, hwithout, hgone, hnext⟩ := h.without_deletions (s := s) 0 targets
  obtain ⟨gone', hwithout', hgone', hnext'⟩ := h.without_deletions (s := s) 0 targets'
  have hmem : ∀ x n, t.node? x = some n → (x ∈ gone ↔ x ∈ gone') := by
    intro x n hx
    rw [hgone x n hx, hgone' x n hx]
    simp only [Doomed, hsame]
  have hnodes : (t.changeAll s 0 (targets.map .delete)).tree.nodes =
      (t.changeAll s 0 (targets'.map .delete)).tree.nodes := by
    apply nodes_ext
    intro x
    rw [hwithout x, hwithout' x]
    cases hx : t.node? x with
    | none => simp
    | some n =>
      have hchildren : n.children.filter (· ∉ gone) = n.children.filter (· ∉ gone') := by
        refine List.filter_congr fun c hc => ?_
        obtain ⟨m, hm, -⟩ := h.child_live hx hc
        simp only [hmem c m hm]
      simp only [hmem x n hx, Option.map_some, hchildren]
  refine Tree.ext hnodes ?_ (hnext.trans hnext'.symm)
  have he := h.evolves_changeAll (s := s) 0 (targets.map .delete)
  have he' := h.evolves_changeAll (s := s) 0 (targets'.map .delete)
  have hheld := fun x => congrArg (Option.map (·.arguments)) (node?_congr hnodes x)
  refine bindings_eq_of_arguments_eq (he.accounts out ha) (he'.accounts out ha) hheld fun v => ?_
  rw [← h.sameValues_changeAll ha 0 (targets.map .delete) v,
    h.sameValues_changeAll ha 0 (targets'.map .delete) v]

end

end Tree

namespace Server

section

variable {root : TypeDef} {s : Server} {k : Nat} {a : Session}

lemma Sound.step_deletions (hs : s.Sound root) (hk : s.sessions[k]? = some a)
    (hlive : a.tree.isLive) {targets targets' : List NodeId}
    (hsame : ∀ x, x ∈ targets ↔ x ∈ targets') :
    ∃ (o o' : Outcome) (b b' : Session),
      (s.step k (.apply (.deletions targets))).reply = .applied o ∧
      (s.step k (.apply (.deletions targets'))).reply = .applied o' ∧
      (s.step k (.apply (.deletions targets))).server.sessions[k]? = some b ∧
      (s.step k (.apply (.deletions targets'))).server.sessions[k]? = some b' ∧
      b'.tree = b.tree ∧ o'.collected = o.collected ∧
      (∀ x, b.tree.contains x ↔ a.tree.contains x ∧ ¬ a.tree.Doomed targets x) ∧
      ∀ x n, a.tree.node? x = some n → b.tree.contains x →
        b.tree.node? x = some { n with children := n.children.filter b.tree.contains } := by
  have hw := hs.wellFormed k a hk
  have htree := hw.tree_deletions (s := a.setting) (hs.accounted k a hk) hsame
  obtain ⟨gone, hwithout, hgone, -⟩ := hw.without_deletions (s := a.setting) 0 targets
  obtain ⟨hcontains, hsurvivors⟩ := hwithout.survivors hw
  rw [step_apply hk hlive (.deletions targets) rfl rfl,
    step_apply hk hlive (.deletions targets') rfl rfl]
  refine ⟨_, _, _, _, rfl, rfl, getElem?_setSession hk _, getElem?_setSession hk _, ?_, ?_,
    fun x => ?_, hsurvivors⟩
  · simp only [Session.withBindings, Session.after]
    exact congrArg (fun u : Tree => { u with bindings := u.bindings.sweep.2 }) htree.symm
  · exact congrArg (fun u : Tree => u.bindings.sweep.1) htree.symm
  · refine (hcontains x).trans (and_congr_right fun hx => ?_)
    rw [Tree.contains_eq_isSome, Option.isSome_iff_exists] at hx
    obtain ⟨n, hn⟩ := hx
    exact not_congr (hgone x n hn)

end

/-- Whatever happened before, two batches of deletions with the same set of targets leave the same
tree, bindings included, and sweep the same bindings away. The nodes that stay are those that are
neither a target nor below one, and they keep those of their children that stay. -/
theorem deletions_by_set (setting : Setting) (root : TypeDef) (count : Nat)
    (cs : List (Nat × Command)) (k : Nat) (a : Session)
    (hk : ((start setting root count).run cs).sessions[k]? = some a) (hlive : a.tree.isLive)
    (targets targets' : List NodeId) (hsame : ∀ x, x ∈ targets ↔ x ∈ targets') :
    ∃ (o o' : Outcome) (b b' : Session),
      (((start setting root count).run cs).step k (.apply (.deletions targets))).reply =
        .applied o ∧
      (((start setting root count).run cs).step k (.apply (.deletions targets'))).reply =
        .applied o' ∧
      (((start setting root count).run cs).step k
        (.apply (.deletions targets))).server.sessions[k]? = some b ∧
      (((start setting root count).run cs).step k
        (.apply (.deletions targets'))).server.sessions[k]? = some b' ∧
      b'.tree = b.tree ∧ o'.collected = o.collected ∧
      (∀ x, b.tree.contains x ↔ a.tree.contains x ∧ ¬ a.tree.Doomed targets x) ∧
      ∀ x n, a.tree.node? x = some n → b.tree.contains x →
        b.tree.node? x = some { n with children := n.children.filter b.tree.contains } :=
  (sound_run setting root count cs).step_deletions hk hlive hsame

namespace Sample

/-- The child of the root has a child, which has one too, and the root has another child. -/
def descent : List (Nat × Command) :=
  watched ++ [
    (0, .add ⟨1⟩ { id := ⟨2⟩, field := "friend", children := [{ id := ⟨3⟩, field := "name" }] }),
    (0, .add .root { id := ⟨4⟩, field := "name" })]

end Sample

theorem deletions_by_set_descent : ∃ (o o' : Outcome) (a b b' : Session) (n : Node),
    ((start Sample.setting Sample.person 1).run Sample.descent).sessions[0]? = some a ∧
    a.tree.isLive ∧
    (((start Sample.setting Sample.person 1).run Sample.descent).step 0
      (.apply (.deletions [⟨3⟩, .root, ⟨9⟩, ⟨1⟩]))).reply = .applied o ∧
    (((start Sample.setting Sample.person 1).run Sample.descent).step 0
      (.apply (.deletions [⟨1⟩, ⟨9⟩, ⟨3⟩, .root, ⟨1⟩]))).reply = .applied o' ∧
    (((start Sample.setting Sample.person 1).run Sample.descent).step 0
      (.apply (.deletions [⟨3⟩, .root, ⟨9⟩, ⟨1⟩]))).server.sessions[0]? = some b ∧
    (((start Sample.setting Sample.person 1).run Sample.descent).step 0
      (.apply (.deletions [⟨1⟩, ⟨9⟩, ⟨3⟩, .root, ⟨1⟩]))).server.sessions[0]? = some b' ∧
    b'.tree = b.tree ∧ o'.collected = o.collected ∧
    o.applied = 2 ∧ o'.applied = 1 ∧ o.collected = [Sample.year] ∧
    b.tree.node? .root = some n ∧ n.children = [⟨4⟩] := by
  have hstart : (((start Sample.setting Sample.person 1).run Sample.descent).sessions[0]?).map
      (·.tree.isLive) = some true := by cbv
  obtain ⟨a, hk, hlive⟩ := Option.map_eq_some_iff.mp hstart
  obtain ⟨o, o', b, b', ho, ho', hb, hb', htree, hcollected, -, -⟩ := deletions_by_set
    Sample.setting Sample.person 1 Sample.descent 0 a hk hlive [⟨3⟩, .root, ⟨9⟩, ⟨1⟩]
    [⟨1⟩, ⟨9⟩, ⟨3⟩, .root, ⟨1⟩] (fun x => by simp only [List.mem_cons, List.not_mem_nil]; tauto)
  have hfirst : (((start Sample.setting Sample.person 1).run Sample.descent).step 0
      (.apply (.deletions [⟨3⟩, .root, ⟨9⟩, ⟨1⟩]))).reply.outcome?.map
        (fun o => (o.applied, o.collected)) = some (2, [Sample.year]) := by cbv
  have hsecond : (((start Sample.setting Sample.person 1).run Sample.descent).step 0
      (.apply (.deletions [⟨1⟩, ⟨9⟩, ⟨3⟩, .root, ⟨1⟩]))).reply.outcome?.map (·.applied) = some 1 := by
    cbv
  have hroot : ((((start Sample.setting Sample.person 1).run Sample.descent).step 0
      (.apply (.deletions [⟨3⟩, .root, ⟨9⟩, ⟨1⟩]))).server.sessions[0]?).bind
        (fun b => (b.tree.node? .root).map (·.children)) = some [⟨4⟩] := by cbv
  rw [ho] at hfirst
  rw [ho'] at hsecond
  rw [hb] at hroot
  obtain ⟨n, hn, hchildren⟩ := Option.map_eq_some_iff.mp hroot
  obtain ⟨happlied, hswept⟩ := Prod.mk.inj (Option.some.inj hfirst)
  exact ⟨o, o', a, b, b', n, hk, hlive, ho, ho', hb, hb', htree, hcollected, happlied,
    Option.some.inj hsecond, hswept, hn, hchildren⟩

end Server

end LiveQuery
