import LiveQuery.Proofs.Arrivals

/-!
# Following from the root

A follower that begins at the root of a tree without other nodes is, whatever happens then, on the hubs
of those nodes that came one by one, each at the top of a selection of its own, below others that did.
On each it is once. It never gets to a node that was nested in a selection, nor to what comes below.
-/

namespace LiveQuery

/-- From the root down to `x` every node, except for the root itself, was at the top when it arrived. -/
def Tree.ByTops (t : Tree) (arrivals : List Arrival) (x : NodeId) : Prop :=
  ∀ y n, y ≠ .root → t.Below y x → t.node? y = some n → Topped arrivals n.hub

/-- Where the observers that belong to `origin` are in a session, after all the arrivals in its tree
and all that was published meanwhile. -/
structure Session.Follows (a : Session) (origin : Subscription) (arrivals : List Arrival)
    (past : List Publication) : Prop where
  once : ∀ x n, a.tree.node? x = some n → a.tree.ByTops arrivals x →
    a.switchboard.followers origin n.hub = 1
  never : ∀ x n, a.tree.node? x = some n → ¬ a.tree.ByTops arrivals x →
    a.switchboard.followers origin n.hub = 0
  /-- A node comes at the top or nested, and not both. -/
  came : ∀ x n, x ≠ .root → a.tree.node? x = some n →
    (Topped arrivals n.hub ↔ ¬ Nested arrivals n.hub)
  /-- Nobody gets to the hub of a node that came nested, whether the node is still there or not,
  though the node was announced. -/
  nested : ∀ hub, Nested arrivals hub → a.switchboard.followers origin hub = 0 ∧
    ∃ e ∈ past, ∃ c, e.event = .childAdded c ∧ c.hub = hub
  /-- Nor to any node below it. -/
  below_nested : ∀ x n y m, a.tree.node? x = some n → Nested arrivals n.hub → a.tree.Below x y →
    a.tree.node? y = some m → a.switchboard.followers origin m.hub = 0

section

variable {root : TypeDef} {t : Tree} {b : Switchboard} {n : Node} {x p : NodeId}
  {origin : Subscription} {arrivals : List Arrival} {past : List Publication}

namespace Tree

lemma WellFormed.byTops_root (h : t.WellFormed root) : t.ByTops arrivals .root :=
  fun _ _ hne hbelow _ => absurd (h.eq_root_of_below hbelow) hne

lemma WellFormed.byTops_iff (h : t.WellFormed root) (hp : t.parentOf x = some p)
    (hn : t.node? x = some n) :
    t.ByTops arrivals x ↔ t.ByTops arrivals p ∧ Topped arrivals n.hub := by
  constructor
  · intro hx
    refine ⟨fun y m hne hbelow hm => hx y m hne (.step hp hbelow) hm, hx x n ?_ .refl hn⟩
    rintro rfl
    rw [h.parentOf_root] at hp
    cases hp
  · rintro ⟨habove, htopped⟩ y m hne hbelow hm
    cases hbelow with
    | refl =>
      rw [hn] at hm
      cases hm
      exact htopped
    | step hp' hbelow =>
      rw [hp, Option.some.injEq] at hp'
      exact habove y m hne (hp' ▸ hbelow) hm

end Tree

namespace Followed

/-- Down a path from the root the observers get as far as the nodes came at the top. -/
theorem followers_eq (h : Followed origin arrivals past t b) (hw : t.WellFormed root)
    (hn : t.node? x = some n) : (t.ByTops arrivals x → b.followers origin n.hub = 1) ∧
      (¬ t.ByTops arrivals x → b.followers origin n.hub = 0) := by
  have hbelow := hw.below_root hn
  induction hbelow generalizing n with
  | refl =>
    rw [(hw.root_eq hn).2.2.2]
    exact ⟨fun _ => h.root (Tree.isLive_iff.mpr ⟨n, hn⟩), fun hnot => absurd hw.byTops_root hnot⟩
  | step hp _ ih =>
    obtain ⟨m, hm, -⟩ := hw.parent_live hn ((Tree.parentOf_eq hn).symm.trans hp)
    have hmember : n.asChild ∈ t.family m.hub := by
      rw [hw.mem_family_iff (Tree.owns_hub hw hm) hn, hp, (hw.hub hm).1]
    rw [hw.byTops_iff hp hn]
    rcases h.came m.hub n.asChild hmember with htopped | hnested
    · have hsame : b.followers origin n.hub = b.followers origin m.hub :=
        h.topped m.hub n.asChild hmember htopped
      rw [hsame]
      exact ⟨fun habove => (ih hm).1 habove.1, fun hnot => (ih hm).2 fun habove => hnot ⟨habove, htopped⟩⟩
    · obtain ⟨hnobody, hnot, -⟩ := h.nested n.hub hnested
      exact ⟨fun habove => absurd habove.2 hnot, fun _ => hnobody⟩

theorem follows {a : Session} (h : Followed origin arrivals past a.tree a.switchboard)
    (hw : a.tree.WellFormed root) : a.Follows origin arrivals past where
  once x n hn := (h.followers_eq hw hn).1
  never x n hn := (h.followers_eq hw hn).2
  came x n hne hn := by
    obtain ⟨hub, hmember⟩ := hw.exists_family hn hne
    refine ⟨fun htopped hnested => (h.nested n.hub hnested).2.1 htopped, fun hnot => ?_⟩
    exact (h.came hub n.asChild hmember).resolve_right hnot
  nested hub hnested := ⟨(h.nested hub hnested).1, (h.nested hub hnested).2.2⟩
  below_nested x n y m hn hnested hbelow hm := by
    obtain ⟨hnobody, hnot, -⟩ := h.nested n.hub hnested
    refine (h.followers_eq hw hm).2 fun htops => hnot (htops x n ?_ hbelow hn)
    rintro rfl
    rw [(hw.root_eq hn).2.2.2, h.root (Tree.isLive_iff.mpr ⟨n, hn⟩)] at hnobody
    cases hnobody

end Followed

end

namespace Server

section

variable {root : TypeDef} {s : Server} {k : Nat} {a a' b : Session} {origin : Subscription}
  {arrivals : List Arrival} {past : List Publication}

lemma arrives_eq (hk : s.sessions[k]? = some a) (j : Nat) (c : Command) :
    s.arrives k j c = if j = k ∧ a.tree.isLive then c.arrivals a.setting a.tree else [] := by
  by_cases hlive : a.tree.isLive
  · simp [arrives, live?_eq_ok_iff.mpr ⟨hk, hlive⟩, hlive]
  · simp [arrives, live?, session?, hk, hlive]

lemma arrives_eq_nil (hk : s.sessions[k]? = some a) {j : Nat} {c : Command}
    (hnot : ¬ (j = k ∧ a.tree.isLive ∧ c.isOperation)) : s.arrives k j c = [] := by
  rw [arrives_eq hk]
  split
  · next heffective =>
    have hc : ¬ c.isOperation := fun hc => hnot ⟨heffective.1, heffective.2, hc⟩
    cases c <;> first | exact absurd rfl hc | rfl
  · rfl

/-- A command keeps up who is followed, as long as the subscription is under a handle. -/
theorem Sound.followed_step (hs : s.Sound root) (ho : s.Orderly) (hk : s.sessions[k]? = some a)
    (hgiven : a.switchboard.Given origin)
    (h : Followed origin arrivals past a.tree a.switchboard) {j : Nat} {c : Command}
    (hk' : (s.step j c).server.sessions[k]? = some a')
    (hholds : (s.step j c).server.Holds k origin) :
    Followed origin (arrivals ++ s.arrives k j c) (past ++ s.publishes k j c) a'.tree
      a'.switchboard := by
  by_cases heffective : j = k ∧ a.tree.isLive ∧ c.isOperation
  · obtain ⟨rfl, hlive, hc⟩ := heffective
    obtain ⟨t, ps, hd⟩ := step_of_live hc hk hlive
    rw [hd.server, setSession_eq hk, getElem?_modifySession, if_pos rfl, hk] at hk'
    obtain rfl := Option.some.inj hk'
    rw [arrives_eq hk, if_pos ⟨rfl, hlive⟩, publishes_of_live hk hlive hd.effect]
    exact (hs.wellFormed j a hk).leads_effect hd.effect origin arrivals past _
      (hs.switchboard j a hk) h
  · obtain ⟨b, hb, hnodes, hnext, hspares⟩ := ho.left_alone hk heffective
    obtain rfl : a' = b := Option.some.inj (hk'.symm.trans hb)
    rw [arrives_eq_nil hk heffective, List.append_nil]
    refine h.shrink (fun hlive => ?_) (fun hub c hc => ?_) (Nat.le_of_eq hnext.symm)
      (hspares.followers_eq origin hgiven hholds) _
    · simpa only [Tree.isLive, Tree.contains, hnodes] using hlive
    · rwa [Tree.family_congr hnodes] at hc

theorem Sound.followed_run (hs : s.Sound root) (ho : s.Orderly) (hk : s.sessions[k]? = some a)
    (hgiven : a.switchboard.Given origin)
    (h : Followed origin arrivals past a.tree a.switchboard) {cs : List (Nat × Command)}
    (hend : (s.run cs).sessions[k]? = some b) (hholds : (s.run cs).Holds k origin) :
    Followed origin (arrivals ++ s.arrivals k cs) (past ++ s.history k cs) b.tree b.switchboard := by
  induction cs generalizing s a arrivals past with
  | nil =>
    obtain rfl : a = b := Option.some.inj (hk.symm.trans hend)
    simpa [Server.arrivals, history] using h
  | cons c rest ih =>
    obtain ⟨j, c⟩ := c
    obtain ⟨a', hk', honward⟩ := s.onward_step j c hk
    have hgiven' := hgiven.onward honward
    have hstep := hs.followed_step ho hk hgiven h hk' ((ho.step j c).holds_run hk' hgiven' hholds)
    have hrest := ih (hs.step j c) (ho.step j c) hk' hgiven' hstep hend hholds
    rwa [List.append_assoc, List.append_assoc] at hrest

lemma Orderly.begins (ho : s.Orderly) (hk : s.sessions[k]? = some a) {place : Place} {hub : HubId}
    (hplace : s.hubAt? k place = .ok ⟨k, hub⟩) (name : String) :
    ∃ b : Session, (s.step k (.follow place name)).server.sessions[k]? = some b ∧
      b.switchboard.Given (a.switchboard.nextSubscription hub) ∧
      b.switchboard.followers (a.switchboard.nextSubscription hub) hub = 1 := by
  have hkin := ho.kin k a hk
  have hstep : s.step k (.follow place name) = s.enlist ⟨k, hub⟩ name (·.follow hub name) := by
    simp only [Server.step, Server.follow, hplace]
  have hholds : (s.enlist ⟨k, hub⟩ name (·.follow hub name)).server.Holds k
      (a.switchboard.nextSubscription hub) := by
    refine ⟨name, ?_⟩
    simp only [Server.enlist, session?_eq_ok_iff.mpr hk]
    exact Std.ExtTreeMap.getElem?_insert_self
  have hgiven : (a.switchboard.follow hub name).Given (a.switchboard.nextSubscription hub) :=
    (hkin.ordered.heads_follower hub name _).given
  obtain ⟨-, b, hb, hspares⟩ := ho.session_enlist ⟨k, hub⟩ name
    (fun b hb => .follow hb hub name) (fun _ _ => id) hk
  refine ⟨b, ?_, hgiven.onward hspares.toOnward, ?_⟩
  · simpa only [hstep, Server.enlist, session?_eq_ok_iff.mpr hk] using hb
  · rw [hspares.followers_eq _ hgiven hholds]
    exact hkin.followers_follow hub name

lemma Sound.followed_follow (hs : s.Sound root) (ho : s.Orderly) (hk : s.sessions[k]? = some a)
    (hlive : a.tree.isLive) (honly : ∀ x, a.tree.contains x → x = .root) (name : String) :
    ∃ b : Session, (s.step k (.follow (.node .root) name)).server.sessions[k]? = some b ∧
      b.switchboard.Given (a.switchboard.nextSubscription ⟨0, .root⟩) ∧
      Followed (a.switchboard.nextSubscription ⟨0, .root⟩) [] [] b.tree b.switchboard := by
  have hw := hs.wellFormed k a hk
  obtain ⟨r, hr⟩ := Tree.isLive_iff.mp hlive
  have hplace : s.hubAt? k (.node .root) = .ok ⟨k, ⟨0, .root⟩⟩ := by
    simp only [hubAt?, live?_eq_ok_iff.mpr ⟨hk, hlive⟩, hr, (hw.root_eq hr).2.2.2]
  obtain ⟨b, hb, hgiven, hone⟩ := ho.begins hk hplace name
  have hquiet : ¬ (k = k ∧ a.tree.isLive ∧ (Command.follow (.node .root) name).isOperation) :=
    fun h => Bool.false_ne_true h.2.2
  obtain ⟨b', hb', hnodes, -⟩ := ho.left_alone hk hquiet
  obtain rfl : b = b' := Option.some.inj (hb.symm.trans hb')
  have hempty : ∀ hub, ∀ c, c ∉ b.tree.family hub := by
    intro hub c hc
    rw [Tree.family_congr hnodes] at hc
    obtain ⟨-, n, hn, -⟩ := hw.mem_family hc
    have hcontains : a.tree.contains c.id := by rw [Tree.contains_eq_isSome, hn]; rfl
    exact hw.id_ne_root_of_mem_family hc (honly c.id hcontains)
  refine ⟨b, hb, hgiven, ?_⟩
  constructor
  · exact fun _ => hone
  · exact fun hub c hc => absurd hc (hempty hub c)
  · exact fun hub c hc => absurd hc (hempty hub c)
  · simp [Nested]
  · simp [Topped, Nested]

end

/-- Whatever is done after a follower began at the root of a tree without other nodes: as long as its
subscription is under its handle, its observers are on the hubs of the nodes that came at the top,
below others that did, once each. -/
theorem follows_from_root (setting : Setting) (root : TypeDef) (count : Nat)
    (before later : List (Nat × Command)) (k : Nat) (name : String) (a last : Session)
    (ha : ((start setting root count).run before).sessions[k]? = some a) (hlive : a.tree.isLive)
    (honly : ∀ x, a.tree.contains x → x = .root)
    (hlast : ((start setting root count).run
      (before ++ (k, .follow (.node .root) name) :: later)).sessions[k]? = some last)
    (hheld : ((start setting root count).run
      (before ++ (k, .follow (.node .root) name) :: later)).handles.subscriptions[name]? =
        some ⟨k, a.switchboard.nextSubscription ⟨0, .root⟩⟩) :
    last.Follows (a.switchboard.nextSubscription ⟨0, .root⟩)
      (((start setting root count).run before).arrivals k ((k, .follow (.node .root) name) :: later))
      (((start setting root count).run before).history k
        ((k, .follow (.node .root) name) :: later)) := by
  have hs := sound_run setting root count before
  have ho := (orderly_start setting root count).run before
  rw [run_append] at hlast hheld
  have hquiet : ¬ (k = k ∧ a.tree.isLive ∧ (Command.follow (.node .root) name).isOperation) :=
    fun h => Bool.false_ne_true h.2.2
  rw [arrivals, history, arrives_eq_nil ha hquiet, publishes_eq_nil ha hquiet]
  obtain ⟨b, hb, hgiven, hfollowed⟩ := hs.followed_follow ho ha hlive honly name
  have hend := (hs.step k _).followed_run (ho.step k _) hb hgiven hfollowed hlast ⟨name, hheld⟩
  exact hend.follows (((hs.step k _).run later).wellFormed k last hlast)

namespace Sample

/-- A friend comes with a friend of hers, each of them gets a name, and a third friend goes and leaves
her id to the first one's other friend. -/
def acquainted : List (Nat × Command) :=
  [(0, .add .root { id := ⟨1⟩, field := "friend", children := [{ id := ⟨2⟩, field := "friend" }] }),
    (0, .add ⟨1⟩ { id := ⟨3⟩, field := "name" }), (0, .add ⟨2⟩ { id := ⟨4⟩, field := "name" }),
    (0, .apply ⟨[], [.add .root { id := ⟨5⟩, field := "friend" }, .delete ⟨5⟩,
      .add ⟨1⟩ { id := ⟨5⟩, field := "friend" }]⟩)]

end Sample

theorem follows_from_root_acquainted : ∃ a last : Session,
    (start Sample.setting Sample.person 1).sessions[0]? = some a ∧
    ((start Sample.setting Sample.person 1).run
      ((0, .follow (.node .root) "all") :: Sample.acquainted)).sessions[0]? = some last ∧
    last.Follows ⟨⟨0, .root⟩, 0⟩
      ((start Sample.setting Sample.person 1).arrivals 0
        ((0, .follow (.node .root) "all") :: Sample.acquainted))
      ((start Sample.setting Sample.person 1).history 0
        ((0, .follow (.node .root) "all") :: Sample.acquainted)) ∧
    ([.root, ⟨1⟩, ⟨2⟩, ⟨3⟩, ⟨4⟩, ⟨5⟩] : List NodeId).map (fun x => (last.tree.node? x).map
      fun n => last.switchboard.followers ⟨⟨0, .root⟩, 0⟩ n.hub) =
        [some 1, some 1, some 0, some 1, some 0, some 1] := by
  have hrun : (((start Sample.setting Sample.person 1).run
      ((0, .follow (.node .root) "all") :: Sample.acquainted)).sessions[0]?).map (fun last =>
        ([.root, ⟨1⟩, ⟨2⟩, ⟨3⟩, ⟨4⟩, ⟨5⟩] : List NodeId).map (fun x => (last.tree.node? x).map
          fun n => last.switchboard.followers ⟨⟨0, .root⟩, 0⟩ n.hub)) =
      some [some 1, some 1, some 0, some 1, some 0, some 1] := by cbv
  have hheld : (((start Sample.setting Sample.person 1).run
      ((0, .follow (.node .root) "all") :: Sample.acquainted)).handles.subscriptions["all"]?).map
        (fun sub => (sub.session, sub.item)) = some (0, ⟨⟨0, .root⟩, 0⟩) := by cbv
  obtain ⟨last, hlast, hcounts⟩ := Option.map_eq_some_iff.mp hrun
  obtain ⟨⟨j, sub⟩, hsub, hitem⟩ := Option.map_eq_some_iff.mp hheld
  obtain ⟨rfl, rfl⟩ := Prod.mk.inj hitem
  have honly : ∀ x, (Session.start Sample.setting Sample.person).tree.contains x → x = .root := by
    intro x hx
    rw [Session.start, Tree.contains_eq_isSome, Tree.node?_ofRoot] at hx
    split at hx
    · next heq => exact heq.symm
    · cases hx
  have horigin : (Session.start Sample.setting Sample.person).switchboard.nextSubscription
      ⟨0, .root⟩ = ⟨⟨0, .root⟩, 0⟩ := by cbv
  have hsub' : ((start Sample.setting Sample.person 1).run
      ([] ++ (0, .follow (.node .root) "all") :: Sample.acquainted)).handles.subscriptions["all"]? =
        some ⟨0, (Session.start Sample.setting Sample.person).switchboard.nextSubscription
          ⟨0, .root⟩⟩ := by
    rw [horigin, List.nil_append]
    exact hsub
  have hfollows := follows_from_root Sample.setting Sample.person 1 [] Sample.acquainted 0 "all"
    (.start Sample.setting Sample.person) last rfl (by cbv) honly hlast hsub'
  rw [horigin] at hfollows
  exact ⟨_, last, rfl, hlast, hfollows, hcounts⟩

end Server

end LiveQuery
