import LiveQuery.Proofs.Runs

/-!
# What an observer hears during a run

The events that reach one subscription of one session while commands are sent to all of them. Before
the subscription is made there are none. From then on they tell all that happens to the children of
the node, as long as the observer stays registered, and if the node is removed they say that too.
-/

namespace LiveQuery

namespace Server

/-- The events that reach a subscription of session `k`, in order. -/
def hears (s : Server) (k : Nat) (sub : Subscription) : List (Nat × Command) → List Event
  | [] => []
  | (j, c) :: rest => (if j = k then told sub (s.step j c).notices else []) ++
      (s.step j c).server.hears k sub rest

/-- No live node of session `k` has the hub. -/
def Lacks (s : Server) (k : Nat) (hub : HubId) : Prop :=
  ∀ session : Session, s.sessions[k]? = some session →
    ∀ x n, session.tree.node? x = some n → n.hub ≠ hub

section

variable {root : TypeDef} {s : Server} {k : Nat} {sub : Subscription} {a b : Session}

lemma hears_append (s : Server) (k : Nat) (sub : Subscription) (cs later : List (Nat × Command)) :
    s.hears k sub (cs ++ later) = s.hears k sub cs ++ (s.run cs).hears k sub later := by
  induction cs generalizing s with
  | nil => rfl
  | cons c rest ih => simp [hears, run, ih]

lemma onward_step (s : Server) (j : Nat) (c : Command) (hk : s.sessions[k]? = some a) :
    ∃ b : Session, (s.step j c).server.sessions[k]? = some b ∧
      a.switchboard.Onward b.switchboard := by
  obtain ⟨b, hb, ⟨-, -, honward, -⟩ | ⟨-, -, t, ps, -, -, rfl⟩⟩ := s.step_session j c hk
  · exact ⟨b, hb, honward⟩
  · exact ⟨_, hb, (Switchboard.deliverAll_grown a.switchboard ps).toOnward⟩

lemma onward_run (hk : s.sessions[k]? = some a) (cs : List (Nat × Command)) :
    ∃ b : Session, (s.run cs).sessions[k]? = some b ∧ a.switchboard.Onward b.switchboard := by
  induction cs generalizing s a with
  | nil => exact ⟨a, hk, Switchboard.Onward.refl _⟩
  | cons c rest ih =>
    obtain ⟨b, hb, honward⟩ := s.onward_step c.1 c.2 hk
    obtain ⟨d, hd, honward'⟩ := ih hb
    exact ⟨d, hd, honward.trans honward'⟩

lemma hears_eq_nil (hs : s.Sound root) (hk : s.sessions[k]? = some a) {cs : List (Nat × Command)}
    (hend : (s.run cs).sessions[k]? = some b)
    (hid : (b.switchboard.hub sub.hub).nextId ≤ sub.id) : s.hears k sub cs = [] := by
  induction cs generalizing s a with
  | nil => rfl
  | cons c rest ih =>
    obtain ⟨j, c⟩ := c
    obtain ⟨a', hk', hcase⟩ := s.step_session j c hk
    rw [hears, ih (hs.step j c) hk' hend, List.append_nil]
    split
    · next hj =>
      rcases hcase with ⟨-, -, -, hnone⟩ | ⟨-, -, t, ps, -, hnotices, rfl⟩
      · rw [hnone hj, told_nil]
      · rw [hnotices]
        refine (hs.switchboard k a hk).ordered.told_eq_nil ?_
        obtain ⟨b', hb', honward⟩ := onward_run hk' rest
        obtain rfl : b = b' := Option.some.inj (hend.symm.trans hb')
        exact Nat.le_trans (honward.nextId_le sub.hub) hid
    · rfl

lemma hears_of_dead (sub : Subscription) (hk : s.sessions[k]? = some a)
    (hdead : ¬ a.tree.isLive) (cs : List (Nat × Command)) : s.hears k sub cs = [] ∧
      ∃ b : Session, (s.run cs).sessions[k]? = some b ∧ b.tree.nodes = a.tree.nodes := by
  induction cs generalizing s a with
  | nil => exact ⟨rfl, a, hk, rfl⟩
  | cons c rest ih =>
    obtain ⟨j, c⟩ := c
    obtain ⟨a', hk', ⟨hnodes, -, -, hnone⟩ | ⟨-, hlive, -⟩⟩ := s.step_session j c hk
    · have hdead' : ¬ a'.tree.isLive := by
        rw [Tree.isLive_iff] at hdead ⊢
        simpa only [Tree.node?_congr hnodes] using hdead
      obtain ⟨hrest, b, hb, hnodes'⟩ := ih hk' hdead'
      refine ⟨?_, b, hb, hnodes'.trans hnodes⟩
      rw [hears, hrest, List.append_nil]
      split
      · next hj => rw [hnone hj, told_nil]
      · rfl
    · exact absurd hlive hdead

lemma registered_step (hs : s.Sound root) (hk : s.sessions[k]? = some a)
    (hsub : a.switchboard.Registered sub) {j : Nat} {c : Command} {cs : List (Nat × Command)}
    {a' : Session} (hk' : (s.step j c).server.sessions[k]? = some a')
    (hend : ((s.step j c).server.run cs).sessions[k]? = some b)
    (hlast : b.switchboard.Registered sub) : a'.switchboard.Registered sub := by
  obtain ⟨b', hb', honward'⟩ := onward_run hk' cs
  obtain rfl : b = b' := Option.some.inj (hend.symm.trans hb')
  obtain ⟨a'', ha'', honward⟩ := s.onward_step j c hk
  obtain rfl : a' = a'' := Option.some.inj (hk'.symm.trans ha'')
  refine honward'.registered hlast (Nat.lt_of_lt_of_le ?_ (honward.nextId_le sub.hub))
  exact (hs.switchboard k a hk).ordered.lt_of_registered hsub

/-- The events of one command take the children a registered observer knows to those there are
after it. Only where the tree is dropped there are none any more and nothing is heard. -/
lemma mirror_step (hs : s.Sound root) (hk : s.sessions[k]? = some a)
    (hsub : a.switchboard.Registered sub) (hhub : sub.hub.serial < a.tree.nextHub) {j : Nat}
    {c : Command} {a' : Session} (hk' : (s.step j c).server.sessions[k]? = some a') :
    ((j, c) = (k, .discard) ∧ told sub (s.step j c).notices = [] ∧ a'.tree.nodes = ∅) ∨
      (mirror (a.tree.view sub.hub) (if j = k then told sub (s.step j c).notices else []) =
          some (a'.tree.view sub.hub) ∧ a.tree.nextHub ≤ a'.tree.nextHub ∧
        (s.Lacks k sub.hub → (s.step j c).server.Lacks k sub.hub)) := by
  obtain ⟨b, hb, hcase⟩ := s.step_session j c hk
  obtain rfl : a' = b := Option.some.inj (hk'.symm.trans hb)
  have hlacks : (∀ x n, a'.tree.node? x = some n → n.hub = sub.hub →
      ∃ m, a.tree.node? x = some m ∧ m.hub = sub.hub) →
      s.Lacks k sub.hub → (s.step j c).server.Lacks k sub.hub := by
    intro hold hlacks session hsession x n hn heq
    obtain rfl : a' = session := Option.some.inj (hk'.symm.trans hsession)
    obtain ⟨m, hm, hmhub⟩ := hold x n hn heq
    exact hlacks a hk x m hm hmhub
  rcases hcase with ⟨hnodes, hnext, -, hnone⟩ | ⟨rfl, -, t, ps, heffect, hnotices, rfl⟩
  · refine .inr ⟨?_, Nat.le_of_eq hnext.symm, hlacks fun x n hn heq => ?_⟩
    · rw [Tree.view_congr hnodes]
      split
      · next hj => rw [hnone hj, told_nil, mirror_nil]
      · exact mirror_nil _
    · exact ⟨n, by rwa [← Tree.node?_congr hnodes], heq⟩
  · rw [hnotices, (hs.switchboard j a hk).ordered.told_deliverAll hsub]
    rcases effect?_cases heffect with ⟨rfl, rfl, rfl⟩ | ⟨-, hevolves⟩
    · exact .inl ⟨rfl, rfl, rfl⟩
    · have he := hevolves (hs.wellFormed j a hk)
      rw [if_pos rfl]
      refine .inr ⟨he.tracks sub.hub hhub, he.nextHub_le, hlacks fun x n hn heq => ?_⟩
      obtain ⟨m, hm, hmhub⟩ := he.hub_old x n hn (heq ▸ hhub)
      exact ⟨m, hm, hmhub.trans heq⟩

lemma Lacks.view_eq_nil (h : s.Lacks k sub.hub) (hk : s.sessions[k]? = some a) :
    a.tree.view sub.hub = [] :=
  Tree.view_eq_nil fun n hn => h a hk sub.hub.node n hn

lemma hears_discard (hk' : (s.step k .discard).server.sessions[k]? = some a)
    (hempty : a.tree.nodes = ∅) (hnone : told sub (s.step k .discard).notices = [])
    {cs : List (Nat × Command)}
    (hend : ((s.step k .discard).server.run cs).sessions[k]? = some b) :
    s.hears k sub ((k, .discard) :: cs) = [] ∧ ∀ x, b.tree.node? x = none := by
  have hdead : ¬ a.tree.isLive := by
    simp [Tree.isLive_iff, Tree.node?, hempty]
  obtain ⟨hsilent, b', hb', hnodes⟩ := hears_of_dead sub hk' hdead cs
  obtain rfl : b = b' := Option.some.inj (hend.symm.trans hb')
  refine ⟨?_, fun x => by simp [Tree.node?, hnodes, hempty]⟩
  rw [hears, if_pos rfl, hnone, hsilent, List.append_nil]

/-- What a registered observer hears takes the children it knows to the children there are, and to
none if the node was removed before its tree was dropped, if ever it was. -/
theorem mirror_hears (hs : s.Sound root) (hk : s.sessions[k]? = some a)
    (hsub : a.switchboard.Registered sub) (hhub : sub.hub.serial < a.tree.nextHub)
    {cs : List (Nat × Command)} (hend : (s.run cs).sessions[k]? = some b)
    (hlast : b.switchboard.Registered sub) :
    ∃ known, mirror (a.tree.view sub.hub) (s.hears k sub cs) = some known ∧
      (∀ x n, b.tree.node? x = some n → n.hub = sub.hub → known = n.children) ∧
      ∀ early late, cs = early ++ late → (k, Command.discard) ∉ early →
        (s.run early).Lacks k sub.hub → known = [] := by
  induction cs generalizing s a with
  | nil =>
    obtain rfl : a = b := Option.some.inj (hk.symm.trans hend)
    refine ⟨a.tree.view sub.hub, rfl, fun x n hn hx => ?_, fun early late hcs _ hlacks => ?_⟩
    · have hnode : sub.hub.node = x := hx ▸ ((hs.wellFormed k a hk).hub hn).1
      exact Tree.view_eq (hnode ▸ hn) hx
    · obtain ⟨rfl, -⟩ := List.append_eq_nil_iff.mp hcs.symm
      exact hlacks.view_eq_nil hk
  | cons c rest ih =>
    obtain ⟨j, c⟩ := c
    obtain ⟨a', hk', -⟩ := s.step_session j c hk
    have hsub' := registered_step hs hk hsub hk' hend hlast
    rcases mirror_step hs hk hsub hhub hk' with ⟨heq, hnone, hempty⟩ | ⟨hmirror, hnext, hlacks⟩
    · obtain ⟨rfl, rfl⟩ := Prod.mk.inj heq
      obtain ⟨hsilent, habsent⟩ := hears_discard hk' hempty hnone hend
      refine ⟨a.tree.view sub.hub, ?_, fun x n hn _ => ?_, fun early late hcs hearly hearlier => ?_⟩
      · rw [hsilent, mirror_nil]
      · rw [habsent x] at hn
        cases hn
      · cases early with
        | nil => exact hearlier.view_eq_nil hk
        | cons e early =>
          obtain ⟨rfl, -⟩ := List.cons.inj hcs
          exact absurd List.mem_cons_self hearly
    · obtain ⟨known, hknown, hlive, hgone⟩ :=
        ih (hs.step j c) hk' hsub' (Nat.lt_of_lt_of_le hhub hnext) hend
      refine ⟨known, ?_, hlive, fun early late hcs hearly hearlier => ?_⟩
      · rw [hears, mirror_append, hmirror]
        exact hknown
      · cases early with
        | nil => exact hgone [] rest rfl (by simp) (hlacks hearlier)
        | cons e early =>
          obtain ⟨rfl, rfl⟩ := List.cons.inj hcs
          exact hgone early late rfl (fun h => hearly (List.mem_cons_of_mem _ h)) hearlier

end

end Server

end LiveQuery
