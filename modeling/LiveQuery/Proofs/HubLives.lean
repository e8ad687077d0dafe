import LiveQuery.Proofs.Histories
import LiveQuery.Proofs.Tethers
import LiveQuery.Proofs.Turns

/-!
# Lives of hubs in a run

Node ids come back, and so do the numbers of observers on a hub, but hubs do not. Whatever commands were
sent, what a session has published on one hub is the life of one node, told of by its own hub, and ends
with that node, however long the hub is kept. What was left of it on the switchboard can be dropped
without touching any other node.
-/

namespace LiveQuery

namespace Tree

section

variable {root : TypeDef} {s : Setting} {t t' : Tree} {ps : List Publication} {hub : HubId}

lemma family_ofRoot (root : TypeDef) (hub : HubId) : (ofRoot root).family hub = [] := by
  rw [List.eq_nil_iff_forall_not_mem]
  intro c hc
  obtain ⟨hp, n, hn, -⟩ := (wellFormed_ofRoot root).mem_family hc
  rw [parentOf_eq hn] at hp
  rw [node?_ofRoot] at hn
  split at hn
  · cases hn
    cases hp
  · cases hn

namespace Recounts

lemma life (h : Recounts root (ofRoot root) ps t) (hub : HubId) : ∃ life : Life,
    (Life.living []).after (eventsOn hub ps) = some life ∧ life.Settled ∧
      (t.Owns hub → life = .living (t.family hub)) := by
  by_cases hhub : (ofRoot root).Owns hub ∨ (ofRoot root).nextHub ≤ hub.serial
  · obtain ⟨life, hlife, hsettled, hstays, -⟩ := h.chronicles.lives hub hhub
    rw [family_ofRoot] at hlife
    exact ⟨life, hlife, hsettled, hstays⟩
  · obtain ⟨hnot, hlate⟩ := not_or.mp hhub
    rw [h.chronicles.gone hub (by omega) hnot]
    exact ⟨_, rfl, Life.settled_living _, fun hown =>
      absurd (h.advances.owns hub hown (by omega)) hnot⟩

lemma form (h : Recounts root (ofRoot root) ps t) (hub : HubId) : ∃ early children,
    Life.Leaves early children ∧ (eventsOn hub ps = early ∨
      eventsOn hub ps = early ++ .deleted :: children.map .childRemoved) := by
  obtain ⟨life, hlife, hsettled, -⟩ := h.life hub
  obtain ⟨early, children, hnot, hearly, hevents⟩ := Life.of_living_after hlife hsettled
  exact ⟨early, children, ⟨hnot, hearly⟩, hevents⟩

lemma leaves (h : Recounts root (ofRoot root) ps t) (hown : t.Owns hub) :
    Life.Leaves (eventsOn hub ps) (t.family hub) := by
  obtain ⟨life, hlife, -, hstays⟩ := h.life hub
  rw [hstays hown] at hlife
  exact Life.leaves_of_after hlife

lemma silent {qs : List Publication} {children : List Child}
    (h : Recounts root (ofRoot root) (ps ++ qs) t) {early : List Event}
    (hearly : Life.Leaves early children)
    (hps : eventsOn hub ps = early ++ .deleted :: children.map .childRemoved) :
    eventsOn hub qs = [] := by
  obtain ⟨life, hlife, -⟩ := h.life hub
  have hover : (Life.living []).after (eventsOn hub ps) = some (.leaving []) := by
    rw [hps, Life.after_append, hearly.after, Option.bind_some, Life.after_deleted]
  rw [eventsOn_append, Life.after_append, hover, Option.bind_some] at hlife
  exact Life.eq_nil_of_leaving_after hlife

lemma ended {qs : List Publication} (h : Recounts root (ofRoot root) ps t)
    (h' : Recounts root t qs t') (hown : t.Owns hub) (hgone : ¬ t'.Owns hub) :
    ∃ early children, Life.Leaves early children ∧
      eventsOn hub (ps ++ qs) = early ++ .deleted :: children.map .childRemoved := by
  obtain ⟨life, hlife, -, -, hleaving⟩ := h'.chronicles.lives hub (.inl hown)
  obtain ⟨early, children, hearly, hevents⟩ := (h.trans (wellFormed_ofRoot root) h').form hub
  refine ⟨early, children, hearly, hevents.resolve_left fun heq => ?_⟩
  have hafter := hearly.after
  rw [← heq, eventsOn_append, Life.after_append, (h.leaves hown).after, Option.bind_some, hlife,
    hleaving hown hgone] at hafter
  cases hafter

end Recounts

lemma WellFormed.recounts_stage (h : t.WellFormed root) {c : Command} (hc : c ≠ .discard) {n : Nat}
    {stage : Tree × List Publication} (hstage : c.stage? s t n = some stage) :
    Recounts root t stage.2 stage.1 := by
  cases n with
  | zero =>
    cases hstage
    exact .of_nodes_eq h rfl rfl
  | succ n =>
    have hcut : c.cut n ≠ .discard := by
      cases c <;> first | exact absurd rfl hc | simp [Command.cut]
    exact h.recounts_effect hcut hstage

/-- A node that goes from one stage of a command to the next has the last word on its hub. -/
lemma Recounts.disposed (h : Recounts root (ofRoot root) ps t) {c : Command} (hc : c ≠ .discard)
    {n : Nat} {first second : Tree × List Publication} (hfirst : c.stage? s t n = some first)
    (hsecond : c.stage? s t (n + 1) = some second) (hown : first.1.Owns hub)
    (hgone : ¬ second.1.Owns hub) : Life.Leaves (eventsOn hub (ps ++ first.2)) (first.1.family hub) ∧
      ∃ whole, c.effect? s t = some whole ∧ eventsOn hub (ps ++ whole.2) =
        eventsOn hub (ps ++ first.2) ++ .deleted :: (first.1.family hub).map .childRemoved := by
  have hw := h.advances.wellFormed
  have hroot := wellFormed_ofRoot root
  have hleaves := (h.trans hroot (hw.recounts_stage hc hfirst)).leaves hown
  obtain ⟨qs, hqs, hturns⟩ := hw.turns_stage hc hfirst hsecond
  have hupto : eventsOn hub (ps ++ second.2) =
      eventsOn hub (ps ++ first.2) ++ .deleted :: (first.1.family hub).map .childRemoved := by
    rw [hqs, ← List.append_assoc, eventsOn_append, hturns.gone hub hown hgone]
  have hop : c.isOperation := by
    by_contra hnot
    rw [← c.isOperation_cut n] at hnot
    rw [Command.stage?, Command.effect?_eq_none hnot] at hsecond
    cases hsecond
  obtain ⟨_, second', whole, -, hsecond', hwhole, hstaged⟩ := hw.staged_effect (s := s) hop n
  obtain rfl := Option.some.inj (hsecond'.symm.trans hsecond)
  obtain ⟨rs, hrs, -, -⟩ := hstaged.rest
  have hend := h.trans hroot (hw.recounts_effect hc hwhole)
  rw [hrs, ← List.append_assoc] at hend
  refine ⟨hleaves, whole, hwhole, ?_⟩
  rw [hrs, ← List.append_assoc, eventsOn_append, hend.silent hleaves hupto, List.append_nil, hupto]

end

end Tree

namespace Server

/-- The hubs that were there before: those of live nodes, those on which something was published, those
of the children that were told of, those somebody subscribed to, and those that are kept. -/
inductive Seen (s : Server) (k : Nat) (a : Session) (past : List Publication) : HubId → Prop
  | live {hub : HubId} (h : a.tree.Owns hub) : Seen s k a past hub
  | published {e : Publication} (h : e ∈ past) : Seen s k a past e.hub
  | told {e : Publication} {c : Child} (h : e ∈ past) (hc : e.event.child? = some c) :
    Seen s k a past c.hub
  | subscribed {hub : HubId} (h : a.switchboard.hub hub ≠ {}) : Seen s k a past hub
  | kept {name : String} {hub : HubId} (h : s.handles.hubs[name]? = some ⟨k, hub⟩) :
    Seen s k a past hub

/-- What is known of the hubs of a session that has published `past` and has come to `a`, and that
will have come to `b` when the commands `later` have been carried out. -/
structure HubLives (s : Server) (k : Nat) (a : Session) (past : List Publication)
    (later : List (Nat × Command)) (b : Session) : Prop where
  /-- A hub tells that children come and go, then that the node goes, then that the children go that
  are left, and then nothing. -/
  form : ∀ hub, ∃ early children, Life.Leaves early children ∧ (eventsOn hub past = early ∨
    eventsOn hub past = early ++ .deleted :: children.map .childRemoved)
  live : ∀ hub, a.tree.Owns hub → Life.Leaves (eventsOn hub past) (a.tree.family hub)
  ended : (k, .discard) ∉ later → ∀ hub, a.tree.Owns hub → ¬ b.tree.Owns hub →
    ∃ early children, Life.Leaves early children ∧
      eventsOn hub (past ++ s.history k later) = early ++ .deleted :: children.map .childRemoved
  /-- A node that goes in the course of a command has the children then with which its hub ends. -/
  disposed : a.tree.isLive → ∀ (c : Command) n first second, c ≠ .discard →
    c.stage? a.setting a.tree n = some first → c.stage? a.setting a.tree (n + 1) = some second →
    ∀ hub, first.1.Owns hub → ¬ second.1.Owns hub →
      Life.Leaves (eventsOn hub (past ++ first.2)) (first.1.family hub) ∧
      eventsOn hub (past ++ s.publishes k k c) =
        eventsOn hub (past ++ first.2) ++ .deleted :: (first.1.family hub).map .childRemoved
  /-- A hub that was there and belongs to no node will not belong to any node, and is silent. -/
  silent : ∀ hub, Seen s k a past hub → ¬ a.tree.Owns hub →
    eventsOn hub (s.history k later) = [] ∧ ¬ b.tree.Owns hub
  own : ∀ x n, a.tree.node? x = some n → n.hub.node = x
  onward : a.tree.nextHub ≤ b.tree.nextHub
  /-- Whatever tree takes in a node from then on, the node gets a hub that was not there, with a
  number that is used up. -/
  unused : ∀ (t t' : Tree) parent id field arguments n, a.tree.nextHub ≤ t.nextHub →
    t.sprout a.setting parent id field arguments = (.ok n, t') →
    ¬ Seen s k a past n.hub ∧ n.hub.serial < t'.nextHub
  fresh : ∀ c ∈ announced (s.history k later), ¬ Seen s k a past c.hub
  nodup : ((announced (past ++ s.history k later)).map (·.hub)).Nodup
  child : ∀ e ∈ past, ∀ c, e.event.child? = some c → c.hub.node = c.id ∧ c.hub ≠ e.hub
  /-- What a command tells of children is true of its tree, from stage to stage. -/
  turns : ∀ (c : Command) n first second, c ≠ .discard →
    c.stage? a.setting a.tree n = some first → c.stage? a.setting a.tree (n + 1) = some second →
    ∃ ps, second.2 = first.2 ++ ps ∧ first.1.Turns ps second.1
  delivered : ∀ c, (s.step k c).notices = (a.switchboard.deliverAll (s.publishes k k c)).1
  /-- Nothing that is dropped after its node has gone takes an observer off a live node's hub. -/
  dropped : ∀ sub : Subscription, ¬ a.tree.Owns sub.hub → ∀ hub, a.tree.Owns hub →
    (a.switchboard.dismiss sub).hub hub = a.switchboard.hub hub
  unsubscribed : ∀ handle sub j, s.handles.subscriptions[handle]? = some ⟨k, sub⟩ →
    ¬ a.tree.Owns sub.hub → ∃ a' : Session,
      (s.step j (.unsubscribe handle)).server.sessions[k]? = some a' ∧ a'.tree = a.tree ∧
      ∀ hub, a.tree.Owns hub → a'.switchboard.hub hub = a.switchboard.hub hub
  /-- A new subscription is made before it takes the handle of an old one, which is dropped. -/
  replaced : ∀ c place handle sub j new,
    c ∈ [Command.subscribe place handle, .follow place handle, .openChannel place handle] →
    s.hubAt? j place = .ok ⟨k, new⟩ → s.handles.subscriptions[handle]? = some ⟨k, sub⟩ →
    ¬ a.tree.Owns sub.hub → ∃ (a' : Session) (observer : Observer),
      (s.step j c).server.sessions[k]? = some a' ∧ a'.tree = a.tree ∧ ∀ hub, a.tree.Owns hub →
        a'.switchboard.hub hub = (a.switchboard.subscribe new observer).hub hub

section

variable {root : TypeDef} {s : Server} {k : Nat} {a b : Session} {past : List Publication}
  {t : Tree} {hub : HubId}

lemma Seen.serial_lt (h : Seen s k a past hub) (hs : s.Sound root) (hk : s.sessions[k]? = some a)
    (hnext : a.tree.nextHub = t.nextHub) (hpast : Tree.Recounts root (.ofRoot root) past t) :
    hub.serial < a.tree.nextHub := by
  cases h with
  | live hown => exact (hs.wellFormed k a hk).serial_lt hown
  | @published e he =>
    by_contra hlate
    have hsilent := hpast.chronicles.late e.hub (by omega)
    rw [eventsOn, List.filterMap_eq_nil_iff] at hsilent
    simpa using hsilent e he
  | told he hc => exact hnext ▸ hpast.advances.child_lt _ he _ hc
  | subscribed hsub =>
    by_contra hlate
    exact hsub ((hs.switchboard k a hk).unused hub (by omega))
  | kept hname => exact hs.hubs _ _ hname a hk

lemma step_unsubscribe (hk : s.sessions[k]? = some a) {handle : String} {sub : Subscription}
    (hhandle : s.handles.subscriptions[handle]? = some ⟨k, sub⟩) (j : Nat) :
    (s.step j (.unsubscribe handle)).server.sessions[k]? =
      some { a with switchboard := a.switchboard.dismiss sub } := by
  simp only [step, unsubscribe, hhandle, session?_eq_ok_iff.mpr hk, dismissHandle,
    modifySwitchboard, getElem?_modifySession, if_true, hk, Option.map_some]

lemma sessions_enlist (hk : s.sessions[k]? = some a) {handle : String} {sub : Subscription}
    (hhandle : s.handles.subscriptions[handle]? = some ⟨k, sub⟩) (new : HubId)
    (register : Switchboard → Switchboard) :
    (s.enlist ⟨k, new⟩ handle register).server.sessions[k]? =
      some { a with switchboard := (register a.switchboard).dismiss sub } := by
  have hhandle' : (s.modifySwitchboard k register).handles.subscriptions[handle]? =
      some ⟨k, sub⟩ := hhandle
  simp only [enlist, session?_eq_ok_iff.mpr hk, dismissHandle, hhandle']
  simp only [modifySwitchboard, getElem?_modifySession, if_true, hk, Option.map_some]

lemma hub_closeHandle (hk : s.sessions[k]? = some a) (handle : String) :
    ∃ a' : Session, (s.closeHandle handle).sessions[k]? = some a' ∧ a'.tree = a.tree ∧
      ∀ hub, a'.switchboard.hub hub = a.switchboard.hub hub := by
  unfold closeHandle
  split
  · next j channel _ =>
    rw [modifySwitchboard, getElem?_modifySession, hk]
    split
    · exact ⟨_, rfl, rfl, fun _ => rfl⟩
    · exact ⟨a, rfl, rfl, fun _ => rfl⟩
  · exact ⟨a, hk, rfl, fun _ => rfl⟩

lemma hub_replaced (ht : a.switchboard.Tethered a.tree) {sub : Subscription}
    (hgone : ¬ a.tree.Owns sub.hub) {c : Command} {place : Place} {handle : String} {j : Nat}
    {new : HubId}
    (hc : c ∈ [Command.subscribe place handle, .follow place handle, .openChannel place handle])
    (hplace : s.hubAt? j place = .ok ⟨k, new⟩) (hk : s.sessions[k]? = some a)
    (hhandle : s.handles.subscriptions[handle]? = some ⟨k, sub⟩) :
    ∃ (a' : Session) (observer : Observer), (s.step j c).server.sessions[k]? = some a' ∧
      a'.tree = a.tree ∧ ∀ hub, a.tree.Owns hub →
        a'.switchboard.hub hub = (a.switchboard.subscribe new observer).hub hub := by
  simp only [List.mem_cons, List.not_mem_nil, or_false] at hc
  obtain rfl | rfl | rfl := hc
  · have hstep : s.step j (.subscribe place handle) =
        s.enlist ⟨k, new⟩ handle (·.subscribe new (.recorder handle)) := by
      simp only [step, subscribe, hplace]
    rw [hstep]
    exact ⟨_, _, sessions_enlist hk hhandle new _, rfl, fun hub hown =>
      (ht.record new handle).hub_dismiss hgone hown⟩
  · have hstep : s.step j (.follow place handle) =
        s.enlist ⟨k, new⟩ handle (·.follow new handle) := by
      simp only [step, follow, hplace]
    rw [hstep]
    exact ⟨_, _, sessions_enlist hk hhandle new _, rfl, fun hub hown =>
      (ht.follow new handle).hub_dismiss hgone hown⟩
  · have hsession := sessions_enlist hk hhandle new (·.openChannel new)
    have hhub : ∀ hub, a.tree.Owns hub → ((a.switchboard.openChannel new).dismiss sub).hub hub =
        (a.switchboard.subscribe new .forwarder).hub hub :=
      fun hub hown => (ht.openChannel new).hub_dismiss hgone hown
    simp only [step, openChannel, hplace]
    split
    · next heq =>
      rw [heq] at hsession
      obtain ⟨a', ha', htree, hsame⟩ := hub_closeHandle hsession handle
      exact ⟨a', .forwarder, ha', htree, fun hub hown => (hsame hub).trans (hhub hub hown)⟩
    · exact ⟨_, .forwarder, hsession, rfl, hhub⟩

end

/-- The law of hubs, for every state a run reaches and every run from there. -/
theorem hub_lives (setting : Setting) (root : TypeDef) (count : Nat)
    (before later : List (Nat × Command)) (k : Nat) (a b : Session)
    (ha : ((start setting root count).run before).sessions[k]? = some a)
    (hb : ((start setting root count).run (before ++ later)).sessions[k]? = some b) :
    HubLives ((start setting root count).run before) k a
      ((start setting root count).history k before) later b := by
  have hstart : (start setting root count).Sound root := sound_start setting root count
  have hs := hstart.run before
  have hw := hs.wellFormed k a ha
  have ht := (tethered_start setting root count).run hstart before k a ha
  have hr := (start_of_run ha).1
  obtain ⟨t, hlast, hnext, hpast⟩ := hstart.recounts_run hr ha
  obtain ⟨u, -, -, hwhole⟩ := hstart.recounts_run hr hb
  rw [history_append] at hwhole
  rw [run_append] at hb
  obtain ⟨t', hlast', hnext', hrecent⟩ := hs.recounts_run ha hb
  have hlive : ∀ hub, a.tree.Owns hub → t = a.tree := fun hub ⟨n, hn, _⟩ =>
    hlast.resolve_right fun ⟨_, hempty⟩ => by simp [Tree.node?, hempty] at hn
  have hlive' : ∀ hub, b.tree.Owns hub → t' = b.tree := fun hub ⟨n, hn, _⟩ =>
    hlast'.resolve_right fun ⟨_, hempty⟩ => by simp [Tree.node?, hempty] at hn
  have hseen : ∀ hub, Seen ((start setting root count).run before) k a
      ((start setting root count).history k before) hub → hub.serial < a.tree.nextHub :=
    fun hub h => h.serial_lt hs ha hnext hpast
  constructor
  case form => exact hpast.form
  case live =>
    intro hub hown
    obtain rfl := hlive hub hown
    exact hpast.leaves hown
  case ended =>
    intro hkeep hub hown hgone
    obtain rfl := hlive hub hown
    obtain rfl := hlast'.resolve_right fun h => hkeep h.1
    exact hpast.ended hrecent hown hgone
  case disposed =>
    intro hroot c n first second hc hfirst hsecond hub hown hgone
    obtain ⟨m, hm⟩ := Tree.isLive_iff.mp hroot
    obtain rfl := hlive m.hub (Tree.owns_hub hw hm)
    obtain ⟨hleaves, whole, heffect, hevents⟩ := hpast.disposed hc hfirst hsecond hown hgone
    exact ⟨hleaves, (publishes_of_live ha hroot heffect).symm ▸ hevents⟩
  case silent =>
    intro hub hthere hgone
    have hlt := hseen hub hthere
    refine ⟨hrecent.chronicles.gone hub hlt hgone, fun hown => hgone ?_⟩
    obtain rfl := hlive' hub hown
    exact hrecent.advances.owns hub hown hlt
  case own => exact fun x n hn => (hw.hub hn).1
  case onward => exact hnext'.symm ▸ hrecent.advances.nextHub_le
  case unused =>
    intro v v' parent id field arguments n hle hsprout
    obtain ⟨m, -, -, -, -, -, -, hhub, -, hused, -⟩ := Tree.sprout_ok hsprout
    rw [hhub]
    refine ⟨fun hthere => ?_, by simp [hused]⟩
    have hlt := hseen _ hthere
    exact absurd hle (by simpa using hlt)
  case fresh =>
    intro c hc hthere
    have hle := hrecent.introduces.fresh c hc
    have hlt := hseen c.hub hthere
    omega
  case nodup => exact hwhole.introduces.nodup
  case child =>
    intro e he c hc
    obtain ⟨v, hv, hmem⟩ := hpast.introduces.truthful e he c hc
    exact ⟨(hv.hub_of_mem_family hmem).1, hv.hub_ne_of_mem_family hmem⟩
  case turns => exact fun c n first second hc hfirst hsecond => hw.turns_stage hc hfirst hsecond
  case delivered => exact fun c => notices_eq ha c
  case dropped => exact fun sub hgone hub hown => ht.hub_dismiss hgone hown
  case unsubscribed =>
    intro handle sub j hhandle hgone
    exact ⟨_, step_unsubscribe ha hhandle j, rfl, fun hub hown => ht.hub_dismiss hgone hown⟩
  case replaced =>
    intro c place handle sub j new hc hplace hhandle hgone
    exact hub_replaced ht hgone hc hplace ha hhandle

namespace Sample

/-- A friend is watched, her hub is kept, and she goes and comes back under the same id. -/
def returned : List (Nat × Command) :=
  [(0, .add .root { id := ⟨1⟩, field := "friend", children := [{ id := ⟨2⟩, field := "name" }] }),
    (0, .subscribe (.node ⟨1⟩) "old"), (0, .keepHub ⟨1⟩ "kept"), (0, .remove ⟨1⟩),
    (0, .add .root { id := ⟨1⟩, field := "friend" }), (0, .subscribe (.node ⟨1⟩) "new")]

def named : List (Nat × Command) := [(0, .add ⟨1⟩ { id := ⟨2⟩, field := "name" })]

/-- The hub the friend had, and the one she has. -/
def oldHub : HubId := ⟨1, ⟨1⟩⟩

def newHub : HubId := ⟨3, ⟨1⟩⟩

end Sample

/-- Both subscriptions have the same number, on hubs of nodes with the same id. -/
theorem hub_lives_returned : ∃ a b : Session,
    HubLives ((start Sample.setting Sample.person 1).run Sample.returned) 0 a
      ((start Sample.setting Sample.person 1).history 0 Sample.returned) Sample.named b ∧
    a.tree.Owns Sample.newHub ∧ ¬ a.tree.Owns Sample.oldHub ∧
    Seen ((start Sample.setting Sample.person 1).run Sample.returned) 0 a
      ((start Sample.setting Sample.person 1).history 0 Sample.returned) Sample.oldHub ∧
    eventsOn Sample.oldHub ((start Sample.setting Sample.person 1).history 0 Sample.returned) =
      [.childAdded ⟨⟨2⟩, "name", ⟨2, ⟨2⟩⟩⟩, .deleted, .childRemoved ⟨⟨2⟩, "name", ⟨2, ⟨2⟩⟩⟩] ∧
    eventsOn Sample.oldHub (((start Sample.setting Sample.person 1).run Sample.returned).history 0
      Sample.named) = [] ∧
    eventsOn Sample.newHub (((start Sample.setting Sample.person 1).run Sample.returned).history 0
      Sample.named) = [.childAdded ⟨⟨2⟩, "name", ⟨4, ⟨2⟩⟩⟩] ∧
    ∃ a' : Session, (((start Sample.setting Sample.person 1).run Sample.returned).step 0
      (.unsubscribe "old")).server.sessions[0]? = some a' ∧
      a'.switchboard.Registered ⟨Sample.newHub, 0⟩ := by
  have hrun : (((start Sample.setting Sample.person 1).run Sample.returned).sessions[0]?).map
      (fun a => ((a.tree.node? ⟨1⟩).map (·.hub),
        decide (a.switchboard.Registered ⟨Sample.newHub, 0⟩))) =
      some (some Sample.newHub, true) := by cbv
  have hold : ((start Sample.setting Sample.person 1).run
      Sample.returned).handles.subscriptions["old"]?.map (fun sub => (sub.session, sub.item)) =
      some (0, ⟨Sample.oldHub, 0⟩) := by cbv
  have hkept : ((start Sample.setting Sample.person 1).run
      Sample.returned).handles.hubs["kept"]?.map (fun hub => (hub.session, hub.item)) =
      some (0, Sample.oldHub) := by cbv
  have hend : (((start Sample.setting Sample.person 1).run
      (Sample.returned ++ Sample.named)).sessions[0]?).isSome := by cbv
  obtain ⟨a, ha, hnode⟩ := Option.map_eq_some_iff.mp hrun
  obtain ⟨b, hb⟩ := Option.isSome_iff_exists.mp hend
  obtain ⟨⟨i, sub⟩, hsub, hitem⟩ := Option.map_eq_some_iff.mp hold
  obtain ⟨⟨i', hub⟩, hhub, hitem'⟩ := Option.map_eq_some_iff.mp hkept
  obtain ⟨rfl, rfl⟩ := Prod.mk.inj hitem
  obtain ⟨rfl, rfl⟩ := Prod.mk.inj hitem'
  obtain ⟨hnew, hregistered⟩ := Prod.mk.inj hnode
  obtain ⟨n, hn, hnhub⟩ := Option.map_eq_some_iff.mp hnew
  have hlaw := hub_lives Sample.setting Sample.person 1 Sample.returned Sample.named 0 a b ha hb
  have hseen : Seen ((start Sample.setting Sample.person 1).run Sample.returned) 0 a
      ((start Sample.setting Sample.person 1).history 0 Sample.returned) Sample.oldHub := .kept hhub
  have hgone : ¬ a.tree.Owns Sample.oldHub := by
    rintro ⟨m, hm, hmhub⟩
    obtain rfl := Option.some.inj (hn.symm.trans hm)
    exact absurd (hnhub.symm.trans hmhub) (by decide)
  have hown : a.tree.Owns Sample.newHub := ⟨n, hn, hnhub⟩
  obtain ⟨a', ha', -, hsame⟩ := hlaw.unsubscribed "old" _ 0 hsub hgone
  refine ⟨a, b, hlaw, hown, hgone, hseen, by cbv, (hlaw.silent _ hseen hgone).1, by cbv, a', ha', ?_⟩
  rw [Switchboard.Registered, hsame _ hown]
  exact of_decide_eq_true hregistered

end Server

end LiveQuery
