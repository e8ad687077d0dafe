import LiveQuery.Proofs.Ownership

/-!
# Separation of sessions

Sessions that keep their hands off each other's handles do not notice each other. What a session is
answered, what its observers are told and what becomes of it is the same when the commands of all
others are left out, although they may choose the same node ids and variable ids.
-/

namespace LiveQuery

namespace Server

/-- To all appearances of session `k` the two responses are one. -/
structure Echoes (k : Nat) (r r' : Response) : Prop where
  reply : r'.reply = r.reply
  notices : r'.notices = r.notices
  server : Isolates k r.server r'.server

/-- While commands are carried out, session `k` and the others do not use each other's handles. -/
def Separate (k : Nat) (s : Server) : List (Nat × Command) → Prop
  | [] => True
  | (j, c) :: rest =>
    s.handles.Among (fun i => i = k ↔ j = k) c.names ∧ (s.step j c).server.Separate k rest

instance decidableSeparate (k : Nat) :
    ∀ (s : Server) (cs : List (Nat × Command)), Decidable (s.Separate k cs)
  | _, [] => .isTrue trivial
  | s, (j, c) :: rest =>
    have := decidableSeparate k (s.step j c).server rest
    inferInstanceAs (Decidable (_ ∧ _))

/-- What session `k` is answered and what its observers are told, command by command. -/
def transcript (k : Nat) (s : Server) : List (Nat × Command) → List (Reply × List Notice)
  | [] => []
  | (j, c) :: rest =>
    let r := s.step j c
    if j = k then (r.reply, r.notices) :: r.server.transcript k rest else r.server.transcript k rest

section

variable {s s' : Server} {j k : Nat} {handle : String} {hub : Owned HubId}
  {c : Command}

namespace Isolates

/-! ### Commands of the session -/

lemma refused (h : Isolates k s s') (e : Refusal) :
    Echoes k ⟨.refused e, [], s⟩ ⟨.refused e, [], s'⟩ :=
  ⟨rfl, rfl, h⟩

lemma onTree (h : Isolates k s s') {α : Type} (operation : Setting → Tree → Transition α)
    (reply : α → Reply) :
    Echoes k (s.onTree k operation reply) (s'.onTree k operation reply) := by
  simp only [Server.onTree, h.live?]
  cases s.live? k with
  | error e => exact h.refused e
  | ok a => exact ⟨rfl, rfl, h.setSession _⟩

lemma acquire (h : Isolates k s s') (id : VariableId)
    (hname : Owned.Among (· = k) s.handles.references [handle]) :
    Echoes k (s.acquire k id handle) (s'.acquire k id handle) := by
  simp only [Server.acquire, h.session?]
  cases s.session? k with
  | error e => exact h.refused e
  | ok a =>
    dsimp only
    cases a.tree.bindings.acquire? id with
    | none => exact ⟨rfl, rfl, h⟩
    | some taken =>
      have htaken := (h.modifyBindings fun _ => taken.2).releaseHandle hname
      refine ⟨rfl, rfl, htaken.session, ?_⟩
      simp only [htaken.handles, Handles.only, Owned.only_insert]

lemma release (h : Isolates k s s')
    (hname : Owned.Among (· = k) s.handles.references [handle]) :
    Echoes k (s.release handle) (s'.release handle) := by
  simp only [Server.release, h.references hname]
  cases s.handles.references[handle]? with
  | none => exact h.refused .noHandle
  | some o =>
    have hgiven := h.releaseHandle hname
    refine ⟨rfl, rfl, hgiven.session, ?_⟩
    simp only [hgiven.handles, Handles.only, Owned.only_erase]

lemma enlist (h : Isolates k s s') (register : Switchboard → Switchboard) (hhub : hub.session = k)
    (hname : Owned.Among (· = k) s.handles.subscriptions [handle]) :
    Echoes k (s.enlist hub handle register) (s'.enlist hub handle register) := by
  simp only [Server.enlist, hhub, h.session?]
  cases s.session? k with
  | error e => exact h.refused e
  | ok a =>
    have hlisted := (h.modifySwitchboard register).dismissHandle hname
    refine ⟨rfl, rfl, hlisted.session, ?_⟩
    simp only [hlisted.handles, Handles.only, Owned.only_insert]

lemma subscribe (h : Isolates k s s') {place : Place}
    (hplace : Owned.Among (· = k) s.handles.hubs place.names)
    (hname : Owned.Among (· = k) s.handles.subscriptions [handle]) :
    Echoes k (s.subscribe k place handle) (s'.subscribe k place handle) := by
  simp only [Server.subscribe, h.hubAt? hplace]
  split
  · exact ⟨rfl, rfl, h⟩
  · exact h.refused _
  · next hub hhub => exact h.enlist _ (session_of_hubAt? (P := (· = k)) rfl hplace hhub) hname

lemma follow (h : Isolates k s s') {place : Place}
    (hplace : Owned.Among (· = k) s.handles.hubs place.names)
    (hname : Owned.Among (· = k) s.handles.subscriptions [handle]) :
    Echoes k (s.follow k place handle) (s'.follow k place handle) := by
  simp only [Server.follow, h.hubAt? hplace]
  split
  · exact h.refused _
  · next hub hhub => exact h.enlist _ (session_of_hubAt? (P := (· = k)) rfl hplace hhub) hname

lemma openChannel (h : Isolates k s s') {place : Place}
    (hplace : Owned.Among (· = k) s.handles.hubs place.names)
    (hname : Owned.Among (· = k) s.handles.subscriptions [handle])
    (hchannel : Owned.Among (· = k) s.handles.channels [handle]) :
    Echoes k (s.openChannel k place handle) (s'.openChannel k place handle) := by
  simp only [Server.openChannel, h.hubAt? hplace]
  cases hhub : s.hubAt? k place with
  | error e => exact h.refused e
  | ok hub =>
    have hsession := session_of_hubAt? (P := (· = k)) rfl hplace hhub
    have hlisted := h.enlist (·.openChannel hub.item) hsession hname
    have hchannels := s.channels_enlist hub handle (·.openChannel hub.item)
    dsimp only
    generalize s.enlist hub handle (·.openChannel hub.item) = r at hlisted hchannels ⊢
    generalize s'.enlist hub handle (·.openChannel hub.item) = r' at hlisted ⊢
    obtain ⟨reply, notices, t⟩ := r
    obtain ⟨reply', notices', t'⟩ := r'
    obtain ⟨hreply, hnotices, ht⟩ := hlisted
    dsimp only at hreply hnotices ht hchannels
    subst hreply hnotices
    rw [← hchannels] at hchannel
    cases reply'
    case subscribed channel =>
      have hclosed := ht.closeHandle hchannel
      refine ⟨rfl, rfl, hclosed.session, ?_⟩
      simp only [hclosed.handles, Handles.only, Owned.only_insert, hsession]
    all_goals exact ⟨rfl, rfl, ht⟩

lemma unsubscribe (h : Isolates k s s')
    (hname : Owned.Among (· = k) s.handles.subscriptions [handle]) :
    Echoes k (s.unsubscribe handle) (s'.unsubscribe handle) := by
  simp only [Server.unsubscribe, h.subscriptions hname]
  cases ho : s.handles.subscriptions[handle]? with
  | none => exact h.refused .noHandle
  | some o =>
    obtain rfl : o.session = k := Owned.among_singleton.mp hname o ho
    dsimp only
    rw [h.session?]
    cases s.session? o.session with
    | error e => exact h.refused e
    | ok a =>
      have hdismissed := h.dismissHandle hname
      refine ⟨rfl, rfl, hdismissed.session, ?_⟩
      simp only [hdismissed.handles, Handles.only, Owned.only_erase]

lemma drain (h : Isolates k s s') (keepHub : Option String)
    (hname : Owned.Among (· = k) s.handles.channels [handle]) :
    Echoes k (s.drain handle keepHub) (s'.drain handle keepHub) := by
  simp only [Server.drain, h.channels hname]
  cases ho : s.handles.channels[handle]? with
  | none => exact h.refused .noHandle
  | some o =>
    obtain rfl : o.session = k := Owned.among_singleton.mp hname o ho
    dsimp only
    rw [h.session?]
    cases s.session? o.session with
    | error e => exact h.refused e
    | ok a =>
      have hdrained := h.modifySwitchboard (·.drain o.item)
      dsimp only
      split
      · refine ⟨rfl, rfl, hdrained.session, ?_⟩
        simp only [hdrained.handles, Handles.only, Owned.only_insert]
      · exact ⟨rfl, rfl, hdrained⟩

lemma closeChannel (h : Isolates k s s')
    (hname : Owned.Among (· = k) s.handles.channels [handle]) :
    Echoes k (s.closeChannel handle) (s'.closeChannel handle) := by
  simp only [Server.closeChannel, h.channels hname]
  cases s.handles.channels[handle]? with
  | none => exact h.refused .noHandle
  | some o =>
    have hclosed := h.closeHandle hname
    refine ⟨rfl, rfl, hclosed.session, ?_⟩
    simp only [hclosed.handles, Handles.only, Owned.only_erase]

lemma keepHub (h : Isolates k s s') (node : NodeId) (handle : String) :
    Echoes k (s.keepHub k node handle) (s'.keepHub k node handle) := by
  have hplace : Owned.Among (· = k) s.handles.hubs (Place.node node).names := by
    simp [Place.names, Owned.Among]
  simp only [Server.keepHub, h.hubAt? hplace]
  cases hhub : s.hubAt? k (.node node) with
  | error e => exact h.refused e
  | ok hub =>
    obtain rfl := session_of_hubAt? (P := (· = k)) rfl hplace hhub
    refine ⟨rfl, rfl, h.session, ?_⟩
    simp only [h.handles, Handles.only, Owned.only_insert]

/-- A session answers the same command alike in isolation, and stays isolated. -/
theorem step (h : Isolates k s s') (hnames : s.handles.Among (· = k) c.names) :
    Echoes k (s.step k c) (s'.step k c) := by
  by_cases hc : c.isOperation
  · obtain ⟨α, operation, reply, hstep, -⟩ := exists_operation hc
    rw [hstep, hstep]
    exact h.onTree operation reply
  · cases c <;> simp only [Command.isOperation, not_true_eq_false] at hc
    case put id value =>
      simp only [Server.step, h.session?]
      cases s.session? k with
      | error e => exact h.refused e
      | ok a => exact ⟨rfl, rfl, h.modifyBindings (·.put id value)⟩
    case acquire id handle => exact h.acquire id hnames.references
    case release handle => exact h.release hnames.references
    case sweep =>
      simp only [Server.step, h.session?]
      cases s.session? k with
      | error e => exact h.refused e
      | ok a => exact ⟨rfl, rfl, h.modifyBindings fun _ => a.tree.bindings.sweep.2⟩
    case subscribe place handle => exact h.subscribe hnames.hubs hnames.subscriptions
    case follow place handle => exact h.follow hnames.hubs hnames.subscriptions
    case openChannel place handle =>
      exact h.openChannel hnames.hubs hnames.subscriptions hnames.channels
    case unsubscribe handle => exact h.unsubscribe hnames.subscriptions
    case drain handle keepHub => exact h.drain keepHub hnames.channels
    case closeChannel handle => exact h.closeChannel hnames.channels
    case keepHub node handle => exact h.keepHub node handle

/-! ### Commands of other sessions -/

lemma of_onTree (h : Isolates k s s') (hj : j ≠ k) {α : Type}
    (operation : Setting → Tree → Transition α) (reply : α → Reply) :
    Isolates k (s.onTree j operation reply).server s' := by
  unfold Server.onTree
  split
  · exact h
  · exact h.of_setSession hj _

lemma of_acquire (h : Isolates k s s') (hj : j ≠ k) (id : VariableId)
    (hname : Owned.Among (· ≠ k) s.handles.references [handle]) :
    Isolates k (s.acquire j id handle).server s' := by
  unfold Server.acquire
  split
  · exact h
  · split
    · exact h
    · refine ((h.of_modifyBindings hj _).of_releaseHandle hname).of_handles ?_
      simp [Handles.only, Owned.only_insert_other hname, hj]

lemma of_release (h : Isolates k s s')
    (hname : Owned.Among (· ≠ k) s.handles.references [handle]) :
    Isolates k (s.release handle).server s' := by
  unfold Server.release
  split
  · exact h
  · refine (h.of_releaseHandle hname).of_handles ?_
    simp [Handles.only, Owned.only_erase_other hname]

lemma of_enlist (h : Isolates k s s') (register : Switchboard → Switchboard)
    (hhub : hub.session ≠ k)
    (hname : Owned.Among (· ≠ k) s.handles.subscriptions [handle]) :
    Isolates k (s.enlist hub handle register).server s' := by
  unfold Server.enlist
  split
  · exact h
  · refine ((h.of_modifySwitchboard hhub register).of_dismissHandle hname).of_handles ?_
    simp [Handles.only, Owned.only_insert_other hname, hhub]

lemma of_subscribe (h : Isolates k s s') (hj : j ≠ k) {place : Place}
    (hplace : Owned.Among (· ≠ k) s.handles.hubs place.names)
    (hname : Owned.Among (· ≠ k) s.handles.subscriptions [handle]) :
    Isolates k (s.subscribe j place handle).server s' := by
  unfold Server.subscribe
  split
  · exact h
  · exact h
  · next hub hhub => exact h.of_enlist _ (session_of_hubAt? (P := (· ≠ k)) hj hplace hhub) hname

lemma of_follow (h : Isolates k s s') (hj : j ≠ k) {place : Place}
    (hplace : Owned.Among (· ≠ k) s.handles.hubs place.names)
    (hname : Owned.Among (· ≠ k) s.handles.subscriptions [handle]) :
    Isolates k (s.follow j place handle).server s' := by
  unfold Server.follow
  split
  · exact h
  · next hub hhub => exact h.of_enlist _ (session_of_hubAt? (P := (· ≠ k)) hj hplace hhub) hname

lemma of_openChannel (h : Isolates k s s') (hj : j ≠ k) {place : Place}
    (hplace : Owned.Among (· ≠ k) s.handles.hubs place.names)
    (hname : Owned.Among (· ≠ k) s.handles.subscriptions [handle])
    (hchannel : Owned.Among (· ≠ k) s.handles.channels [handle]) :
    Isolates k (s.openChannel j place handle).server s' := by
  unfold Server.openChannel
  split
  · exact h
  · next hub hhub =>
    have hsession := session_of_hubAt? (P := (· ≠ k)) hj hplace hhub
    have hlisted := h.of_enlist (·.openChannel hub.item) hsession hname
    have hchannels := s.channels_enlist hub handle (·.openChannel hub.item)
    split
    · next channel notices t ht =>
      rw [ht] at hlisted hchannels
      rw [← hchannels] at hchannel
      refine (hlisted.of_closeHandle hchannel).of_handles ?_
      simp [Handles.only, Owned.only_insert_other hchannel, hsession]
    · exact hlisted

lemma of_unsubscribe (h : Isolates k s s')
    (hname : Owned.Among (· ≠ k) s.handles.subscriptions [handle]) :
    Isolates k (s.unsubscribe handle).server s' := by
  unfold Server.unsubscribe
  split
  · exact h
  · split
    · exact h
    · refine (h.of_dismissHandle hname).of_handles ?_
      simp [Handles.only, Owned.only_erase_other hname]

lemma of_drain (h : Isolates k s s') {keepHub : Option String}
    (hname : Owned.Among (· ≠ k) s.handles.channels [handle])
    (hkeep : Owned.Among (· ≠ k) s.handles.hubs keepHub.toList) :
    Isolates k (s.drain handle keepHub).server s' := by
  unfold Server.drain
  split
  · exact h
  · next i channel ho =>
    have hi : i ≠ k := Owned.among_singleton.mp hname _ ho
    have hdrained := h.of_modifySwitchboard hi (·.drain channel)
    split
    · exact h
    · dsimp only
      split
      · refine hdrained.of_handles ?_
        simp [Handles.only, Owned.only_insert_other hkeep, hi]
      · exact hdrained

lemma of_closeChannel (h : Isolates k s s')
    (hname : Owned.Among (· ≠ k) s.handles.channels [handle]) :
    Isolates k (s.closeChannel handle).server s' := by
  unfold Server.closeChannel
  split
  · exact h
  · refine (h.of_closeHandle hname).of_handles ?_
    simp [Handles.only, Owned.only_erase_other hname]

lemma of_keepHub (h : Isolates k s s') (hj : j ≠ k) (node : NodeId)
    (hname : Owned.Among (· ≠ k) s.handles.hubs [handle]) :
    Isolates k (s.keepHub j node handle).server s' := by
  unfold Server.keepHub
  split
  · exact h
  · next hub hhub =>
    have hplace : Owned.Among (· ≠ k) s.handles.hubs (Place.node node).names := by
      simp [Place.names, Owned.Among]
    have hsession := session_of_hubAt? (P := (· ≠ k)) hj hplace hhub
    refine h.of_handles ?_
    simp [Handles.only, Owned.only_insert_other hname, hsession]

theorem of_step (h : Isolates k s s') (hj : j ≠ k)
    (hnames : s.handles.Among (· ≠ k) c.names) : Isolates k (s.step j c).server s' := by
  by_cases hc : c.isOperation
  · obtain ⟨α, operation, reply, hstep, -⟩ := exists_operation hc
    rw [hstep]
    exact h.of_onTree hj operation reply
  · cases c <;> simp only [Command.isOperation, not_true_eq_false] at hc
    case put id value =>
      simp only [Server.step]
      split
      · exact h
      · exact h.of_modifyBindings hj (·.put id value)
    case acquire id handle => exact h.of_acquire hj id hnames.references
    case release handle => exact h.of_release hnames.references
    case sweep =>
      simp only [Server.step]
      split
      · exact h
      · next a _ => exact h.of_modifyBindings hj fun _ => a.tree.bindings.sweep.2
    case subscribe place handle => exact h.of_subscribe hj hnames.hubs hnames.subscriptions
    case follow place handle => exact h.of_follow hj hnames.hubs hnames.subscriptions
    case openChannel place handle =>
      exact h.of_openChannel hj hnames.hubs hnames.subscriptions hnames.channels
    case unsubscribe handle => exact h.of_unsubscribe hnames.subscriptions
    case drain handle keepHub => exact h.of_drain hnames.channels hnames.hubs
    case closeChannel handle => exact h.of_closeChannel hnames.channels
    case keepHub node handle => exact h.of_keepHub hj node hnames.hubs

/-! ### Whole runs -/

theorem run (h : Isolates k s s') {cs : List (Nat × Command)} (hsep : s.Separate k cs) :
    s'.transcript k (cs.filter (·.1 = k)) = s.transcript k cs ∧
      Isolates k (s.run cs) (s'.run (cs.filter (·.1 = k))) := by
  induction cs generalizing s s' with
  | nil => exact ⟨rfl, h⟩
  | cons c rest ih =>
    obtain ⟨j, c⟩ := c
    obtain ⟨hnames, hrest⟩ := hsep
    by_cases hj : j = k
    · subst hj
      have hecho := h.step (hnames.imp fun i hi => hi.mpr rfl)
      obtain ⟨htranscript, hrun⟩ := ih hecho.server hrest
      rw [List.filter_cons_of_pos (by simp)]
      refine ⟨?_, hrun⟩
      simp only [transcript, if_true, hecho.reply, hecho.notices, htranscript]
    · have hother := h.of_step hj (hnames.imp fun i hi => mt hi.mp hj)
      rw [List.filter_cons_of_neg (by simpa using hj)]
      simp only [transcript, if_neg hj]
      exact ih hother hrest

end Isolates

lemma separate_append (before : List (Nat × Command)) {later : List (Nat × Command)} :
    s.Separate k (before ++ later) ↔ s.Separate k before ∧ (s.run before).Separate k later := by
  induction before generalizing s with
  | nil => simp [Separate, Server.run]
  | cons c rest ih => simp [Separate, Server.run, ih, and_assoc]

lemma isolates_start (setting : Setting) (root : TypeDef) (count : Nat) :
    Isolates k (start setting root count) (start setting root count) where
  session := rfl
  handles := by
    have hempty : ∀ α : Type, Owned.only k (∅ : Std.ExtTreeMap String (Owned α)) = ∅ := by
      intro α
      apply Std.ExtTreeMap.ext_getElem?
      intro name
      rw [Owned.getElem?_only, Std.ExtTreeMap.getElem?_empty]
      rfl
    simp only [start, Handles.only, hempty]

end

/-- In any interleaving of commands to several sessions, as long as session `k` and the others do
not use each other's handles, session `k` is answered the same, its observers are told the same, and
it becomes the same, with the same handles, as when all commands of other sessions are left out. A
command of another session leaves it exactly as it was. -/
theorem sessions_separate (setting : Setting) (root : TypeDef) (count : Nat)
    (cs : List (Nat × Command)) (k : Nat) (hsep : (start setting root count).Separate k cs) :
    (start setting root count).transcript k cs =
        (start setting root count).transcript k (cs.filter (·.1 = k)) ∧
      ((start setting root count).run cs).sessions[k]? =
        ((start setting root count).run (cs.filter (·.1 = k))).sessions[k]? ∧
      ((start setting root count).run cs).handles.only k =
        ((start setting root count).run (cs.filter (·.1 = k))).handles ∧
      ∀ before j c later, cs = before ++ (j, c) :: later → j ≠ k →
        (((start setting root count).run before).step j c).server.sessions[k]? =
          ((start setting root count).run before).sessions[k]? := by
  have hstart := isolates_start (k := k) setting root count
  obtain ⟨htranscript, hrun⟩ := hstart.run hsep
  refine ⟨htranscript.symm, hrun.session.symm, hrun.handles.symm, ?_⟩
  rintro before j c later rfl hj
  obtain ⟨hbefore, hnames, -⟩ := (separate_append before).mp hsep
  have hisolated := (hstart.run hbefore).2
  have hother := hisolated.of_step hj (hnames.imp fun i hi => mt hi.mp hj)
  exact hother.session.symm.trans hisolated.session

namespace Sample

/-- Two clients choose the same ids for their variables and their nodes. One of them takes its tree
down while the other goes on. -/
def crossed : List (Nat × Command) :=
  [(0, .put year (.int 2020)), (1, .put year (.int 1999)), (0, .follow (.node .root) "ours"),
    (1, .openChannel (.node .root) "theirs"),
    (1, .add .root { id := ⟨1⟩, field := "friend", arguments := [⟨"since", year⟩] }),
    (0, .add .root { id := ⟨1⟩, field := "friend", arguments := [⟨"since", year⟩] }),
    (1, .acquire year "lent"), (0, .keepHub ⟨1⟩ "hub"), (1, .teardown), (1, .drain "theirs" none),
    (0, .sweep), (1, .release "lent"), (1, .sweep), (0, .subscribe (.handle "hub") "more"),
    (0, .apply ⟨[], [.delete ⟨1⟩]⟩)]

end Sample

theorem sessions_separate_crossed :
    (start Sample.setting Sample.person 2).Separate 0 Sample.crossed ∧
    (start Sample.setting Sample.person 2).transcript 0 Sample.crossed =
      (start Sample.setting Sample.person 2).transcript 0 (Sample.crossed.filter (·.1 = 0)) ∧
    ((start Sample.setting Sample.person 2).run Sample.crossed).sessions[0]? =
      ((start Sample.setting Sample.person 2).run
        (Sample.crossed.filter (·.1 = 0))).sessions[0]? := by
  have hsep : (start Sample.setting Sample.person 2).Separate 0 Sample.crossed := by decide +kernel
  obtain ⟨htranscript, hsession, -⟩ :=
    sessions_separate Sample.setting Sample.person 2 Sample.crossed 0 hsep
  exact ⟨hsep, htranscript, hsession⟩

end Server

end LiveQuery
