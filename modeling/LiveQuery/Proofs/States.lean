import LiveQuery.Proofs.Delivery
import LiveQuery.Server.Command

/-!
# States of a server

What holds whenever a server has carried out a command: all trees are well formed, all references
are accounted for, those kept under handles included, and the switchboards know of no hub that their
tree has not given out. The commands that work on bindings, observers and handles keep all of it,
and no observer notices them.
-/

namespace LiveQuery

namespace Server

/-- Those of some references that belong to session `k`. -/
def ofSession (k : Nat) (refs : List (Owned Reference)) : List Reference :=
  refs.filterMap fun r => if r.session = k then some r.item else none

/-- The references under handles, of all sessions. -/
def references (s : Server) : List (Owned Reference) := s.handles.references.toList.map (·.2)

/-- The references to bindings of session `k` that were handed out and not given back. -/
def outstanding (s : Server) (k : Nat) : List Reference := ofSession k s.references

/-- Every tree accounts for its share of some references that are out. -/
def Accounted (s : Server) (refs : List (Owned Reference)) : Prop :=
  ∀ (k : Nat) (session : Session), s.sessions[k]? = some session →
    session.tree.Accounts (ofSession k refs)

/-- What holds in every state of a run. -/
structure Sound (root : TypeDef) (s : Server) : Prop where
  wellFormed : ∀ (k : Nat) (session : Session), s.sessions[k]? = some session →
    session.tree.WellFormed root
  switchboard : ∀ (k : Nat) (session : Session), s.sessions[k]? = some session →
    session.switchboard.Sound session.tree.nextHub
  accounted : s.Accounted s.references
  hubs : ∀ (name : String) (hub : Owned HubId), s.handles.hubs[name]? = some hub →
    ∀ session : Session, s.sessions[hub.session]? = some session →
      hub.item.serial < session.tree.nextHub

/-- From `s` to `s'` no tree changed in what observers can see, and nobody was registered under a
number that was given out before. -/
def Quiet (s s' : Server) : Prop :=
  ∀ (k : Nat) (session : Session), s.sessions[k]? = some session → ∃ session' : Session,
    s'.sessions[k]? = some session' ∧
    session'.tree.nodes = session.tree.nodes ∧ session'.tree.nextHub = session.tree.nextHub ∧
    session.switchboard.Onward session'.switchboard

section

variable {root : TypeDef} {s s' s'' : Server} {k j : Nat} {session : Session}
  {refs : List (Owned Reference)}

lemma quiet_refl (s : Server) : s.Quiet s :=
  fun _ session h => ⟨session, h, rfl, rfl, Switchboard.Onward.refl _⟩

lemma Quiet.trans (h : s.Quiet s') (h' : s'.Quiet s'') : s.Quiet s'' := by
  intro k session hk
  obtain ⟨b, hb, hnodes, hnext, honward⟩ := h k session hk
  obtain ⟨c, hc, hnodes', hnext', honward'⟩ := h' k b hb
  exact ⟨c, hc, hnodes'.trans hnodes, hnext'.trans hnext, honward.trans honward'⟩

/-! ### Changing one session -/

lemma getElem?_modifySession (s : Server) (k i : Nat) (f : Session → Session) :
    (s.modifySession k f).sessions[i]? =
      if k = i then (s.sessions[i]?).map f else s.sessions[i]? := by
  rw [modifySession, List.getElem?_modify]
  split <;> simp

lemma modifySession_congr (hk : s.sessions[k]? = some session) {f g : Session → Session}
    (h : f session = g session) : s.modifySession k f = s.modifySession k g := by
  have hsessions : s.sessions.modify k f = s.sessions.modify k g := by
    apply List.ext_getElem?
    intro i
    rw [List.getElem?_modify, List.getElem?_modify]
    by_cases hi : k = i
    · subst hi
      simp [hk, h]
    · simp [hi]
  rw [modifySession, modifySession, hsessions]

lemma of_getElem?_modifySession {f : Session → Session} {i : Nat}
    (h : (s.modifySession k f).sessions[i]? = some session) :
    ∃ before, s.sessions[i]? = some before ∧ session = if k = i then f before else before := by
  rw [getElem?_modifySession] at h
  split at h
  · next hk =>
    obtain ⟨before, hbefore, rfl⟩ := Option.map_eq_some_iff.mp h
    exact ⟨before, hbefore, by rw [if_pos hk]⟩
  · next hk => exact ⟨session, h, by rw [if_neg hk]⟩

lemma quiet_modifySession {f : Session → Session}
    (hf : ∀ a, s.sessions[k]? = some a → (f a).tree.nodes = a.tree.nodes ∧
      (f a).tree.nextHub = a.tree.nextHub ∧ a.switchboard.Onward (f a).switchboard) :
    s.Quiet (s.modifySession k f) := by
  intro i a ha
  rw [getElem?_modifySession, ha]
  split
  · next h => subst h; exact ⟨f a, rfl, hf a ha⟩
  · exact ⟨a, rfl, rfl, rfl, Switchboard.Onward.refl _⟩

lemma quiet_modifyBindings (s : Server) (k : Nat) (f : Bindings → Bindings) :
    s.Quiet (s.modifyBindings k f) :=
  quiet_modifySession fun _ _ => ⟨rfl, rfl, Switchboard.Onward.refl _⟩

lemma quiet_modifySwitchboard {f : Switchboard → Switchboard}
    (hf : ∀ b : Switchboard, b.Onward (f b)) : s.Quiet (s.modifySwitchboard k f) :=
  quiet_modifySession fun a _ => ⟨rfl, rfl, hf a.switchboard⟩

/-! ### References that are out -/

lemma ofSession_perm {refs' : List (Owned Reference)} (h : refs.Perm refs') (k : Nat) :
    (ofSession k refs).Perm (ofSession k refs') :=
  h.filterMap _

lemma ofSession_cons (r : Owned Reference) (refs : List (Owned Reference)) (k : Nat) :
    ofSession k (r :: refs) =
      if r.session = k then r.item :: ofSession k refs else ofSession k refs := by
  by_cases h : r.session = k <;> simp [ofSession, h]

namespace Accounted

lemma perm {refs' : List (Owned Reference)} (h : s.Accounted refs) (hp : refs.Perm refs') :
    s.Accounted refs' := fun k session hk =>
  Bindings.Exact.perm (h k session hk) ((ofSession_perm hp k).append_left _)

lemma modifySession (h : s.Accounted refs) {f : Session → Session}
    (hf : ∀ session : Session, s.sessions[k]? = some session → ∀ out, session.tree.Accounts out →
      (f session).tree.Accounts out) : (s.modifySession k f).Accounted refs := by
  intro i session hi
  obtain ⟨before, hbefore, rfl⟩ := of_getElem?_modifySession hi
  split
  · next hk => subst hk; exact hf before hbefore _ (h k before hbefore)
  · exact h i before hbefore

lemma acquire (h : s.Accounted refs) (hk : s.sessions[k]? = some session) {id : VariableId}
    {r : Reference} {b : Bindings} (hr : session.tree.bindings.acquire? id = some (r, b)) :
    (s.modifyBindings k fun _ => b).Accounted (⟨k, r⟩ :: refs) := by
  intro i session' hi
  obtain ⟨before, hbefore, rfl⟩ := of_getElem?_modifySession hi
  rw [ofSession_cons]
  by_cases hik : k = i
  · subst hik
    rw [hk] at hbefore
    cases hbefore
    simp only [if_true]
    exact ((h k session hk).acquire hr).perm List.perm_middle.symm
  · simp only [hik, if_false]
    exact h i before hbefore

lemma release {r : Owned Reference} (h : s.Accounted (r :: refs)) :
    (s.modifyBindings r.session (·.release r.item.variableId)).Accounted refs := by
  intro i session hi
  obtain ⟨before, hbefore, rfl⟩ := of_getElem?_modifySession hi
  have haccounts := h i before hbefore
  rw [ofSession_cons] at haccounts
  by_cases hir : r.session = i
  · simp only [hir, if_true] at haccounts ⊢
    exact (Bindings.Exact.perm haccounts List.perm_middle).release
  · simp only [hir, if_false] at haccounts ⊢
    exact haccounts

lemma releaseHandle (extra : List (Owned Reference)) (h : s.Accounted (extra ++ s.references))
    (handle : String) : (s.releaseHandle handle).Accounted
      (extra ++ (s.handles.references.erase handle).toList.map (·.2)) := by
  unfold Server.releaseHandle
  cases hold : s.handles.references[handle]? with
  | none =>
    rw [erase_eq_of_absent hold]
    exact h
  | some old =>
    refine release (h.perm ?_)
    have hperm := (toList_perm_erase hold).map (·.2)
    exact (hperm.append_left extra).trans List.perm_middle

end Accounted

/-! ### Commands that are not seen by observers -/

/-- A change that observers do not see and that keeps what holds in every state. -/
structure Steady (root : TypeDef) (s s' : Server) : Prop where
  quiet : s.Quiet s'
  sound : s.Sound root → s'.Sound root

namespace Steady

lemma refl (root : TypeDef) (s : Server) : Steady root s s := ⟨quiet_refl s, id⟩

lemma trans (h : Steady root s s') (h' : Steady root s' s'') : Steady root s s'' :=
  ⟨h.quiet.trans h'.quiet, h'.sound ∘ h.sound⟩

lemma of_eq (hsessions : s'.sessions = s.sessions)
    (hreferences : s'.handles.references = s.handles.references)
    (hhubs : s'.handles.hubs = s.handles.hubs) : Steady root s s' where
  quiet k session hk := by
    rw [hsessions]
    exact quiet_refl s k session hk
  sound h := by
    constructor
    · rw [hsessions]
      exact h.wellFormed
    · rw [hsessions]
      exact h.switchboard
    · rw [Accounted, hsessions, references, hreferences]
      exact h.accounted
    · rw [hsessions, hhubs]
      exact h.hubs

end Steady

lemma Sound.modifySession (h : s.Sound root) {f : Session → Session}
    (hf : ∀ a : Session, s.sessions[k]? = some a → (f a).tree.WellFormed root ∧
      (f a).switchboard.Sound (f a).tree.nextHub ∧ a.tree.nextHub ≤ (f a).tree.nextHub ∧
      ∀ out, a.tree.Accounts out → (f a).tree.Accounts out) :
    (s.modifySession k f).Sound root := by
  constructor
  · intro i session hi
    obtain ⟨a, ha, rfl⟩ := of_getElem?_modifySession hi
    split
    · next hk => subst hk; exact (hf a ha).1
    · exact h.wellFormed i a ha
  · intro i session hi
    obtain ⟨a, ha, rfl⟩ := of_getElem?_modifySession hi
    split
    · next hk => subst hk; exact (hf a ha).2.1
    · exact h.switchboard i a ha
  · exact h.accounted.modifySession fun a ha => (hf a ha).2.2.2
  · intro name hub hhub session hi
    obtain ⟨a, ha, rfl⟩ := of_getElem?_modifySession hi
    have hlt := h.hubs name hub hhub a ha
    split
    · next hk => rw [hk] at hf; exact Nat.lt_of_lt_of_le hlt (hf a ha).2.2.1
    · exact hlt

lemma steady_modifyBindings (root : TypeDef) (s : Server) (k : Nat) (f : Bindings → Bindings)
    (hf : ∀ a : Session, s.sessions[k]? = some a → ∀ out, a.tree.bindings.Exact out →
      (f a.tree.bindings).Exact out) : Steady root s (s.modifyBindings k f) where
  quiet := quiet_modifyBindings s k f
  sound h := h.modifySession fun a ha => ⟨(h.wellFormed k a ha).congr rfl (Nat.le_refl _),
    h.switchboard k a ha, Nat.le_refl _, fun out hout => hf a ha (a.tree.held ++ out) hout⟩

lemma steady_modifySwitchboard (root : TypeDef) (s : Server) (k : Nat)
    {f : Switchboard → Switchboard} (hf : ∀ b : Switchboard, b.Onward (f b))
    (hsound : s.Sound root → ∀ a : Session, s.sessions[k]? = some a →
      a.switchboard.Sound a.tree.nextHub → (f a.switchboard).Sound a.tree.nextHub) :
    Steady root s (s.modifySwitchboard k f) where
  quiet := quiet_modifySwitchboard hf
  sound h := h.modifySession fun a ha => ⟨h.wellFormed k a ha,
    hsound h a ha (h.switchboard k a ha), Nat.le_refl _, fun _ hout => hout⟩

lemma steady_dismissHandle (root : TypeDef) (s : Server) (handle : String) :
    Steady root s (s.dismissHandle handle) := by
  unfold dismissHandle
  split
  · next j subscription _ =>
    exact steady_modifySwitchboard root s j (fun b => b.onward_dismiss subscription)
      fun _ _ _ hb => hb.dismiss subscription
  · exact Steady.refl root s

lemma steady_closeHandle (root : TypeDef) (s : Server) (handle : String) :
    Steady root s (s.closeHandle handle) := by
  unfold closeHandle
  split
  · next j channel _ =>
    exact steady_modifySwitchboard root s j (fun b => Switchboard.Onward.of_hub_eq fun _ => rfl)
      fun _ _ _ hb => hb.closeChannel channel
  · exact Steady.refl root s

/-- A command whose response carries no notice and leaves a steady server. -/
def Unnoticed (root : TypeDef) (s : Server) (r : Response) : Prop :=
  Steady root s r.server ∧ r.notices = []

lemma unnoticed_refused (root : TypeDef) (s : Server) (reply : Reply) :
    Unnoticed root s ⟨reply, [], s⟩ :=
  ⟨Steady.refl root s, rfl⟩

lemma Sound.hubAt?_lt (h : s.Sound root) {place : Place} {hub : Owned HubId}
    (hplace : s.hubAt? k place = .ok hub) (hsession : s.sessions[hub.session]? = some session) :
    hub.item.serial < session.tree.nextHub := by
  cases place with
  | handle name =>
    simp only [hubAt?] at hplace
    split at hplace
    · next hname =>
      cases hplace
      exact h.hubs name hub hname session hsession
    · cases hplace
  | node id =>
    simp only [hubAt?] at hplace
    split at hplace
    · cases hplace
    · next a hlive =>
      split at hplace
      · next n hn =>
        cases hplace
        obtain ⟨ha, -⟩ := live?_eq_ok_iff.mp hlive
        obtain rfl : a = session := Option.some.inj (ha.symm.trans hsession)
        exact ((h.wellFormed k a ha).hub hn).2
      · cases hplace

lemma unnoticed_enlist (root : TypeDef) (s : Server) (hub : Owned HubId) (handle : String)
    (register : Switchboard → Switchboard) (honward : ∀ b : Switchboard, b.Onward (register b))
    (hhub : s.Sound root → ∀ session : Session, s.sessions[hub.session]? = some session →
      hub.item.serial < session.tree.nextHub)
    (hsound : ∀ n (b : Switchboard), hub.item.serial < n → b.Sound n → (register b).Sound n) :
    Unnoticed root s (s.enlist hub handle register) := by
  unfold enlist
  split
  · exact unnoticed_refused root s _
  · refine ⟨?_, rfl⟩
    have hregister := steady_modifySwitchboard root s hub.session honward fun h a ha hb =>
      hsound _ _ (hhub h a ha) hb
    exact (hregister.trans (steady_dismissHandle root _ handle)).trans
      (Steady.of_eq rfl rfl rfl)

/-! ### Taking references and giving them back -/

/-- At most the bindings of trees have changed. -/
def Rebound (s s' : Server) : Prop :=
  ∀ (k : Nat) (session' : Session), s'.sessions[k]? = some session' → ∃ session : Session,
    s.sessions[k]? = some session ∧ session'.tree.nodes = session.tree.nodes ∧
    session'.tree.nextHub = session.tree.nextHub ∧ session'.switchboard = session.switchboard

lemma Rebound.trans (h : s.Rebound s') (h' : s'.Rebound s'') : s.Rebound s'' := by
  intro k c hc
  obtain ⟨b, hb, hnodes, hnext, hswitch⟩ := h' k c hc
  obtain ⟨a, ha, hnodes', hnext', hswitch'⟩ := h k b hb
  exact ⟨a, ha, hnodes.trans hnodes', hnext.trans hnext', hswitch.trans hswitch'⟩

lemma rebound_modifyBindings (s : Server) (k : Nat) (f : Bindings → Bindings) :
    s.Rebound (s.modifyBindings k f) := by
  intro i session hi
  obtain ⟨a, ha, rfl⟩ := of_getElem?_modifySession hi
  refine ⟨a, ha, ?_⟩
  split <;> exact ⟨rfl, rfl, rfl⟩

lemma releaseHandle_spec (s : Server) (handle : String) :
    s.Quiet (s.releaseHandle handle) ∧ s.Rebound (s.releaseHandle handle) ∧
      (s.releaseHandle handle).handles = s.handles := by
  unfold releaseHandle
  split
  · exact ⟨quiet_modifyBindings s _ _, rebound_modifyBindings s _ _, rfl⟩
  · exact ⟨quiet_refl s, fun k a ha => ⟨a, ha, rfl, rfl, rfl⟩, rfl⟩

lemma Sound.of_rebound (h : s.Sound root) (hs : s.Rebound s')
    (haccounted : s'.Accounted s'.references) (hhubs : s'.handles.hubs = s.handles.hubs) :
    s'.Sound root := by
  constructor
  · intro k b hb
    obtain ⟨a, ha, hnodes, hnext, -⟩ := hs k b hb
    exact (h.wellFormed k a ha).congr hnodes (Nat.le_of_eq hnext.symm)
  · intro k b hb
    obtain ⟨a, ha, -, hnext, hswitch⟩ := hs k b hb
    rw [hnext, hswitch]
    exact h.switchboard k a ha
  · exact haccounted
  · intro name hub hname b hb
    obtain ⟨a, ha, -, hnext, -⟩ := hs hub.session b hb
    rw [hnext]
    rw [hhubs] at hname
    exact h.hubs name hub hname a ha

lemma unnoticed_acquire (root : TypeDef) (s : Server) (k : Nat) (id : VariableId)
    (handle : String) : Unnoticed root s (s.acquire k id handle) := by
  unfold acquire
  split
  · exact unnoticed_refused root s _
  · next session hsession =>
    have hk := session?_eq_ok_iff.mp hsession
    split
    · exact unnoticed_refused root s _
    · next r b hr =>
      obtain ⟨hquiet, hrebound, hhandles⟩ :=
        (s.modifyBindings k fun _ => b).releaseHandle_spec handle
      refine ⟨⟨(quiet_modifyBindings s k _).trans hquiet, fun h => ?_⟩, rfl⟩
      refine h.of_rebound ((rebound_modifyBindings s k fun _ => b).trans hrebound) ?_ ?_
      · have htaken := h.accounted.acquire hk hr
        have hreleased := Accounted.releaseHandle [⟨k, r⟩] htaken handle
        have hinsert := (insert_toList_perm s.handles.references handle ⟨k, r⟩).map (·.2)
        simp only [references, hhandles]
        exact hreleased.perm hinsert.symm
      · simp only [hhandles]
        rfl

lemma unnoticed_release (root : TypeDef) (s : Server) (handle : String) :
    Unnoticed root s (s.release handle) := by
  unfold release
  split
  · exact unnoticed_refused root s _
  · obtain ⟨hquiet, hrebound, hhandles⟩ := s.releaseHandle_spec handle
    refine ⟨⟨hquiet, fun h => h.of_rebound hrebound ?_ ?_⟩, rfl⟩
    · have hreleased := Accounted.releaseHandle [] h.accounted handle
      simp only [references, hhandles]
      exact hreleased
    · simp only [hhandles]

lemma unnoticed_put (root : TypeDef) (s : Server) (k : Nat) (id : VariableId) (value : Json) :
    Unnoticed root s (s.step k (.put id value)) := by
  simp only [step]
  split
  · exact unnoticed_refused root s _
  · exact ⟨steady_modifyBindings root s k (·.put id value) fun _ _ _ hout => hout.put id value, rfl⟩

lemma unnoticed_sweep (root : TypeDef) (s : Server) (k : Nat) :
    Unnoticed root s (s.step k .sweep) := by
  simp only [step]
  split
  · exact unnoticed_refused root s _
  · next session hsession =>
    have hk := session?_eq_ok_iff.mp hsession
    refine ⟨steady_modifyBindings root s k (fun _ => session.tree.bindings.sweep.2)
      fun a ha out hout => ?_, rfl⟩
    rw [hk] at ha
    cases ha
    exact hout.sweep

/-! ### Observers and channels -/

lemma unnoticed_subscribe (root : TypeDef) (s : Server) (k : Nat) (place : Place)
    (handle : String) : Unnoticed root s (s.subscribe k place handle) := by
  unfold subscribe
  split
  · exact unnoticed_refused root s _
  · exact unnoticed_refused root s _
  · next hub hplace =>
    exact unnoticed_enlist root s hub handle _ (fun b => (b.grown_subscribe _ _).toOnward)
      (fun h _ hsession => h.hubAt?_lt hplace hsession) fun _ _ hlt hb => hb.subscribe hlt _

lemma unnoticed_follow (root : TypeDef) (s : Server) (k : Nat) (place : Place)
    (handle : String) : Unnoticed root s (s.follow k place handle) := by
  unfold follow
  split
  · exact unnoticed_refused root s _
  · next hub hplace =>
    exact unnoticed_enlist root s hub handle _ (fun b => b.onward_follow _ _)
      (fun h _ hsession => h.hubAt?_lt hplace hsession) fun _ _ hlt hb => hb.follow hlt _

lemma unnoticed_openChannel (root : TypeDef) (s : Server) (k : Nat) (place : Place)
    (handle : String) : Unnoticed root s (s.openChannel k place handle) := by
  unfold openChannel
  split
  · exact unnoticed_refused root s _
  · next hub hplace =>
    have henlist := unnoticed_enlist root s hub handle (·.openChannel hub.item)
      (fun b => b.onward_openChannel _)
      (fun h _ hsession => h.hubAt?_lt hplace hsession) fun _ _ hlt hb => hb.openChannel hlt
    dsimp only
    split
    · next channel notices s' hresponse =>
      rw [hresponse] at henlist
      exact ⟨(henlist.1.trans (steady_closeHandle root s' handle)).trans
        (Steady.of_eq rfl rfl rfl), henlist.2⟩
    · exact henlist

lemma unnoticed_unsubscribe (root : TypeDef) (s : Server) (handle : String) :
    Unnoticed root s (s.unsubscribe handle) := by
  unfold unsubscribe
  split
  · exact unnoticed_refused root s _
  · split
    · exact unnoticed_refused root s _
    · exact ⟨(steady_dismissHandle root s handle).trans (Steady.of_eq rfl rfl rfl), rfl⟩

lemma unnoticed_closeChannel (root : TypeDef) (s : Server) (handle : String) :
    Unnoticed root s (s.closeChannel handle) := by
  unfold closeChannel
  split
  · exact unnoticed_refused root s _
  · exact ⟨(steady_closeHandle root s handle).trans (Steady.of_eq rfl rfl rfl), rfl⟩

lemma steady_insertHub (root : TypeDef) (s : Server) (name : String) {hub : Owned HubId}
    (hhub : s.Sound root → ∀ session : Session, s.sessions[hub.session]? = some session →
      hub.item.serial < session.tree.nextHub) :
    Steady root s { s with handles.hubs := s.handles.hubs.insert name hub } where
  quiet := quiet_refl s
  sound h := by
    refine ⟨h.wellFormed, h.switchboard, h.accounted, fun other hub' hname => ?_⟩
    rw [Std.ExtTreeMap.getElem?_insert] at hname
    split at hname
    · cases hname
      exact hhub h
    · exact h.hubs other hub' hname

lemma unnoticed_keepHub (root : TypeDef) (s : Server) (k : Nat) (node : NodeId)
    (handle : String) : Unnoticed root s (s.keepHub k node handle) := by
  unfold keepHub
  split
  · exact unnoticed_refused root s _
  · next hub hplace =>
    exact ⟨steady_insertHub root s handle fun h _ hsession => h.hubAt?_lt hplace hsession, rfl⟩

lemma unnoticed_drain (root : TypeDef) (s : Server) (handle : String) (keepHub : Option String) :
    Unnoticed root s (s.drain handle keepHub) := by
  unfold drain
  split
  · exact unnoticed_refused root s _
  · next j channel _ =>
    split
    · exact unnoticed_refused root s _
    · next session hsession =>
      have hj := session?_eq_ok_iff.mp hsession
      have hdrain : Steady root s (s.modifySwitchboard j (·.drain channel)) :=
        steady_modifySwitchboard root s j (fun b => Switchboard.Onward.of_hub_eq fun _ => rfl)
          fun _ _ _ hb => hb.drain channel
      dsimp only
      split
      · next name child hchild =>
        refine ⟨⟨hdrain.quiet, fun h => ?_⟩, rfl⟩
        refine (steady_insertHub root _ name fun _ after hafter => ?_).sound (hdrain.sound h)
        obtain ⟨before, hbefore, rfl⟩ := of_getElem?_modifySession hafter
        obtain rfl : session = before := Option.some.inj (hj.symm.trans hbefore)
        obtain ⟨e, he, hec⟩ := List.mem_filterMap.mp (List.mem_of_getLast? hchild)
        simpa using (h.switchboard j session hj).child_lt_of_waiting he hec
      · exact ⟨hdrain, rfl⟩

end

end Server

end LiveQuery
