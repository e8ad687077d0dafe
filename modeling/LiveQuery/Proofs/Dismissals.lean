import LiveQuery.Proofs.Followers
import LiveQuery.Proofs.Hearing
import LiveQuery.Proofs.Ownership

/-!
# Dismissals

A command dismisses nothing but a subscription that a client has under a handle, which it loses then.
What is dismissed takes along what belongs to it and nobody else. So a command that is no operation on
a tree leaves all followers where they are that belong to subscriptions still under a handle after it.
-/

namespace LiveQuery

namespace Server

/-- A client has the subscription to a hub of session `k` under some handle. -/
def Holds (s : Server) (k : Nat) (sub : Subscription) : Prop :=
  ∃ name : String, s.handles.subscriptions[name]? = some ⟨k, sub⟩

/-- Followers belong to whom they should in all sessions, nobody follows another subscription under
the number of one that is under a handle, and no subscription is under two handles. -/
structure Orderly (s : Server) : Prop where
  kin : ∀ (k : Nat) (a : Session), s.sessions[k]? = some a → a.switchboard.Kin
  heads : ∀ (name : String) (sub : Owned Subscription), s.handles.subscriptions[name]? = some sub →
    ∀ a : Session, s.sessions[sub.session]? = some a → a.switchboard.Heads sub.item sub.item
  distinct : ∀ (name name' : String) (sub : Owned Subscription),
    s.handles.subscriptions[name]? = some sub → s.handles.subscriptions[name']? = some sub →
    name = name'

/-- A subscription that was not given out before, and that nobody follows but those who began as it. -/
structure Enters (s s' : Server) (sub : Owned Subscription) : Prop where
  fresh : ∃ a : Session, s.sessions[sub.session]? = some a ∧ ¬ a.switchboard.Given sub.item
  heads : ∀ a' : Session, s'.sessions[sub.session]? = some a' →
    a'.switchboard.Heads sub.item sub.item

/-- Every session of `s'` is the session of `s` with the followers spared that are to be kept, and
what is under a handle was so before or is new. -/
structure Spares (keep : Nat → Subscription → Prop) (s s' : Server) : Prop where
  orderly : s'.Orderly
  session : ∀ (k : Nat) (a' : Session), s'.sessions[k]? = some a' →
    ∃ a : Session, s.sessions[k]? = some a ∧ a.switchboard.Spares (keep k) a'.switchboard
  held : ∀ (name : String) (sub : Owned Subscription), s'.handles.subscriptions[name]? = some sub →
    s.handles.subscriptions[name]? = some sub ∨
      ∃ a : Session, s.sessions[sub.session]? = some a ∧ ¬ a.switchboard.Given sub.item

section

variable {root : TypeDef} {s s' s'' : Server} {k : Nat} {a : Session} {c : Command}
  {keep : Nat → Subscription → Prop}

lemma subscriptions_openChannel {place : Place} {hub : Owned HubId}
    (hplace : s.hubAt? k place = .ok hub) (handle : String) :
    (s.openChannel k place handle).server.handles.subscriptions =
      (s.enlist hub handle (·.openChannel hub.item)).server.handles.subscriptions := by
  simp only [openChannel, hplace]
  split
  · next heq => rw [heq, handles_closeHandle]
  · rfl

lemma step_operation (s : Server) (k : Nat) (hc : c.isOperation) :
    (s.step k c).server = s ∨ ∃ a t ps, Delivers s k c (s.step k c) a t ps := by
  by_cases hdead : ∀ a : Session, s.sessions[k]? = some a → ¬ a.tree.isLive
  · exact .inl (step_of_dead hc hdead).1
  · push Not at hdead
    obtain ⟨a, hk, hlive⟩ := hdead
    exact .inr ⟨a, step_of_live hc hk hlive⟩

/-- What is under a handle stays as it should be, so only the one handle that is new has to be looked
at. -/
lemma Orderly.onward (h : s.Orderly) (handle : String)
    (hsession : ∀ (k : Nat) (a' : Session), s'.sessions[k]? = some a' → a'.switchboard.Kin ∧
      ∃ a : Session, s.sessions[k]? = some a ∧ a.switchboard.Onward a'.switchboard)
    (hhandle : ∀ (name : String) (sub : Owned Subscription),
      s'.handles.subscriptions[name]? = some sub →
        s.handles.subscriptions[name]? = some sub ∨ name = handle ∧ s.Enters s' sub) :
    s'.Orderly where
  kin k a' hk := (hsession k a' hk).1
  heads name sub hname a' hk := by
    obtain hold | ⟨-, hnew⟩ := hhandle name sub hname
    · obtain ⟨-, a, ha, honward⟩ := hsession sub.session a' hk
      exact (h.heads name sub hold a ha).onward honward
    · exact hnew.heads a' hk
  distinct name name' sub hname hname' := by
    have hnot : ∀ name : String, s.handles.subscriptions[name]? = some sub → ¬ s.Enters s' sub := by
      intro name hold hnew
      obtain ⟨a, ha, hfresh⟩ := hnew.fresh
      exact hfresh (h.heads name sub hold a ha).given
    obtain hold | ⟨heq, hnew⟩ := hhandle name sub hname
    · obtain hold' | ⟨-, hnew'⟩ := hhandle name' sub hname'
      · exact h.distinct name name' sub hold hold'
      · exact absurd hnew' (hnot name hold)
    · obtain hold' | ⟨heq', -⟩ := hhandle name' sub hname'
      · exact absurd hnew (hnot name' hold')
      · exact heq.trans heq'.symm

namespace Spares

lemma of_session (h : s.Orderly) (handle : String)
    (hsession : ∀ (k : Nat) (a' : Session), s'.sessions[k]? = some a' →
      ∃ a : Session, s.sessions[k]? = some a ∧ a.switchboard.Spares (keep k) a'.switchboard)
    (hhandle : ∀ (name : String) (sub : Owned Subscription),
      s'.handles.subscriptions[name]? = some sub →
        s.handles.subscriptions[name]? = some sub ∨ name = handle ∧ s.Enters s' sub) :
    s.Spares keep s' where
  orderly := by
    refine h.onward handle (fun k a' hk => ?_) hhandle
    obtain ⟨a, ha, hspares⟩ := hsession k a' hk
    exact ⟨hspares.kin, a, ha, hspares.toOnward⟩
  session := hsession
  held name sub hname := (hhandle name sub hname).imp_right fun hnew => hnew.2.fresh

lemma of_eq (h : s.Orderly) (hsessions : s'.sessions = s.sessions)
    (hhandles : s'.handles.subscriptions = s.handles.subscriptions) : s.Spares keep s' := by
  refine of_session h "" (fun k a hk => ?_) fun name sub hname => .inl (hhandles ▸ hname)
  rw [hsessions] at hk
  exact ⟨a, hk, .refl (h.kin k a hk)⟩

lemma refl (h : s.Orderly) : s.Spares keep s := of_eq h rfl rfl

lemma trans (h : s.Spares keep s') (h' : s'.Spares keep s'') : s.Spares keep s'' where
  orderly := h'.orderly
  session k a'' hk := by
    obtain ⟨a', ha', hspares'⟩ := h'.session k a'' hk
    obtain ⟨a, ha, hspares⟩ := h.session k a' ha'
    exact ⟨a, ha, hspares.trans hspares'⟩
  held name sub hname := by
    obtain hold | ⟨a', ha', hfresh⟩ := h'.held name sub hname
    · exact h.held name sub hold
    · obtain ⟨a, ha, hspares⟩ := h.session sub.session a' ha'
      exact .inr ⟨a, ha, fun hgiven => hfresh (hgiven.onward hspares.toOnward)⟩

end Spares

namespace Orderly

lemma modifySession (h : s.Orderly) {f : Session → Session}
    (hf : ∀ a : Session, s.sessions[k]? = some a →
      a.switchboard.Spares (keep k) (f a).switchboard) : s.Spares keep (s.modifySession k f) := by
  refine .of_session h "" (fun i a' hi => ?_) fun name sub hname => .inl hname
  obtain ⟨a, ha, rfl⟩ := of_getElem?_modifySession hi
  refine ⟨a, ha, ?_⟩
  split
  · next hk => subst hk; exact hf a ha
  · exact .refl (h.kin i a ha)

lemma modifyBindings (h : s.Orderly) (k : Nat) (f : Bindings → Bindings) :
    s.Spares keep (s.modifyBindings k f) :=
  h.modifySession fun a ha => .refl (h.kin k a ha)

lemma releaseHandle (h : s.Orderly) (handle : String) : s.Spares keep (s.releaseHandle handle) := by
  unfold Server.releaseHandle
  split
  · exact h.modifyBindings _ _
  · exact .refl h

lemma closeHandle (h : s.Orderly) (handle : String) : s.Spares keep (s.closeHandle handle) := by
  unfold Server.closeHandle
  split
  · next j channel _ =>
    exact h.modifySession fun a ha => .congr (h.kin j a ha) (fun _ => rfl) fun _ => rfl
  · exact .refl h

lemma dismissHandle (h : s.Orderly) (handle : String)
    (hnot : ∀ j sub, s.handles.subscriptions[handle]? = some ⟨j, sub⟩ →
      (∃ a : Session, s.sessions[j]? = some a) → ¬ keep j sub) :
    s.Spares keep (s.dismissHandle handle) := by
  unfold Server.dismissHandle
  split
  · next j sub hhandle =>
    exact h.modifySession fun a ha =>
      .dismiss (h.kin j a ha) (h.heads handle _ hhandle a ha) (hnot j sub hhandle ⟨a, ha⟩)
  · exact .refl h

lemma session_enlist (h : s.Orderly) (hub : Owned HubId) (handle : String)
    {register : Switchboard → Switchboard}
    (hregister : ∀ b : Switchboard, b.Kin → b.Spares (keep hub.session) (register b))
    (hkeep : ∀ j sub, keep j sub → (s.enlist hub handle register).server.Holds j sub)
    (hk : s.sessions[hub.session]? = some a) :
    s.Spares keep ((s.modifySwitchboard hub.session register).dismissHandle handle) ∧
    ∃ b : Session,
      ((s.modifySwitchboard hub.session register).dismissHandle handle).sessions[hub.session]? =
        some b ∧ (register a.switchboard).Spares (keep hub.session) b.switchboard := by
  have hsession := session?_eq_ok_iff.mpr hk
  have hfirst : s.Spares keep (s.modifySwitchboard hub.session register) :=
    h.modifySession fun a ha => hregister _ (h.kin hub.session a ha)
  have hregistered : (s.modifySwitchboard hub.session register).sessions[hub.session]? =
      some { a with switchboard := register a.switchboard } := by
    rw [modifySwitchboard, getElem?_modifySession, if_pos rfl, hk]
    rfl
  have hsecond : (s.modifySwitchboard hub.session register).Spares keep
      ((s.modifySwitchboard hub.session register).dismissHandle handle) := by
    refine hfirst.orderly.dismissHandle handle fun j sub hhandle ⟨a', ha'⟩ hkept => ?_
    -- what is under the handle now is new, and what was there is under no other handle
    obtain ⟨name, hname⟩ := hkeep j sub hkept
    simp only [Server.enlist, hsession, Std.ExtTreeMap.getElem?_insert] at hname
    split at hname
    · cases hname
      obtain ⟨b, hb, -⟩ := of_getElem?_modifySession ha'
      obtain rfl := Option.some.inj (hk.symm.trans hb)
      exact Nat.lt_irrefl _ (h.heads handle _ hhandle a hk).given
    · next hne =>
      rw [handles_dismissHandle] at hname
      exact hne (Std.compare_eq_iff_eq.mpr (h.distinct handle name ⟨j, sub⟩ hhandle hname))
  refine ⟨hfirst.trans hsecond, ?_⟩
  obtain ⟨b, hb, -⟩ := (steady_dismissHandle default _ handle).quiet hub.session _ hregistered
  obtain ⟨a', ha', hspares⟩ := hsecond.session hub.session b hb
  obtain rfl := Option.some.inj (hregistered.symm.trans ha')
  exact ⟨b, hb, hspares⟩

lemma enlist (h : s.Orderly) (hub : Owned HubId) (handle : String)
    {register : Switchboard → Switchboard}
    (hregister : ∀ b : Switchboard, b.Kin → b.Spares (keep hub.session) (register b) ∧
      (register b).Heads (b.nextSubscription hub.item) (b.nextSubscription hub.item))
    (hkeep : ∀ j sub, keep j sub → (s.enlist hub handle register).server.Holds j sub) :
    s.Spares keep (s.enlist hub handle register).server := by
  cases hsession : s.session? hub.session with
  | error e => simpa only [Server.enlist, hsession] using .refl h
  | ok a =>
    have hk := session?_eq_ok_iff.mp hsession
    obtain ⟨hspared, b, hb, hspares⟩ :=
      h.session_enlist hub handle (fun b hb => (hregister b hb).1) hkeep hk
    simp only [Server.enlist, hsession]
    refine .of_session h handle hspared.session fun name sub hname => ?_
    rw [Std.ExtTreeMap.getElem?_insert] at hname
    split at hname
    · next heq =>
      cases hname
      refine .inr ⟨(Std.compare_eq_iff_eq.mp heq).symm, ⟨a, hk, Nat.lt_irrefl _⟩, fun a' hk' => ?_⟩
      obtain rfl : b = a' := Option.some.inj (hb.symm.trans hk')
      exact (hregister _ (h.kin hub.session a hk)).2.onward hspares.toOnward
    · rw [handles_dismissHandle] at hname
      exact .inl hname

lemma acquire (h : s.Orderly) (k : Nat) (id : VariableId) (handle : String) :
    s.Spares keep (s.acquire k id handle).server := by
  unfold Server.acquire
  split
  · exact .refl h
  · split
    · exact .refl h
    · next b _ =>
      have htaken : s.Spares keep (s.modifyBindings k fun _ => b) := h.modifyBindings k _
      have hreleased : (s.modifyBindings k fun _ => b).Spares keep _ :=
        htaken.orderly.releaseHandle handle
      exact htaken.trans (hreleased.trans (.of_eq hreleased.orderly rfl rfl))

lemma release (h : s.Orderly) (handle : String) : s.Spares keep (s.release handle).server := by
  unfold Server.release
  split
  · exact .refl h
  · have hreleased : s.Spares keep (s.releaseHandle handle) := h.releaseHandle handle
    exact hreleased.trans (.of_eq hreleased.orderly rfl rfl)

lemma subscribe (h : s.Orderly) (k : Nat) (place : Place) (handle : String)
    (hkeep : ∀ j sub, keep j sub → (s.subscribe k place handle).server.Holds j sub) :
    s.Spares keep (s.subscribe k place handle).server := by
  unfold Server.subscribe at hkeep ⊢
  split
  · exact .refl h
  · exact .refl h
  · next hub hplace =>
    rw [hplace] at hkeep
    have hnobody : ∀ o, ¬ (Observer.recorder handle).follows o := fun _ => Bool.false_ne_true
    exact h.enlist hub handle (fun b hb => ⟨.subscribe hb hub.item _ hnobody,
      hb.ordered.heads_subscribe hub.item fun o ho => absurd ho (hnobody o)⟩) hkeep

lemma follow (h : s.Orderly) (k : Nat) (place : Place) (handle : String)
    (hkeep : ∀ j sub, keep j sub → (s.follow k place handle).server.Holds j sub) :
    s.Spares keep (s.follow k place handle).server := by
  unfold Server.follow at hkeep ⊢
  split
  · exact .refl h
  · next hub hplace =>
    rw [hplace] at hkeep
    exact h.enlist hub handle (fun b hb => ⟨.follow hb hub.item handle,
      (hb.ordered.heads_follower hub.item handle _).onward (.of_hub_eq fun _ => rfl)⟩) hkeep

lemma openChannel (h : s.Orderly) (k : Nat) (place : Place) (handle : String)
    (hkeep : ∀ j sub, keep j sub → (s.openChannel k place handle).server.Holds j sub) :
    s.Spares keep (s.openChannel k place handle).server := by
  cases hplace : s.hubAt? k place with
  | error e => simpa only [Server.openChannel, hplace] using .refl h
  | ok hub =>
    have hnobody : ∀ o, ¬ Observer.forwarder.follows o := fun _ => Bool.false_ne_true
    have henlist := h.enlist hub handle (fun b hb => ⟨.openChannel hb hub.item,
      (hb.ordered.heads_subscribe hub.item fun o ho => absurd ho (hnobody o)).onward
        (.of_hub_eq fun _ => rfl)⟩) fun j sub hkept => by
      obtain ⟨name, hname⟩ := hkeep j sub hkept
      exact ⟨name, (subscriptions_openChannel hplace handle) ▸ hname⟩
    simp only [Server.openChannel, hplace]
    split
    · next s' heq =>
      rw [heq] at henlist
      have hclosed : s'.Spares keep _ := henlist.orderly.closeHandle handle
      exact henlist.trans (hclosed.trans (.of_eq hclosed.orderly rfl rfl))
    · exact henlist

lemma unsubscribe (h : s.Orderly) (handle : String)
    (hkeep : ∀ j sub, keep j sub → (s.unsubscribe handle).server.Holds j sub) :
    s.Spares keep (s.unsubscribe handle).server := by
  unfold Server.unsubscribe at hkeep ⊢
  split
  · exact .refl h
  · next j sub hhandle =>
    split
    · exact .refl h
    · next a hsession =>
      simp only [hhandle, hsession] at hkeep
      have hdismissed : s.Spares keep (s.dismissHandle handle) := by
        refine h.dismissHandle handle fun i sub' hold _ hkept => ?_
        obtain ⟨name, hname⟩ := hkeep i sub' hkept
        simp only [Std.ExtTreeMap.getElem?_erase, handles_dismissHandle] at hname
        split at hname
        · cases hname
        · next hne => exact hne (Std.compare_eq_iff_eq.mpr (h.distinct handle name _ hold hname))
      refine .of_session h handle hdismissed.session fun name sub hname => .inl ?_
      rw [Std.ExtTreeMap.getElem?_erase] at hname
      split at hname
      · cases hname
      · rwa [handles_dismissHandle] at hname

lemma drain (h : s.Orderly) (handle : String) (keepHub : Option String) :
    s.Spares keep (s.drain handle keepHub).server := by
  unfold Server.drain
  split
  · exact .refl h
  · next j channel _ =>
    have hdrained : s.Spares keep (s.modifySwitchboard j (·.drain channel)) :=
      h.modifySession fun a ha => .congr (h.kin j a ha) (fun _ => rfl) fun _ => rfl
    split
    · exact .refl h
    · dsimp only
      split
      · exact hdrained.trans (.of_eq hdrained.orderly rfl rfl)
      · exact hdrained

lemma closeChannel (h : s.Orderly) (handle : String) :
    s.Spares keep (s.closeChannel handle).server := by
  unfold Server.closeChannel
  split
  · exact .refl h
  · have hclosed : s.Spares keep (s.closeHandle handle) := h.closeHandle handle
    exact hclosed.trans (.of_eq hclosed.orderly rfl rfl)

lemma keepHub (h : s.Orderly) (k : Nat) (node : NodeId) (handle : String) :
    s.Spares keep (s.keepHub k node handle).server := by
  unfold Server.keepHub
  split
  · exact .refl h
  · exact .of_eq h rfl rfl

/-- A command that is no operation on a tree spares the followers that began as subscriptions still
under a handle after it. -/
theorem spares (h : s.Orderly) (k : Nat) (hc : ¬ c.isOperation)
    (hkeep : ∀ j sub, keep j sub → (s.step k c).server.Holds j sub) :
    s.Spares keep (s.step k c).server := by
  cases c <;> simp only [Command.isOperation, not_true_eq_false] at hc
  case put id value =>
    simp only [step]
    split
    · exact .refl h
    · exact h.modifyBindings k (·.put id value)
  case acquire id handle => exact h.acquire k id handle
  case release handle => exact h.release handle
  case sweep =>
    simp only [step]
    split
    · exact .refl h
    · next a _ => exact h.modifyBindings k fun _ => a.tree.bindings.sweep.2
  case subscribe place handle => exact h.subscribe k place handle hkeep
  case follow place handle => exact h.follow k place handle hkeep
  case openChannel place handle => exact h.openChannel k place handle hkeep
  case unsubscribe handle => exact h.unsubscribe handle hkeep
  case drain handle keepHub => exact h.drain handle keepHub
  case closeChannel handle => exact h.closeChannel handle
  case keepHub node handle => exact h.keepHub k node handle

theorem step (h : s.Orderly) (k : Nat) (c : Command) : (s.step k c).server.Orderly := by
  by_cases hc : c.isOperation
  · obtain hsame | ⟨a, t, ps, hd⟩ := s.step_operation k hc
    · exact hsame.symm ▸ h
    · have hk := hd.session_eq
      rw [hd.server, setSession_eq hk]
      refine h.onward "" (fun i b' hi => ?_) fun name sub hname => .inl hname
      obtain ⟨b, hb, rfl⟩ := of_getElem?_modifySession hi
      split
      · exact ⟨(h.kin k a hk).deliverAll ps, a, ‹k = i› ▸ hk,
          (Switchboard.deliverAll_grown a.switchboard ps).toOnward⟩
      · exact ⟨h.kin i b hb, b, hb, .refl _⟩
  · exact (h.spares k hc fun _ _ => id).orderly

lemma run (h : s.Orderly) (cs : List (Nat × Command)) : (s.run cs).Orderly := by
  induction cs generalizing s with
  | nil => exact h
  | cons c rest ih => exact ih (h.step c.1 c.2)

/-- What is under a handle after a command and was given out before was under a handle before. -/
lemma holds_step (h : s.Orderly) (hk : s.sessions[k]? = some a) {sub : Subscription}
    (hgiven : a.switchboard.Given sub) {j : Nat} (hholds : (s.step j c).server.Holds k sub) :
    s.Holds k sub := by
  obtain ⟨name, hname⟩ := hholds
  by_cases hc : c.isOperation
  · obtain hsame | ⟨b, t, ps, hd⟩ := s.step_operation j hc
    · exact ⟨name, hsame ▸ hname⟩
    · rw [hd.server] at hname
      exact ⟨name, hname⟩
  · obtain hold | ⟨b, hb, hfresh⟩ := (h.spares j hc fun _ _ => id).held name _ hname
    · exact ⟨name, hold⟩
    · obtain rfl := Option.some.inj (hk.symm.trans hb)
      exact absurd hgiven hfresh

lemma holds_run (h : s.Orderly) (hk : s.sessions[k]? = some a) {sub : Subscription}
    (hgiven : a.switchboard.Given sub) {cs : List (Nat × Command)}
    (hholds : (s.run cs).Holds k sub) : s.Holds k sub := by
  induction cs generalizing s a with
  | nil => exact hholds
  | cons c rest ih =>
    obtain ⟨b, hb, honward⟩ := s.onward_step c.1 c.2 hk
    exact h.holds_step hk hgiven (ih (h.step c.1 c.2) hb (hgiven.onward honward) hholds)

theorem left_alone (h : s.Orderly) (hk : s.sessions[k]? = some a) {j : Nat}
    (hnot : ¬ (j = k ∧ a.tree.isLive ∧ c.isOperation)) : ∃ b : Session,
      (s.step j c).server.sessions[k]? = some b ∧ b.tree.nodes = a.tree.nodes ∧
      b.tree.nextHub = a.tree.nextHub ∧
      a.switchboard.Spares ((s.step j c).server.Holds k) b.switchboard := by
  by_cases hc : c.isOperation
  · suffices hsame : (s.step j c).server.sessions[k]? = s.sessions[k]? from
      ⟨a, hsame.trans hk, rfl, rfl, .refl (h.kin k a hk)⟩
    obtain hsame | ⟨b, t, ps, hd⟩ := s.step_operation j hc
    · rw [hsame]
    · have hne : j ≠ k := by
        rintro rfl
        obtain rfl : a = b := Option.some.inj (hk.symm.trans hd.session_eq)
        exact hnot ⟨rfl, hd.live, hc⟩
      rw [hd.server, setSession_eq hd.session_eq, getElem?_modifySession, if_neg hne]
  · obtain ⟨b, hb, ⟨hnodes, hnext, -⟩ | ⟨-, -, t, ps, heffect, -⟩⟩ := s.step_session j c hk
    · obtain ⟨a', ha', hspares⟩ := (h.spares j hc fun _ _ => id).session k b hb
      obtain rfl : a = a' := Option.some.inj (hk.symm.trans ha')
      exact ⟨b, hb, hnodes, hnext, hspares⟩
    · rw [Command.effect?_eq_none hc] at heffect
      cases heffect

end Orderly

lemma orderly_start (setting : Setting) (root : TypeDef) (count : Nat) :
    (start setting root count).Orderly where
  kin k a hk := by
    have ha : a = .start setting root := List.eq_of_mem_replicate (List.mem_of_getElem? hk)
    rw [ha]
    exact .empty
  heads name sub hname := by simp [start] at hname
  distinct name name' sub hname := by simp [start] at hname

end

end Server

end LiveQuery
