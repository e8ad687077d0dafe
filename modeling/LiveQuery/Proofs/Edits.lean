import LiveQuery.Proofs.Runs

/-!
# Edits

A command that is no operation on a tree changes the bindings and the observers of sessions only, by
a few edits one after the other, and the table of handles. What every edit respects such commands
respect.
-/

namespace LiveQuery

/-- What can happen to a session while its nodes stay as they are. -/
inductive Edit where
  | put (id : VariableId) (value : Json)
  | acquire (id : VariableId)
  | release (id : VariableId)
  | sweep
  | record (hub : HubId) (label : String)
  | follow (hub : HubId) (label : String)
  | openChannel (hub : HubId)
  | dismiss (subscription : Subscription)
  | drain (channel : Subscription)
  | closeChannel (channel : Subscription)

namespace Edit

def onBindings (b : Bindings) : Edit → Bindings
  | put id value => b.put id value
  | acquire id => ((b.acquire? id).map (·.2)).getD b
  | release id => b.release id
  | sweep => b.sweep.2
  | _ => b

def onSwitchboard (b : Switchboard) : Edit → Switchboard
  | record hub label => b.subscribe hub (.recorder label)
  | follow hub label => b.follow hub label
  | openChannel hub => b.openChannel hub
  | dismiss subscription => b.dismiss subscription
  | drain channel => b.drain channel
  | closeChannel channel => b.closeChannel channel
  | _ => b

def apply (e : Edit) (a : Session) : Session :=
  { a with
    tree := { a.tree with bindings := e.onBindings a.tree.bindings }
    switchboard := e.onSwitchboard a.switchboard }

/-- Only an assignment gives a variable a value. -/
def isAssignment : Edit → Bool
  | put _ _ => true
  | _ => false

end Edit

namespace Server

/-- The sessions of `s'` are those of `s` after some edits, which are all of one kind. -/
def Tended (P : Edit → Prop) (s s' : Server) : Prop :=
  ∃ edits : List (Nat × Edit), (∀ e ∈ edits, P e.2) ∧
    s'.sessions = edits.foldl (fun sessions e => sessions.modify e.1 e.2.apply) s.sessions

section

variable {P : Edit → Prop} {s s' s'' : Server} {k : Nat} {c : Command}

namespace Tended

lemma of_sessions_eq (h : s'.sessions = s.sessions) : s.Tended P s' :=
  ⟨[], by simp, h⟩

lemma refl (s : Server) : s.Tended P s := of_sessions_eq rfl

lemma trans (h : s.Tended P s') (h' : s'.Tended P s'') : s.Tended P s'' := by
  obtain ⟨edits, hfirst, hs'⟩ := h
  obtain ⟨later, hsecond, hs''⟩ := h'
  refine ⟨edits ++ later, ?_, ?_⟩
  · intro e he
    rcases List.mem_append.mp he with he | he
    · exact hfirst e he
    · exact hsecond e he
  · rw [hs'', hs', List.foldl_append]

lemma imp {Q : Edit → Prop} (h : s.Tended P s') (hPQ : ∀ e, P e → Q e) : s.Tended Q s' := by
  obtain ⟨edits, hedits, hs'⟩ := h
  exact ⟨edits, fun e he => hPQ e.2 (hedits e he), hs'⟩

lemma edit (s : Server) (k : Nat) {e : Edit} (he : P e) :
    s.Tended P (s.modifySession k e.apply) :=
  ⟨[(k, e)], by simpa using he, rfl⟩

/-- What relates a session to the same session after one edit, and is kept up by several, relates
the sessions of a server to those that were tended. -/
theorem session {R : Session → Session → Prop} (h : s.Tended P s') (hrefl : ∀ a, R a a)
    (htrans : ∀ a b c, R a b → R b c → R a c)
    (hedit : ∀ (a : Session) (e : Edit), P e → R a (e.apply a)) {a' : Session}
    (hk : s'.sessions[k]? = some a') : ∃ a, s.sessions[k]? = some a ∧ R a a' := by
  obtain ⟨edits, hedits, hs'⟩ := h
  rw [hs'] at hk
  clear hs'
  generalize s.sessions = sessions at hk ⊢
  induction edits generalizing sessions with
  | nil => exact ⟨a', hk, hrefl a'⟩
  | cons e rest ih =>
    obtain ⟨he, hrest⟩ := List.forall_mem_cons.mp hedits
    obtain ⟨b, hb, hba⟩ := ih hrest (sessions.modify e.1 e.2.apply) hk
    rw [List.getElem?_modify] at hb
    obtain ⟨a, ha, rfl⟩ := Option.map_eq_some_iff.mp hb
    refine ⟨a, ha, ?_⟩
    split at hba
    · exact htrans a _ a' (hedit a e.2 he) hba
    · exact hba

end Tended

lemma tended_releaseHandle (s : Server) (handle : String) :
    s.Tended (·.isAssignment = false) (s.releaseHandle handle) := by
  unfold releaseHandle
  split
  · next j reference _ => exact Tended.edit s j (e := .release reference.variableId) rfl
  · exact Tended.refl s

lemma tended_dismissHandle (s : Server) (handle : String) :
    s.Tended (·.isAssignment = false) (s.dismissHandle handle) := by
  unfold dismissHandle
  split
  · next j subscription _ => exact Tended.edit s j (e := .dismiss subscription) rfl
  · exact Tended.refl s

lemma tended_closeHandle (s : Server) (handle : String) :
    s.Tended (·.isAssignment = false) (s.closeHandle handle) := by
  unfold closeHandle
  split
  · next j channel _ => exact Tended.edit s j (e := .closeChannel channel) rfl
  · exact Tended.refl s

lemma tended_enlist (s : Server) (hub : Owned HubId) (handle : String)
    (register : Switchboard → Switchboard) {e : Edit} (he : e.isAssignment = false)
    (hregister : s.modifySwitchboard hub.session register = s.modifySession hub.session e.apply) :
    s.Tended (·.isAssignment = false) (s.enlist hub handle register).server := by
  unfold enlist
  split
  · exact Tended.refl s
  · rw [hregister]
    exact (Tended.edit s hub.session he).trans (tended_dismissHandle _ handle)

theorem tended_step_of_ne_put (s : Server) (k : Nat) (hc : ¬ c.isOperation)
    (hput : ∀ id value, c ≠ .put id value) :
    s.Tended (·.isAssignment = false) (s.step k c).server := by
  cases c <;> simp only [Command.isOperation, not_true_eq_false] at hc
  case put id value => exact absurd rfl (hput id value)
  case acquire id handle =>
    simp only [step, acquire]
    split
    · exact Tended.refl s
    · next session hsession =>
      split
      · exact Tended.refl s
      · next r b hr =>
        have hacquire : (s.modifyBindings k fun _ => b) =
            s.modifySession k (Edit.apply (.acquire id)) := by
          refine modifySession_congr (session?_eq_ok_iff.mp hsession) ?_
          simp only [Edit.apply, Edit.onBindings, Edit.onSwitchboard, hr, Option.map_some,
            Option.getD_some]
        rw [hacquire]
        exact (Tended.edit (P := (·.isAssignment = false)) s k rfl).trans
          (tended_releaseHandle _ handle)
  case release handle =>
    simp only [step, release]
    split
    · exact Tended.refl s
    · exact tended_releaseHandle s handle
  case sweep =>
    simp only [step]
    split
    · exact Tended.refl s
    · next session hsession =>
      have hsweep : (s.modifyBindings k fun _ => session.tree.bindings.sweep.2) =
          s.modifySession k (Edit.apply .sweep) :=
        modifySession_congr (session?_eq_ok_iff.mp hsession) rfl
      rw [hsweep]
      exact Tended.edit s k rfl
  case subscribe place handle =>
    simp only [step, subscribe]
    split
    · exact Tended.refl s
    · exact Tended.refl s
    · next hub _ =>
      exact tended_enlist s hub handle (·.subscribe hub.item (.recorder handle))
        (e := .record hub.item handle) rfl rfl
  case follow place handle =>
    simp only [step, follow]
    split
    · exact Tended.refl s
    · next hub _ =>
      exact tended_enlist s hub handle (·.follow hub.item handle)
        (e := .follow hub.item handle) rfl rfl
  case openChannel place handle =>
    simp only [step, openChannel]
    split
    · exact Tended.refl s
    · next hub _ =>
      have henlist := tended_enlist s hub handle (·.openChannel hub.item)
        (e := .openChannel hub.item) rfl rfl
      split
      · next heq =>
        rw [heq] at henlist
        exact henlist.trans (tended_closeHandle _ handle)
      · exact henlist
  case unsubscribe handle =>
    simp only [step, unsubscribe]
    split
    · exact Tended.refl s
    · split
      · exact Tended.refl s
      · exact tended_dismissHandle s handle
  case drain handle keepHub =>
    simp only [step, drain]
    split
    · exact Tended.refl s
    · next j channel _ =>
      have hdrain : s.Tended (·.isAssignment = false) (s.modifySwitchboard j (·.drain channel)) :=
        Tended.edit s j (e := .drain channel) rfl
      split
      · exact Tended.refl s
      · split <;> exact hdrain
  case closeChannel handle =>
    simp only [step, closeChannel]
    split
    · exact Tended.refl s
    · exact tended_closeHandle s handle
  case keepHub node handle =>
    simp only [step, keepHub]
    split <;> exact Tended.of_sessions_eq rfl

theorem tended_step (s : Server) (k : Nat) (hc : ¬ c.isOperation) :
    s.Tended (fun _ => True) (s.step k c).server := by
  by_cases hput : ∃ id value, c = .put id value
  · obtain ⟨id, value, rfl⟩ := hput
    simp only [step]
    split
    · exact Tended.refl s
    · exact Tended.edit s k (e := .put id value) trivial
  · push Not at hput
    exact (s.tended_step_of_ne_put k hc hput).imp fun _ _ => trivial

end

end Server

end LiveQuery
