import LiveQuery.Proofs.Runs

/-!
# What belongs to a session

All that sessions share are the names of handles. A handle belongs to the session that gave out what
it stands for, and a command uses what is kept under the names it mentions. A session is isolated in
a server that has nothing but this session and its own handles.
-/

namespace LiveQuery

namespace Owned

section

variable {α : Type} {m : Std.ExtTreeMap String (Owned α)} {name : String} {j k : Nat}
  {P : Nat → Prop}

/-- The entries of a table that belong to session `k`. -/
def only (k : Nat) (m : Std.ExtTreeMap String (Owned α)) : Std.ExtTreeMap String (Owned α) :=
  m.filter fun _ o => o.session = k

/-- What is kept under some names belongs to sessions of a kind. -/
def Among (P : Nat → Prop) (m : Std.ExtTreeMap String (Owned α)) (names : List String) : Prop :=
  ∀ name ∈ names, ∀ o ∈ m[name]?, P o.session

instance [DecidablePred P] (names : List String) : Decidable (Among P m names) :=
  inferInstanceAs (Decidable (∀ name ∈ names, ∀ o ∈ m[name]?, P o.session))

lemma Among.imp {Q : Nat → Prop} {names : List String} (h : Among P m names)
    (hPQ : ∀ i, P i → Q i) : Among Q m names :=
  fun name hname o ho => hPQ o.session (h name hname o ho)

lemma among_singleton : Among P m [name] ↔ ∀ o ∈ m[name]?, P o.session := by
  simp [Among]

lemma getElem?_only (k : Nat) (m : Std.ExtTreeMap String (Owned α)) (name : String) :
    (only k m)[name]? = (m[name]?).filter (·.session = k) := by
  simp only [only, Std.ExtTreeMap.getElem?_filter']

lemma only_get (h : Among (· = k) m [name]) : (only k m)[name]? = m[name]? := by
  rw [among_singleton] at h
  rw [getElem?_only]
  cases ho : m[name]? with
  | none => rfl
  | some o => simp [Option.filter, h o ho]

lemma only_get_other (h : Among (· ≠ k) m [name]) : (only k m)[name]? = none := by
  rw [among_singleton] at h
  rw [getElem?_only]
  cases ho : m[name]? with
  | none => rfl
  | some o => simp [Option.filter, h o ho]

lemma only_erase (k : Nat) (m : Std.ExtTreeMap String (Owned α)) (name : String) :
    only k (m.erase name) = (only k m).erase name := by
  apply Std.ExtTreeMap.ext_getElem?
  intro other
  rw [getElem?_only, Std.ExtTreeMap.getElem?_erase, Std.ExtTreeMap.getElem?_erase, getElem?_only]
  split <;> rfl

lemma only_erase_other (h : Among (· ≠ k) m [name]) : only k (m.erase name) = only k m := by
  rw [only_erase, erase_eq_of_absent (only_get_other h)]

lemma only_insert (m : Std.ExtTreeMap String (Owned α)) (name : String) {o : Owned α}
    (ho : o.session = k) : only k (m.insert name o) = (only k m).insert name o := by
  apply Std.ExtTreeMap.ext_getElem?
  intro other
  rw [getElem?_only, Std.ExtTreeMap.getElem?_insert, Std.ExtTreeMap.getElem?_insert, getElem?_only]
  split
  · simp [Option.filter, ho]
  · rfl

lemma only_insert_other (h : Among (· ≠ k) m [name]) {o : Owned α} (ho : o.session ≠ k) :
    only k (m.insert name o) = only k m := by
  apply Std.ExtTreeMap.ext_getElem?
  intro other
  rw [getElem?_only, Std.ExtTreeMap.getElem?_insert]
  split
  · next hname =>
    rw [← Std.LawfulEqCmp.eq_of_compare hname, only_get_other h]
    simp [Option.filter, ho]
  · rw [getElem?_only]

end

end Owned

/-! ### The names a command mentions -/

structure Names where
  subscriptions : List String := []
  channels : List String := []
  hubs : List String := []
  references : List String := []

def Place.names : Place → List String
  | node _ => []
  | handle name => [name]

def Command.names : Command → Names
  | acquire _ handle => { references := [handle] }
  | release handle => { references := [handle] }
  | subscribe place handle => { subscriptions := [handle], hubs := place.names }
  | follow place handle => { subscriptions := [handle], hubs := place.names }
  | openChannel place handle =>
    { subscriptions := [handle], channels := [handle], hubs := place.names }
  | unsubscribe handle => { subscriptions := [handle] }
  | drain handle kept => { channels := [handle], hubs := kept.toList }
  | closeChannel handle => { channels := [handle] }
  | keepHub _ handle => { hubs := [handle] }
  | _ => {}

namespace Handles

/-- The handles that belong to session `k`. -/
def only (k : Nat) (h : Handles) : Handles where
  subscriptions := Owned.only k h.subscriptions
  channels := Owned.only k h.channels
  hubs := Owned.only k h.hubs
  references := Owned.only k h.references

/-- What is kept under some names belongs to sessions of a kind. -/
structure Among (P : Nat → Prop) (h : Handles) (names : Names) : Prop where
  subscriptions : Owned.Among P h.subscriptions names.subscriptions
  channels : Owned.Among P h.channels names.channels
  hubs : Owned.Among P h.hubs names.hubs
  references : Owned.Among P h.references names.references

instance {P : Nat → Prop} [DecidablePred P] (h : Handles) (names : Names) :
    Decidable (h.Among P names) :=
  decidable_of_iff (Owned.Among P h.subscriptions names.subscriptions ∧
      Owned.Among P h.channels names.channels ∧ Owned.Among P h.hubs names.hubs ∧
      Owned.Among P h.references names.references)
    ⟨fun ⟨hs, hc, hh, hr⟩ => ⟨hs, hc, hh, hr⟩, fun ⟨hs, hc, hh, hr⟩ => ⟨hs, hc, hh, hr⟩⟩

lemma Among.imp {P Q : Nat → Prop} {h : Handles} {names : Names} (hP : h.Among P names)
    (hPQ : ∀ i, P i → Q i) : h.Among Q names where
  subscriptions := hP.subscriptions.imp hPQ
  channels := hP.channels.imp hPQ
  hubs := hP.hubs.imp hPQ
  references := hP.references.imp hPQ

end Handles

namespace Server

/-- All that `s'` has is what belongs to session `k` in `s`, other sessions apart. -/
structure Isolates (k : Nat) (s s' : Server) : Prop where
  session : s'.sessions[k]? = s.sessions[k]?
  handles : s'.handles = s.handles.only k

section

variable {s s' : Server} {j k : Nat} {handle : String} {P : Nat → Prop}

@[simp] lemma handles_modifyBindings (s : Server) (k : Nat) (f : Bindings → Bindings) :
    (s.modifyBindings k f).handles = s.handles := rfl

@[simp] lemma handles_modifySwitchboard (s : Server) (k : Nat) (f : Switchboard → Switchboard) :
    (s.modifySwitchboard k f).handles = s.handles := rfl

@[simp] lemma handles_releaseHandle (s : Server) (handle : String) :
    (s.releaseHandle handle).handles = s.handles :=
  (s.releaseHandle_spec handle).2.2

@[simp] lemma handles_dismissHandle (s : Server) (handle : String) :
    (s.dismissHandle handle).handles = s.handles := by
  unfold dismissHandle
  split <;> rfl

@[simp] lemma handles_closeHandle (s : Server) (handle : String) :
    (s.closeHandle handle).handles = s.handles := by
  unfold closeHandle
  split <;> rfl

lemma channels_enlist (s : Server) (hub : Owned HubId) (handle : String)
    (register : Switchboard → Switchboard) :
    (s.enlist hub handle register).server.handles.channels = s.handles.channels := by
  unfold enlist
  split <;> simp

lemma session_of_hubAt? {place : Place} {hub : Owned HubId} (hj : P j)
    (hplace : Owned.Among P s.handles.hubs place.names) (hhub : s.hubAt? j place = .ok hub) :
    P hub.session := by
  cases place with
  | handle name =>
    simp only [hubAt?] at hhub
    split at hhub
    · next found hfound =>
      obtain rfl := Except.ok.inj hhub
      exact hplace name (List.mem_singleton_self name) found hfound
    · cases hhub
  | node id =>
    simp only [hubAt?] at hhub
    split at hhub
    · cases hhub
    · split at hhub
      · obtain rfl := Except.ok.inj hhub
        exact hj
      · cases hhub

namespace Isolates

/-! ### What the session does, it does in isolation -/

lemma session? (h : Isolates k s s') : s'.session? k = s.session? k := by
  simp only [Server.session?, h.session]

lemma live? (h : Isolates k s s') : s'.live? k = s.live? k := by
  simp only [Server.live?, h.session?]

lemma modifySession (h : Isolates k s s') (f : Session → Session) :
    Isolates k (s.modifySession k f) (s'.modifySession k f) where
  session := by rw [getElem?_modifySession, getElem?_modifySession, h.session]
  handles := h.handles

lemma modifyBindings (h : Isolates k s s') (f : Bindings → Bindings) :
    Isolates k (s.modifyBindings k f) (s'.modifyBindings k f) :=
  h.modifySession _

lemma modifySwitchboard (h : Isolates k s s') (f : Switchboard → Switchboard) :
    Isolates k (s.modifySwitchboard k f) (s'.modifySwitchboard k f) :=
  h.modifySession _

lemma setSession (h : Isolates k s s') (a : Session) :
    Isolates k (s.setSession k a) (s'.setSession k a) where
  session := by
    simp only [Server.setSession, List.getElem?_set_self', h.session]
  handles := h.handles

lemma references (h : Isolates k s s')
    (hname : Owned.Among (· = k) s.handles.references [handle]) :
    s'.handles.references[handle]? = s.handles.references[handle]? := by
  rw [h.handles]
  exact Owned.only_get hname

lemma subscriptions (h : Isolates k s s')
    (hname : Owned.Among (· = k) s.handles.subscriptions [handle]) :
    s'.handles.subscriptions[handle]? = s.handles.subscriptions[handle]? := by
  rw [h.handles]
  exact Owned.only_get hname

lemma channels (h : Isolates k s s')
    (hname : Owned.Among (· = k) s.handles.channels [handle]) :
    s'.handles.channels[handle]? = s.handles.channels[handle]? := by
  rw [h.handles]
  exact Owned.only_get hname

lemma releaseHandle (h : Isolates k s s')
    (hname : Owned.Among (· = k) s.handles.references [handle]) :
    Isolates k (s.releaseHandle handle) (s'.releaseHandle handle) := by
  simp only [Server.releaseHandle, h.references hname]
  cases ho : s.handles.references[handle]? with
  | none => exact h
  | some o =>
    obtain rfl : o.session = k := Owned.among_singleton.mp hname o ho
    exact h.modifySession _

lemma dismissHandle (h : Isolates k s s')
    (hname : Owned.Among (· = k) s.handles.subscriptions [handle]) :
    Isolates k (s.dismissHandle handle) (s'.dismissHandle handle) := by
  simp only [Server.dismissHandle, h.subscriptions hname]
  cases ho : s.handles.subscriptions[handle]? with
  | none => exact h
  | some o =>
    obtain rfl : o.session = k := Owned.among_singleton.mp hname o ho
    exact h.modifySession _

lemma closeHandle (h : Isolates k s s')
    (hname : Owned.Among (· = k) s.handles.channels [handle]) :
    Isolates k (s.closeHandle handle) (s'.closeHandle handle) := by
  simp only [Server.closeHandle, h.channels hname]
  cases ho : s.handles.channels[handle]? with
  | none => exact h
  | some o =>
    obtain rfl : o.session = k := Owned.among_singleton.mp hname o ho
    exact h.modifySession _

lemma hubAt? (h : Isolates k s s') {place : Place}
    (hplace : Owned.Among (· = k) s.handles.hubs place.names) :
    s'.hubAt? k place = s.hubAt? k place := by
  cases place with
  | node id => simp only [Server.hubAt?, h.live?]
  | handle name =>
    have hget : s'.handles.hubs[name]? = s.handles.hubs[name]? := by
      rw [h.handles]
      exact Owned.only_get hplace
    simp only [Server.hubAt?, hget]

/-! ### What others do does not touch it -/

lemma of_modifySession (h : Isolates k s s') (hj : j ≠ k) (f : Session → Session) :
    Isolates k (s.modifySession j f) s' where
  session := by rw [getElem?_modifySession, if_neg hj, h.session]
  handles := h.handles

lemma of_modifyBindings (h : Isolates k s s') (hj : j ≠ k) (f : Bindings → Bindings) :
    Isolates k (s.modifyBindings j f) s' :=
  h.of_modifySession hj _

lemma of_modifySwitchboard (h : Isolates k s s') (hj : j ≠ k) (f : Switchboard → Switchboard) :
    Isolates k (s.modifySwitchboard j f) s' :=
  h.of_modifySession hj _

lemma of_setSession (h : Isolates k s s') (hj : j ≠ k) (a : Session) :
    Isolates k (s.setSession j a) s' where
  session := by rw [Server.setSession, List.getElem?_set_ne hj, h.session]
  handles := h.handles

lemma of_releaseHandle (h : Isolates k s s')
    (hname : Owned.Among (· ≠ k) s.handles.references [handle]) :
    Isolates k (s.releaseHandle handle) s' := by
  unfold Server.releaseHandle
  split
  · next o _ ho => exact h.of_modifySession (Owned.among_singleton.mp hname _ ho) _
  · exact h

lemma of_dismissHandle (h : Isolates k s s')
    (hname : Owned.Among (· ≠ k) s.handles.subscriptions [handle]) :
    Isolates k (s.dismissHandle handle) s' := by
  unfold Server.dismissHandle
  split
  · next o _ ho => exact h.of_modifySession (Owned.among_singleton.mp hname _ ho) _
  · exact h

lemma of_closeHandle (h : Isolates k s s')
    (hname : Owned.Among (· ≠ k) s.handles.channels [handle]) :
    Isolates k (s.closeHandle handle) s' := by
  unfold Server.closeHandle
  split
  · next o _ ho => exact h.of_modifySession (Owned.among_singleton.mp hname _ ho) _
  · exact h

lemma of_handles (h : Isolates k s s') {handles : Handles}
    (hsame : handles.only k = s.handles.only k) : Isolates k { s with handles } s' where
  session := h.session
  handles := h.handles.trans hsame.symm

end Isolates

end

end Server

end LiveQuery
