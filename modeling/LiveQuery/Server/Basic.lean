import LiveQuery.Session

/-!
# Servers

A server runs several sessions and keeps named handles on what they gave out: subscriptions,
channels, hubs and references. Each kind of handle has names of its own, shared by all sessions.
-/

namespace LiveQuery

/-- Something a session gave out, with the number of that session. -/
structure Owned (α : Type) where
  session : Nat
  item : α

structure Handles where
  subscriptions : Std.ExtTreeMap String (Owned Subscription) := ∅
  channels : Std.ExtTreeMap String (Owned Subscription) := ∅
  hubs : Std.ExtTreeMap String (Owned HubId) := ∅
  references : Std.ExtTreeMap String (Owned Reference) := ∅

structure Server where
  sessions : List Session
  handles : Handles := {}

/-- Why a command cannot be carried out at all. -/
inductive Refusal where
  | noSession
  | noTree
  | noNode
  | noHandle
  deriving DecidableEq

/-- A hub is named by its node, or by a handle. -/
inductive Place where
  | node (id : NodeId)
  | handle (name : String)
  deriving DecidableEq

namespace Server

/-- A server with `count` sessions that start alike. -/
def start (setting : Setting) (root : TypeDef) (count : Nat) : Server where
  sessions := List.replicate count (.start setting root)

def session? (s : Server) (k : Nat) : Except Refusal Session :=
  match s.sessions[k]? with
  | some session => .ok session
  | none => .error .noSession

/-- A session, provided that its tree lives. -/
def live? (s : Server) (k : Nat) : Except Refusal Session :=
  match s.session? k with
  | .ok session => if session.tree.isLive then .ok session else .error .noTree
  | .error e => .error e

theorem session?_eq_ok_iff {s : Server} {k : Nat} {session : Session} :
    s.session? k = .ok session ↔ s.sessions[k]? = some session := by
  unfold session?
  cases s.sessions[k]? <;> simp

theorem live?_eq_ok_iff {s : Server} {k : Nat} {session : Session} :
    s.live? k = .ok session ↔ s.sessions[k]? = some session ∧ session.tree.isLive := by
  rw [← session?_eq_ok_iff]
  unfold live?
  cases s.session? k with
  | error e => simp
  | ok a =>
    by_cases ha : a.tree.isLive
    · simp only [ha, if_true, Except.ok.injEq]
      exact ⟨fun h => ⟨h, h ▸ ha⟩, And.left⟩
    · simp only [ha, if_false, Except.ok.injEq, reduceCtorEq, false_iff]
      rintro ⟨rfl, hlive⟩
      exact ha hlive

def setSession (s : Server) (k : Nat) (session : Session) : Server :=
  { s with sessions := s.sessions.set k session }

def modifySession (s : Server) (k : Nat) (f : Session → Session) : Server :=
  { s with sessions := s.sessions.modify k f }

def modifyBindings (s : Server) (k : Nat) (f : Bindings → Bindings) : Server :=
  s.modifySession k fun session =>
    { session with tree := { session.tree with bindings := f session.tree.bindings } }

def modifySwitchboard (s : Server) (k : Nat) (f : Switchboard → Switchboard) : Server :=
  s.modifySession k fun session => { session with switchboard := f session.switchboard }

/-- The hub at a place, as seen from session `k`. -/
def hubAt? (s : Server) (k : Nat) : Place → Except Refusal (Owned HubId)
  | .handle name =>
    match s.handles.hubs[name]? with
    | some hub => .ok hub
    | none => .error .noHandle
  | .node id =>
    match s.live? k with
    | .error e => .error e
    | .ok session =>
      match session.tree.node? id with
      | some n => .ok ⟨k, n.hub⟩
      | none => .error .noNode

/-- A hub's node and the number of its observers. -/
def subscribers (s : Server) (k : Nat) (place : Place) : Except Refusal (NodeId × Nat) :=
  match s.hubAt? k place with
  | .error e => .error e
  | .ok ⟨j, hub⟩ => (s.session? j).map fun session => (hub.node, session.subscribers hub)

/-- The reference under a handle. -/
def reference (s : Server) (name : String) : Except Refusal Reference :=
  match s.handles.references[name]? with
  | some held => .ok held.item
  | none => .error .noHandle

end Server

end LiveQuery
