import LiveQuery.Server.Basic

/-!
# Commands

Everything that can change a server, as data: a run of a server is a list of commands, each sent to
one of its sessions. A command is answered by a reply, and by notices to the observers it
reached.
-/

namespace LiveQuery

inductive Command where
  | apply (batch : Batch)
  | add (target : NodeId) (selection : Selection)
  | addChain (target first : NodeId) (count : Nat) (field : String)
  | remove (node : NodeId)
  | teardown
  /-- Drops the tree in silence. -/
  | discard
  | put (id : VariableId) (value : Json)
  /-- Takes a reference and keeps it under a handle. -/
  | acquire (id : VariableId) (handle : String)
  | release (handle : String)
  | sweep
  | subscribe (place : Place) (handle : String)
  | follow (place : Place) (handle : String)
  | openChannel (place : Place) (handle : String)
  | unsubscribe (handle : String)
  /-- Takes the waiting events out of a channel. The hub of the child the last of them is about
  can be kept under a handle. -/
  | drain (handle : String) (keepHub : Option String)
  | closeChannel (handle : String)
  /-- Keeps the hub of a node under a handle. -/
  | keepHub (node : NodeId) (handle : String)

inductive Reply where
  | done
  | refused (refusal : Refusal)
  | rejected (rejection : Rejection)
  | added (id : NodeId)
  | addedChain (count : Nat) (stoppedBy : Option Rejection)
  | removed
  | applied (outcome : Outcome)
  | acquired (reference : Reference)
  | swept (ids : List VariableId)
  | subscribed (subscription : Subscription)
  | unsubscribed (subscription : Subscription) (attached : Nat)
  | drained (events : List Event)

/-- What a command leaves: the reply, the notices in the order of delivery, and the server. -/
structure Response where
  reply : Reply
  notices : List Notice := []
  server : Server

namespace Server

/-- Carries an operation out on the tree of session `k`, which must be alive. -/
def onTree {α : Type} (s : Server) (k : Nat) (operation : Setting → Tree → Transition α)
    (reply : α → Reply) : Response :=
  match s.live? k with
  | .error e => ⟨.refused e, [], s⟩
  | .ok session =>
    let (result, notices, session) := session.perform operation
    ⟨reply result, notices, s.setSession k session⟩

/-- Gives back the reference under a handle, if there is one. -/
def releaseHandle (s : Server) (handle : String) : Server :=
  match s.handles.references[handle]? with
  | some ⟨j, reference⟩ => s.modifyBindings j (·.release reference.variableId)
  | none => s

/-- Takes a reference to a binding of session `k`. A reference that was under the handle is given
back after the new one is taken. -/
def acquire (s : Server) (k : Nat) (id : VariableId) (handle : String) : Response :=
  match s.session? k with
  | .error e => ⟨.refused e, [], s⟩
  | .ok session =>
    match session.tree.bindings.acquire? id with
    | none => ⟨.done, [], s⟩
    | some (reference, bindings) =>
      let s := (s.modifyBindings k fun _ => bindings).releaseHandle handle
      ⟨.acquired reference, [],
        { s with handles.references := s.handles.references.insert handle ⟨k, reference⟩ }⟩

def release (s : Server) (handle : String) : Response :=
  match s.handles.references[handle]? with
  | none => ⟨.refused .noHandle, [], s⟩
  | some _ =>
    let s := s.releaseHandle handle
    ⟨.done, [], { s with handles.references := s.handles.references.erase handle }⟩

/-- Dismisses the subscription under a handle, if there is one. -/
def dismissHandle (s : Server) (handle : String) : Server :=
  match s.handles.subscriptions[handle]? with
  | some ⟨j, subscription⟩ => s.modifySwitchboard j (·.dismiss subscription)
  | none => s

/-- Closes the channel under a handle, if there is one. -/
def closeHandle (s : Server) (handle : String) : Server :=
  match s.handles.channels[handle]? with
  | some ⟨j, channel⟩ => s.modifySwitchboard j (·.closeChannel channel)
  | none => s

/-- Registers an observer at a hub and keeps its subscription under a handle. A subscription that
was under the handle is dismissed after the new one is made. -/
def enlist (s : Server) (hub : Owned HubId) (handle : String)
    (register : Switchboard → Switchboard) : Response :=
  match s.session? hub.session with
  | .error e => ⟨.refused e, [], s⟩
  | .ok session =>
    let subscription := session.switchboard.nextSubscription hub.item
    let s := (s.modifySwitchboard hub.session register).dismissHandle handle
    ⟨.subscribed subscription, [],
      { s with handles.subscriptions :=
          s.handles.subscriptions.insert handle ⟨hub.session, subscription⟩ }⟩

/-- Registers an observer that records under the name of its handle. A node that is not there is
no failure. -/
def subscribe (s : Server) (k : Nat) (place : Place) (handle : String) : Response :=
  match s.hubAt? k place with
  | .error .noNode => ⟨.done, [], s⟩
  | .error e => ⟨.refused e, [], s⟩
  | .ok hub => s.enlist hub handle (·.subscribe hub.item (.recorder handle))

/-- Registers a follower that records under the name of its handle. -/
def follow (s : Server) (k : Nat) (place : Place) (handle : String) : Response :=
  match s.hubAt? k place with
  | .error e => ⟨.refused e, [], s⟩
  | .ok hub => s.enlist hub handle (·.follow hub.item handle)

/-- Opens a channel and keeps both the subscription and the channel under the same name. -/
def openChannel (s : Server) (k : Nat) (place : Place) (handle : String) : Response :=
  match s.hubAt? k place with
  | .error e => ⟨.refused e, [], s⟩
  | .ok hub =>
    match s.enlist hub handle (·.openChannel hub.item) with
    | ⟨.subscribed channel, notices, s⟩ =>
      let s := s.closeHandle handle
      ⟨.subscribed channel, notices,
        { s with handles.channels := s.handles.channels.insert handle ⟨hub.session, channel⟩ }⟩
    | response => response

/-- Dismisses the subscription under a handle and answers how many observers were attached to it.
A channel under the same name stays. -/
def unsubscribe (s : Server) (handle : String) : Response :=
  match s.handles.subscriptions[handle]? with
  | none => ⟨.refused .noHandle, [], s⟩
  | some ⟨j, subscription⟩ =>
    match s.session? j with
    | .error e => ⟨.refused e, [], s⟩
    | .ok session =>
      let attached := (session.switchboard.attached subscription).length
      let s := s.dismissHandle handle
      ⟨.unsubscribed subscription attached, [],
        { s with handles.subscriptions := s.handles.subscriptions.erase handle }⟩

/-- Takes the waiting events out of the channel under a handle. -/
def drain (s : Server) (handle : String) (keepHub : Option String) : Response :=
  match s.handles.channels[handle]? with
  | none => ⟨.refused .noHandle, [], s⟩
  | some ⟨j, channel⟩ =>
    match s.session? j with
    | .error e => ⟨.refused e, [], s⟩
    | .ok session =>
      let events := session.switchboard.waiting channel
      let s := s.modifySwitchboard j (·.drain channel)
      match keepHub, (events.filterMap Event.child?).getLast? with
      | some name, some child =>
        ⟨.drained events, [],
          { s with handles.hubs := s.handles.hubs.insert name ⟨j, child.hub⟩ }⟩
      | _, _ => ⟨.drained events, [], s⟩

/-- Closes the channel under a handle. The subscription of that name stays. -/
def closeChannel (s : Server) (handle : String) : Response :=
  match s.handles.channels[handle]? with
  | none => ⟨.refused .noHandle, [], s⟩
  | some _ =>
    let s := s.closeHandle handle
    ⟨.done, [], { s with handles.channels := s.handles.channels.erase handle }⟩

/-- Keeps the hub of a node under a handle, where it stays when the node is gone. -/
def keepHub (s : Server) (k : Nat) (node : NodeId) (handle : String) : Response :=
  match s.hubAt? k (.node node) with
  | .error e => ⟨.refused e, [], s⟩
  | .ok hub => ⟨.done, [], { s with handles.hubs := s.handles.hubs.insert handle hub }⟩

/-- Carries out a command sent to session `k`. -/
def step (s : Server) (k : Nat) : Command → Response
  | .apply batch => s.onTree k (Tree.apply · batch) .applied
  | .add target selection =>
    s.onTree k (Tree.add · target selection) fun
      | .ok id => .added id
      | .error e => .rejected e
  | .addChain target first count field =>
    s.onTree k (Tree.addChain · field count target first) fun (added, stoppedBy) =>
      .addedChain added stoppedBy
  | .remove node =>
    s.onTree k (fun _ => Tree.remove node) fun
      | .ok () => .removed
      | .error e => .rejected e
  | .teardown => s.onTree k (fun _ => Tree.teardown) fun () => .done
  | .discard => s.onTree k (fun _ t => ⟨(), t.discard, []⟩) fun () => .done
  | .put id value =>
    match s.session? k with
    | .error e => ⟨.refused e, [], s⟩
    | .ok _ => ⟨.done, [], s.modifyBindings k (·.put id value)⟩
  | .acquire id handle => s.acquire k id handle
  | .release handle => s.release handle
  | .sweep =>
    match s.session? k with
    | .error e => ⟨.refused e, [], s⟩
    | .ok session =>
      let (collected, bindings) := session.tree.bindings.sweep
      ⟨.swept collected, [], s.modifyBindings k fun _ => bindings⟩
  | .subscribe place handle => s.subscribe k place handle
  | .follow place handle => s.follow k place handle
  | .openChannel place handle => s.openChannel k place handle
  | .unsubscribe handle => s.unsubscribe handle
  | .drain handle keepHub => s.drain handle keepHub
  | .closeChannel handle => s.closeChannel handle
  | .keepHub node handle => s.keepHub k node handle

end Server

end LiveQuery
