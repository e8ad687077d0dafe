import LiveQuery.Tree.Basic
import LiveQuery.Tree.Rejection
import LiveQuery.Worklist

/-!
# Removal

Removing a node with everything below it. The walk enters a node, then takes its children in
order, and leaves the node when they are gone: entering publishes that the node is going away, and
leaving takes it out of the tree and tells its parent's hub.
-/

namespace LiveQuery

/-- The two visits a removal pays to each node. -/
inductive Visit where
  | enter (id : NodeId)
  | leave (id : NodeId)
  deriving DecidableEq

namespace Tree

/-- Takes a node out of the tree, tells its parent, and gives its references back. -/
def detach (t : Tree) (id : NodeId) : Tree × List Publication :=
  match t.node? id with
  | none => (t, [])
  | some n =>
    let t := { t with
      nodes := t.nodes.erase id
      bindings := t.bindings.releaseAll n.arguments }
    match n.parent with
    | none => (t, [])
    | some parent =>
      match t.node? parent with
      | none => (t, [])
      | some p => (t.unlink parent id, [⟨p.hub, .childRemoved n.asChild⟩])

/-- One visit. A node that is not there any more is passed over. -/
def visit : Visit → Tree → List Visit × Tree × List Publication
  | .enter id, t =>
    match t.node? id with
    | none => ([], t, [])
    | some n => (n.children.map .enter ++ [.leave id], t, [⟨n.hub, .deleted⟩])
  | .leave id, t =>
    let (t, published) := t.detach id
    ([], t, published)

/-- Removes a node with everything below it. Two visits to each node of the tree are enough. -/
def dismantle (t : Tree) (id : NodeId) : Transition Unit :=
  let walk := Worklist.run visit (2 * t.size) ⟨[.enter id], t, #[]⟩
  ⟨(), walk.state, walk.output.toList⟩

/-- Removes a node that is neither absent nor the root. -/
def remove (id : NodeId) (t : Tree) : Transition (Except Rejection Unit) :=
  if id.isRoot then ⟨.error .rootRemoval, t, []⟩
  else if t.contains id then
    let ⟨_, t, published⟩ := t.dismantle id
    ⟨.ok (), t, published⟩
  else ⟨.error (.unknownNode id), t, []⟩

/-- Takes the whole tree down, the root included, and tells every node's observers. -/
def teardown (t : Tree) : Transition Unit := t.dismantle .root

end Tree

end LiveQuery
