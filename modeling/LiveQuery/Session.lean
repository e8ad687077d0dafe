import LiveQuery.Batch.Outcome
import LiveQuery.Hub.Switchboard
import LiveQuery.Tree.Chain

/-!
# Sessions

A session serves one client: the client's tree, the setting it is checked against, and the
switchboard that takes what the tree publishes to its observers. An operation on the tree is carried
out first, and what it published is delivered after it. This comes to the same as delivery in the
middle of the operation under an assumption on observers: what they do with an event changes neither
the tree nor the bindings, and they subscribe at no hub but that of the child that is announced to
them. An observer that assigns a variable, takes or lets go of a reference, or subscribes or
unsubscribes at another hub while it is told an event is not covered.
-/

namespace LiveQuery

structure Session where
  setting : Setting
  tree : Tree
  switchboard : Switchboard := {}

namespace Session

/-- A session whose tree has only its root. -/
def start (setting : Setting) (root : TypeDef) : Session where
  setting
  tree := .ofRoot root

/-- Carries an operation on the tree out and delivers what it published. -/
def perform {α : Type} (s : Session) (operation : Setting → Tree → Transition α) :
    α × List Notice × Session :=
  let ⟨result, tree, published⟩ := operation s.setting s.tree
  let (notices, switchboard) := s.switchboard.deliverAll published
  (result, notices, { s with tree, switchboard })

/-- A node with the number of its observers. -/
structure NodeReport where
  node : Node
  subscribers : Nat

def subscribers (s : Session) (hub : HubId) : Nat := (s.switchboard.hub hub).count

def report (s : Session) (n : Node) : NodeReport := ⟨n, s.subscribers n.hub⟩

def report? (s : Session) (id : NodeId) : Option NodeReport := (s.tree.node? id).map s.report

/-- All nodes in ascending order of their ids. -/
def reports (s : Session) : List NodeReport := s.tree.nodes.values.map s.report

end Session

end LiveQuery
