import LiveQuery.Tree.Growth

/-!
# Chains

A chain of bare nodes with consecutive ids, each below the one before.
-/

namespace LiveQuery

def NodeId.next (id : NodeId) : NodeId := ⟨id.index + 1⟩

namespace Tree

/-- Adds a chain of `count` nodes below `target`, the first with the id `first`, up to the first
node that is refused. The result is how many were added and what stopped the chain. -/
def addChain (s : Setting) (field : String) :
    Nat → NodeId → NodeId → Tree → Transition (Nat × Option Rejection)
  | 0, _, _, t => ⟨(0, none), t, []⟩
  | count + 1, target, first, t =>
    match t.add s target { id := first, field } with
    | ⟨.error e, t, published⟩ => ⟨(0, some e), t, published⟩
    | ⟨.ok id, t, published⟩ =>
      let ⟨(added, stoppedBy), t, later⟩ := addChain s field count id id.next t
      ⟨(added + 1, stoppedBy), t, published ++ later⟩

end Tree

end LiveQuery
