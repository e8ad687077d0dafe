import LiveQuery.Bindings.References
import LiveQuery.Hub.Event
import LiveQuery.Tree.NodeType

/-!
# Trees

The live tree of one client: its nodes by id, the bindings their arguments refer to, and the
serial number of the next hub. Links between nodes are ids in both directions. A tree that was
taken down has no node left, not even the root, while its bindings stay.
-/

namespace LiveQuery

structure Node where
  id : NodeId
  /-- The root alone has none. -/
  parent : Option NodeId
  /-- In the order in which they were added. -/
  children : List NodeId := []
  depth : Nat
  /-- The field selected on the parent's type, empty for the root. -/
  field : String
  type : NodeType
  arguments : References := ∅
  hub : HubId

/-- The node as the child its parent's hub tells about. -/
def Node.asChild (n : Node) : Child := ⟨n.id, n.field, n.hub⟩

/-- Bounds on the depth of nodes and on their number, the root counting as one node of depth 0. -/
structure Limits where
  depth : Option Nat := some 64
  nodes : Option Nat := none
  deriving DecidableEq

def Limits.unlimited : Limits := ⟨none, none⟩

/-- What a tree is checked against. It stays the same for the whole life of the tree. -/
structure Setting where
  resolver : Resolver
  limits : Limits := {}

@[ext]
structure Tree where
  nodes : Std.ExtTreeMap NodeId Node
  bindings : Bindings
  nextHub : Nat

namespace Tree

/-- A tree that has only its root, of the given type, and no bindings. -/
def ofRoot (definition : TypeDef) : Tree where
  nodes := (∅ : Std.ExtTreeMap NodeId Node).insert .root
    { id := .root, parent := none, depth := 0, field := "", type := .defined definition,
      hub := ⟨0, .root⟩ }
  bindings := .empty
  nextHub := 1

def node? (t : Tree) (id : NodeId) : Option Node := t.nodes[id]?

def contains (t : Tree) (id : NodeId) : Bool := t.nodes.contains id

def size (t : Tree) : Nat := t.nodes.size

/-- A tree lives as long as it has its root. -/
def isLive (t : Tree) : Bool := t.contains .root

/-- The children of a node, none if there is no such node. -/
def childrenOf (t : Tree) (id : NodeId) : List NodeId := ((t.node? id).map (·.children)).getD []

def parentOf (t : Tree) (id : NodeId) : Option NodeId := (t.node? id).bind (·.parent)

/-- Drops a child from the list of its parent. -/
def unlink (t : Tree) (parent id : NodeId) : Tree :=
  { t with nodes := t.nodes.modify parent fun p => { p with children := p.children.filter (· ≠ id) } }

/-- Drops the whole tree in silence: no event is published, but every reference held by a node is
given back. -/
def discard (t : Tree) : Tree :=
  { t with
    nodes := ∅
    bindings := t.nodes.foldl (fun b _ n => b.releaseAll n.arguments) t.bindings }

theorem contains_eq_isSome (t : Tree) (id : NodeId) : t.contains id = (t.node? id).isSome :=
  Std.ExtTreeMap.contains_eq_isSome_getElem?

theorem nodes_ext {t t' : Tree} (h : ∀ id, t'.node? id = t.node? id) : t'.nodes = t.nodes :=
  Std.ExtTreeMap.ext_getElem? h

theorem node?_ofRoot (definition : TypeDef) (id : NodeId) :
    (ofRoot definition).node? id = if NodeId.root = id then
      some { id := .root, parent := none, depth := 0, field := "", type := .defined definition,
             hub := ⟨0, .root⟩ } else none := by
  simp only [node?, ofRoot, Std.ExtTreeMap.getElem?_insert, Std.compare_eq_iff_eq]
  split <;> simp

theorem node?_unlink (t : Tree) (parent id other : NodeId) :
    (t.unlink parent id).node? other =
      if parent = other then
        (t.node? other).map fun p => { p with children := p.children.filter (· ≠ id) }
      else t.node? other := by
  simp only [node?, unlink, Std.ExtTreeMap.getElem?_modify, Std.compare_eq_iff_eq]
  split
  · next h => rw [h]
  · rfl

end Tree

/-- What an operation on a tree leaves: its result, the tree, and all that was published, in
order. -/
structure Transition (α : Type) where
  result : α
  tree : Tree
  published : List Publication := []

end LiveQuery
