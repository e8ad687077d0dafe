import LiveQuery.Tree.Basic
import LiveQuery.Tree.Rejection
import LiveQuery.Worklist

/-!
# Growth

Adding a selection with everything nested in it. Each node is checked against the tree as it is
when the node's turn comes, is put into the tree, and is announced on the hub of its parent once
all that is nested in it is there. If anything is refused, what was added is purged again.
-/

namespace LiveQuery

/-- Which limit a further node at this depth would break, in a tree that has `size` nodes. -/
def Limits.refuse? (l : Limits) (id : NodeId) (depth size : Nat) : Option Rejection :=
  match l.depth.filter (· < depth), l.nodes.filter (· ≤ size) with
  | some limit, _ => some (.tooDeep id limit)
  | none, some limit => some (.tooMany id limit)
  | none, none => none

namespace Tree

/-- The type of the node a selection would add below `parent`, as far as the ids of the tree and
the schema allow it. -/
def typeBelow (s : Setting) (t : Tree) (parent : Node) (id : NodeId) (field : String) :
    Except Rejection NodeType :=
  if t.contains id then .error (.duplicateId id)
  else match parent.type.object? with
    | none => .error (.notSelectable id parent.id)
    | some object =>
      match object.field? field with
      | none => .error (.unknownField id field object.name)
      | some declared =>
        match s.resolver.nodeType? declared.type with
        | none => .error (.unresolvedType id declared.type.element)
        | some type => .ok type

/-- Makes the node a selection asks for, with a hub of its own and a reference for each argument.
A refused node leaves no reference taken. -/
def sprout (s : Setting) (parent id : NodeId) (field : String) (arguments : List Argument)
    (t : Tree) : Except Rejection Node × Tree :=
  match t.node? parent with
  | none => (.error (.unknownNode parent), t)
  | some p =>
    match t.typeBelow s p id field with
    | .error e => (.error e, t)
    | .ok type =>
      match t.bindings.hold ∅ arguments with
      | (.error a, b) => (.error (.unknownVariable id a.name a.variableId), { t with bindings := b })
      | (.ok held, b) =>
        match s.limits.refuse? id (p.depth + 1) t.size with
        | some e => (.error e, { t with bindings := b.releaseAll held })
        | none =>
          (.ok { id, parent := some parent, depth := p.depth + 1, field, type, arguments := held,
                 hub := ⟨t.nextHub, id⟩ },
            { t with bindings := b, nextHub := t.nextHub + 1 })

/-- Puts a node into the tree, as the last child of its parent. -/
def attach (t : Tree) (parent : NodeId) (n : Node) : Tree :=
  { t with nodes := (t.nodes.insert n.id n).modify parent fun p =>
      { p with children := p.children ++ [n.id] } }

theorem node?_attach {t : Tree} {parent : NodeId} {n : Node} (h : n.id ≠ parent) (id : NodeId) :
    (t.attach parent n).node? id =
      if id = n.id then some n
      else if id = parent then
        (t.node? id).map fun p => { p with children := p.children ++ [n.id] }
      else t.node? id := by
  simp only [node?, attach, Std.ExtTreeMap.getElem?_modify, Std.ExtTreeMap.getElem?_insert,
    Std.compare_eq_iff_eq]
  grind

/-- Takes a node out of the index and asks for its children next. -/
def uproot (id : NodeId) (t : Tree) : List NodeId × Tree × List Empty :=
  match t.node? id with
  | none => ([], t, [])
  | some n =>
    (n.children,
      { t with nodes := t.nodes.erase id, bindings := t.bindings.releaseAll n.arguments }, [])

/-- How many links to children there are in the whole index. -/
def linkCount (t : Tree) : Nat := t.nodes.toList.foldr (fun (_, n) k => n.children.length + k) 0

/-- Takes a node and all below it out of the tree in silence. One step for the node and one for
each link is enough, whatever the links are. -/
def purge (t : Tree) (id : NodeId) : Tree :=
  let cut := match t.parentOf id with
    | some parent => t.unlink parent id
    | none => t
  (Worklist.run uproot (1 + cut.linkCount) ⟨[id], cut, #[]⟩).state

/-- What is published when a node has grown in full: its parent's hub tells of it. -/
def announcement (t : Tree) (parent id : NodeId) : List Publication :=
  match t.node? parent, t.node? id with
  | some p, some n => [⟨p.hub, .childAdded n.asChild⟩]
  | _, _ => []

mutual

/-- Adds a selection below `parent`, or leaves nothing of it. -/
def grow (s : Setting) (parent : NodeId) : Selection → Tree → Transition (Except Rejection Unit)
  | ⟨id, field, arguments, children⟩, t =>
    match t.sprout s parent id field arguments with
    | (.error e, t) => ⟨.error e, t, []⟩
    | (.ok n, t) =>
      match growAll s id children (t.attach parent n) with
      | ⟨.error e, t, published⟩ => ⟨.error e, t.purge id, published⟩
      | ⟨.ok (), t, published⟩ => ⟨.ok (), t, published ++ t.announcement parent id⟩

/-- Adds selections below `parent` one after the other, up to the first that is refused. -/
def growAll (s : Setting) (parent : NodeId) :
    List Selection → Tree → Transition (Except Rejection Unit)
  | [], t => ⟨.ok (), t, []⟩
  | selection :: rest, t =>
    match grow s parent selection t with
    | ⟨.error e, t, published⟩ => ⟨.error e, t, published⟩
    | ⟨.ok (), t, published⟩ =>
      let ⟨result, t, later⟩ := growAll s parent rest t
      ⟨result, t, published ++ later⟩

end

/-- Adds a selection below a node and answers the id of the new node. -/
def add (s : Setting) (target : NodeId) (selection : Selection) (t : Tree) :
    Transition (Except Rejection NodeId) :=
  let ⟨result, t, published⟩ := t.grow s target selection
  ⟨result.map fun _ => selection.id, t, published⟩

end Tree

end LiveQuery
