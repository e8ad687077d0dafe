import LiveQuery.Bindings.Basic
import LiveQuery.Selection

/-!
# References held by argument name

A node holds one reference for each argument name. They are taken one by one when the node is
made and given back together when it goes.
-/

namespace LiveQuery

/-- The references a node holds, by argument name. -/
abbrev References := Std.ExtTreeMap String Reference

namespace Bindings

/-- Gives every held reference back. -/
def releaseAll (b : Bindings) (held : References) : Bindings :=
  held.foldl (fun b _ reference => b.release reference.variableId) b

/-- Puts a reference under a name and gives back the one that was there. -/
def keep (b : Bindings) (held : References) (name : String) (reference : Reference) :
    References × Bindings :=
  (held.insert name reference,
    match held[name]? with
    | some old => b.release old.variableId
    | none => b)

/-- Takes a reference for each argument in turn, on top of those held. A name that comes several
times keeps the last one. At the first argument whose variable is unbound everything held is given
back, and that argument is the answer. -/
def hold (b : Bindings) (held : References) : List Argument → Except Argument References × Bindings
  | [] => (.ok held, b)
  | a :: rest =>
    match b.acquire? a.variableId with
    | none => (.error a, b.releaseAll held)
    | some (reference, b) =>
      let (held, b) := b.keep held a.name reference
      b.hold held rest

end Bindings

end LiveQuery
