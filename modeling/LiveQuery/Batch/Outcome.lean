import LiveQuery.Batch
import LiveQuery.Tree.Growth
import LiveQuery.Tree.Removal

/-!
# Applying batches

A batch assigns its variables first, then makes its changes one by one, each on its own: a change
that is refused or that has nothing to act on does not stop those after it. In the end the
bindings nobody refers to are swept away.
-/

namespace LiveQuery

/-- Why a change had nothing to act on. -/
inductive SkipReason where
  | unknownTarget
  | rootDelete
  deriving DecidableEq

def SkipReason.message : SkipReason → String
  | unknownTarget => "unknown target node"
  | rootDelete => "the root cannot be deleted"

/-- What became of one change. -/
inductive Verdict where
  | applied
  | failed (rejection : Rejection)
  | skipped (reason : SkipReason)
  deriving DecidableEq

/-- A change's place in its batch, its target, and what became of it. -/
structure Report where
  index : Nat
  target : NodeId
  verdict : Verdict
  deriving DecidableEq

/-- What became of a batch: the number of variables assigned, a report for each change, and the
bindings swept away. -/
structure Outcome where
  installed : Nat
  reports : List Report
  collected : List VariableId

namespace Outcome

/-- How many changes were made. -/
def applied (o : Outcome) : Nat := o.reports.countP (·.verdict = .applied)

/-- The changes that were refused, with their places, targets and rejections. -/
def failures (o : Outcome) : List (Nat × NodeId × Rejection) :=
  o.reports.filterMap fun
    | ⟨index, target, .failed rejection⟩ => some (index, target, rejection)
    | _ => none

/-- The changes that had nothing to act on, with their places, targets and reasons. -/
def skipped (o : Outcome) : List (Nat × NodeId × SkipReason) :=
  o.reports.filterMap fun
    | ⟨index, target, .skipped reason⟩ => some (index, target, reason)
    | _ => none

/-- Nothing was refused or skipped. -/
def isClean (o : Outcome) : Bool := o.failures.isEmpty && o.skipped.isEmpty

end Outcome

/-- Puts all values of a list of assignments, in order. -/
def Bindings.putAll (b : Bindings) (assignments : List Assignment) : Bindings :=
  assignments.foldl (fun b a => b.put a.variableId a.value) b

namespace Tree

/-- Makes one change, if its target is in the tree. -/
def change (s : Setting) (c : Change) (t : Tree) : Transition Verdict :=
  if t.contains c.target then
    match c with
    | .add target selection =>
      let ⟨result, t, published⟩ := t.add s target selection
      match result with
      | .ok _ => ⟨.applied, t, published⟩
      | .error e => ⟨.failed e, t, published⟩
    | .delete target =>
      if target.isRoot then ⟨.skipped .rootDelete, t, []⟩
      else
        let ⟨_, t, published⟩ := t.dismantle target
        ⟨.applied, t, published⟩
  else ⟨.skipped .unknownTarget, t, []⟩

/-- Makes changes in order, the first of them standing at `index` in its batch. -/
def changeAll (s : Setting) (index : Nat) : List Change → Tree → Transition (List Report)
  | [], t => ⟨[], t, []⟩
  | c :: rest, t =>
    let ⟨verdict, t, published⟩ := t.change s c
    let ⟨reports, t, later⟩ := changeAll s (index + 1) rest t
    ⟨⟨index, c.target, verdict⟩ :: reports, t, published ++ later⟩

/-- Applies a batch: all assignments, then all changes, then the sweep. -/
def apply (s : Setting) (batch : Batch) (t : Tree) : Transition Outcome :=
  let t := { t with bindings := t.bindings.putAll batch.assignments }
  let ⟨reports, t, published⟩ := t.changeAll s 0 batch.changes
  let (collected, bindings) := t.bindings.sweep
  ⟨⟨batch.assignments.length, reports, collected⟩, { t with bindings }, published⟩

end Tree

end LiveQuery
