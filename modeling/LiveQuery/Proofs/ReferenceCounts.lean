import LiveQuery.Proofs.Runs

/-!
# Reference counts

The count of a binding is the number of arguments of live nodes that refer to it and of references
that were handed out and not given back, in every state that any run reaches. So nothing is ever
given back that is not out, and what is swept away is referred to by nobody.
-/

namespace LiveQuery

namespace Tree

/-- The counts are those of the arguments of live nodes and of the references that are `out`. -/
structure Counted (t : Tree) (out : List Reference) : Prop where
  bound : ∀ v n, t.bindings.count? v = some n →
    n = t.entries.countP (·.2.2.variableId = v) + out.countP (·.variableId = v)
  unbound : ∀ v, t.bindings.count? v = none →
    (∀ e ∈ t.entries, e.2.2.variableId ≠ v) ∧ ∀ r ∈ out, r.variableId ≠ v
  unmatched : t.bindings.unmatched = 0
  total : t.bindings.total = t.entries.length + out.length

section

variable {s : Setting} {t : Tree} {out : List Reference} {v : VariableId}

lemma countP_held (t : Tree) (v : VariableId) :
    t.held.countP (·.variableId = v) = t.entries.countP (·.2.2.variableId = v) := by
  rw [held, List.countP_map]
  rfl

theorem Accounts.counted (h : t.Accounts out) : t.Counted out where
  bound v n hn := by
    have hcount := h.count v
    rwa [hn, Option.getD_some, List.countP_append, countP_held] at hcount
  unbound v hv := by
    have hcount := h.count v
    rw [hv, Option.getD_none, eq_comm, List.countP_eq_zero] at hcount
    simp only [List.mem_append, decide_eq_true_eq] at hcount
    exact ⟨fun e he => hcount e.2.2 (.inl (List.mem_map_of_mem he)), fun r hr => hcount r (.inr hr)⟩
  unmatched := h.unmatched
  total := by
    rw [Bindings.Exact.total h, List.length_append, held, List.length_map]

end

end Tree

namespace Server

/-- A variable of session `k` is not bound, and no reference to it is out. -/
def Free (s : Server) (k : Nat) (v : VariableId) : Prop :=
  ∀ session : Session, s.sessions[k]? = some session → session.tree.bindings.count? v = none ∧
    (∀ e ∈ session.tree.entries, e.2.2.variableId ≠ v) ∧ ∀ r ∈ s.outstanding k, r.variableId ≠ v

section

variable {root : TypeDef} {s : Server} {k : Nat} {v : VariableId}

lemma Sound.free (h : s.Sound root) (hv : ∀ session : Session, s.sessions[k]? = some session →
    session.tree.bindings.count? v = none) : s.Free k v := fun session hk =>
  ⟨hv session hk, (h.accounted k session hk).counted.unbound v (hv session hk)⟩

end

namespace Sample

def month : VariableId := ⟨8⟩

end Sample

end Server

end LiveQuery
