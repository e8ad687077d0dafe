import LiveQuery.Proofs.Edits

/-!
# Values of variables

A variable that is bound has the value that was last assigned to it, by a command of its own or in a
batch. Everything else that happens to bindings takes some of them away and leaves the values of the
others.
-/

namespace LiveQuery

/-- The value last assigned to a variable, if any was. -/
def lastValue (assignments : List Assignment) (v : VariableId) : Option Json :=
  (assignments.filterMap fun p => if p.variableId = v then some p.value else none).getLast?

lemma lastValue_append (before later : List Assignment) (v : VariableId) :
    lastValue (before ++ later) v = (lastValue later v).or (lastValue before v) := by
  rw [lastValue, List.filterMap_append, List.getLast?_append]
  rfl

lemma lastValue_cons (p : Assignment) (rest : List Assignment) (v : VariableId) :
    lastValue (p :: rest) v =
      (lastValue rest v).or (if p.variableId = v then some p.value else none) := by
  rw [← List.singleton_append, lastValue_append]
  congr 1
  rw [lastValue, List.filterMap_cons]
  split <;> simp_all

lemma isSome_lastValue {assignments : List Assignment} {v : VariableId} :
    (lastValue assignments v).isSome ↔ ∃ p ∈ assignments, p.variableId = v := by
  induction assignments with
  | nil => simp [lastValue]
  | cons p rest ih =>
    rw [lastValue_cons, Option.isSome_or, Bool.or_eq_true, ih, List.exists_mem_cons_iff, or_comm]
    apply or_congr_left
    split <;> simp_all

namespace Bindings

/-- The value of a variable, if it is bound. -/
def value? (b : Bindings) (v : VariableId) : Option Json := (b.get? v).map (·.value)

/-- What is bound in `c` is bound in `b`, to the same value. -/
def Inherits (b c : Bindings) : Prop := ∀ v j, c.value? v = some j → b.value? v = some j

section

variable {b c d : Bindings}

lemma Inherits.refl (b : Bindings) : b.Inherits b := fun _ _ h => h

lemma Inherits.trans (h : b.Inherits c) (h' : c.Inherits d) : b.Inherits d :=
  fun v j hj => h v j (h' v j hj)

lemma SameValues.inherits (h : b.SameValues c) : b.Inherits c := by
  intro v j hj
  rw [value?, h v]
  exact hj

lemma inherits_sweep (b : Bindings) : b.Inherits b.sweep.2 := by
  intro v j hj
  rw [value?, get?_sweep] at hj
  obtain ⟨x, hx, rfl⟩ := Option.map_eq_some_iff.mp hj
  rw [value?, (Option.filter_eq_some_iff.mp hx).1]
  rfl

lemma value?_put (b : Bindings) (id v : VariableId) (value : Json) :
    (b.put id value).value? v = (if id = v then some value else none).or (b.value? v) := by
  rw [value?, get?_put]
  split <;> rfl

lemma value?_putAll (b : Bindings) (assignments : List Assignment) (v : VariableId) :
    (b.putAll assignments).value? v = (lastValue assignments v).or (b.value? v) := by
  induction assignments generalizing b with
  | nil => rfl
  | cons p rest ih =>
    have hrest := ih (b.put p.variableId p.value)
    rw [value?_put] at hrest
    rw [lastValue_cons, Option.or_assoc]
    exact hrest

end

end Bindings

namespace Edit

lemma inherits_apply {e : Edit} (he : e.isAssignment = false) (a : Session) :
    a.tree.bindings.Inherits (e.apply a).tree.bindings := by
  cases e <;> simp only [isAssignment, reduceCtorEq] at he
  case acquire id =>
    simp only [apply, onBindings]
    cases hr : a.tree.bindings.acquire? id with
    | none => exact Bindings.Inherits.refl _
    | some rb => exact (Bindings.sameValues_acquire (r := rb.1) (c := rb.2) hr).inherits
  case release id => exact (Bindings.sameValues_release _ id).inherits
  case sweep => exact Bindings.inherits_sweep _
  all_goals exact Bindings.Inherits.refl _

end Edit

/-- The assignments that a command makes. -/
def Command.assignments : Command → List Assignment
  | .put id value => [⟨id, value⟩]
  | .apply batch => batch.assignments
  | _ => []

namespace Tree

section

variable {root : TypeDef} {s : Setting} {t t' : Tree} {out : List Reference}
  {ps : List Publication}

/-! ### Operations leave values alone -/

lemma sameValues_detach (t : Tree) (id : NodeId) :
    t.bindings.SameValues (t.detach id).1.bindings := by
  rw [detach_tree]
  cases t.parentOf id with
  | none => exact sameValues_drop t id
  | some p => exact sameValues_drop t id

lemma sameValues_dismantle (t : Tree) (id : NodeId) :
    t.bindings.SameValues (t.dismantle id).tree.bindings := by
  have hvisit : ∀ v u, t.bindings.SameValues u.bindings →
      t.bindings.SameValues (visit v u).2.1.bindings := by
    intro v u hu
    cases v with
    | enter id =>
      unfold visit
      cases hn : u.node? id <;> simpa [hn] using hu
    | leave id => exact hu.trans (sameValues_detach u id)
  exact Worklist.run_state hvisit _ (Bindings.SameValues.refl t.bindings)

lemma WellFormed.sameValues_add (h : t.WellFormed root) (ha : t.Accounts out) (target : NodeId)
    (sel : Selection) : t.bindings.SameValues (t.add s target sel).tree.bindings := by
  obtain ⟨new, hgrows⟩ := h.grows_add (s := s) target sel
  exact (hgrows.accounts out ha).2

lemma sameValues_remove (t : Tree) (id : NodeId) :
    t.bindings.SameValues (t.remove id).tree.bindings := by
  unfold remove
  split
  · exact Bindings.SameValues.refl _
  · split
    · exact sameValues_dismantle t id
    · exact Bindings.SameValues.refl _

lemma WellFormed.sameValues_change (h : t.WellFormed root) (ha : t.Accounts out) (c : Change) :
    t.bindings.SameValues (t.change s c).tree.bindings := by
  unfold change
  split
  · cases c with
    | add target sel =>
      have hadd := h.sameValues_add (s := s) ha target sel
      dsimp only
      split <;> exact hadd
    | delete target =>
      dsimp only
      split
      · exact Bindings.SameValues.refl _
      · exact sameValues_dismantle t target
  · exact Bindings.SameValues.refl _

lemma WellFormed.sameValues_changeAll (h : t.WellFormed root) (ha : t.Accounts out) (index : Nat)
    (cs : List Change) : t.bindings.SameValues (t.changeAll s index cs).tree.bindings := by
  induction cs generalizing t index with
  | nil => exact Bindings.SameValues.refl _
  | cons c rest ih =>
    have he := h.evolves_change (s := s) c
    exact (h.sameValues_change ha c).trans (ih he.wellFormed (he.accounts out ha) (index + 1))

lemma WellFormed.sameValues_addChain (h : t.WellFormed root) (ha : t.Accounts out) (field : String)
    (count : Nat) (target first : NodeId) :
    t.bindings.SameValues (t.addChain s field count target first).tree.bindings := by
  induction count generalizing t target first with
  | zero => exact Bindings.SameValues.refl _
  | succ count ih =>
    have he := h.evolves_add (s := s) target { id := first, field }
    have hadd := h.sameValues_add (s := s) ha target { id := first, field }
    unfold addChain
    rcases hg : t.add s target { id := first, field } with ⟨e | id, t', ps⟩
    · rwa [hg] at hadd
    · rw [hg] at he hadd
      exact hadd.trans (ih he.wellFormed (he.accounts out ha) id id.next)

lemma sameValues_discard (t : Tree) : t.bindings.SameValues t.discard.bindings := by
  simp only [discard, Std.ExtTreeMap.foldl_eq_foldl_toList]
  generalize t.nodes.toList = nodes
  generalize t.bindings = b
  induction nodes generalizing b with
  | nil => exact Bindings.SameValues.refl b
  | cons e rest ih =>
    exact (Bindings.sameValues_releaseAll b e.2.arguments).trans (ih _)

/-- An operation takes some bindings away and leaves the values of the others, assignments apart. -/
theorem WellFormed.inherits_effect (h : t.WellFormed root) (ha : t.Accounts out) {c : Command}
    (heffect : c.effect? s t = some (t', ps)) :
    (t.bindings.putAll c.assignments).Inherits t'.bindings := by
  cases c <;> simp only [Command.effect?, Option.some.injEq, Prod.mk.injEq, reduceCtorEq] at heffect
  case apply batch =>
    have he := h.evolves_bindings fun _ hb => hb.putAll batch.assignments
    have hchanges := he.wellFormed.sameValues_changeAll (s := s) (he.accounts out ha) 0
      batch.changes
    rw [← heffect.1]
    exact hchanges.inherits.trans (Bindings.inherits_sweep _)
  case add target sel => exact heffect.1 ▸ (h.sameValues_add ha target sel).inherits
  case addChain target first count field =>
    exact heffect.1 ▸ (h.sameValues_addChain ha field count target first).inherits
  case remove node => exact heffect.1 ▸ (sameValues_remove t node).inherits
  case teardown => exact heffect.1 ▸ (sameValues_dismantle t .root).inherits
  case discard => exact heffect.1 ▸ (sameValues_discard t).inherits

end

end Tree

/-- A command was not carried out at all. -/
def Reply.isRefusal : Reply → Bool
  | refused _ => true
  | _ => false

namespace Server

/-- What a command sent to session `j` assigns to the variables of session `k`. -/
def assigns (s : Server) (k j : Nat) (c : Command) : List Assignment :=
  if j = k ∧ (s.step j c).reply.isRefusal = false then c.assignments else []

/-- All that is assigned to the variables of session `k` while commands are carried out. -/
def assigned (s : Server) (k : Nat) : List (Nat × Command) → List Assignment
  | [] => []
  | (j, c) :: rest => s.assigns k j c ++ (s.step j c).server.assigned k rest

section

variable {root : TypeDef} {s : Server} {k j : Nat} {a b : Session}

lemma assigns_eq_nil {c : Command} (hc : c.assignments = []) : s.assigns k j c = [] := by
  simp [assigns, hc]

lemma assigns_apply (hk : s.sessions[k]? = some a) (batch : Batch) :
    s.assigns k k (.apply batch) = if a.tree.isLive then batch.assignments else [] := by
  simp only [assigns, step, onTree, live?, session?_eq_ok_iff.mpr hk, true_and]
  by_cases hlive : a.tree.isLive
  · simp [hlive, Reply.isRefusal, Command.assignments]
  · simp [hlive, Reply.isRefusal]

lemma assigns_operation {c : Command} (hc : c.isOperation) (hk : s.sessions[k]? = some a) :
    s.assigns k k c = if a.tree.isLive then c.assignments else [] := by
  by_cases hnone : c.assignments = []
  · rw [assigns_eq_nil hnone, hnone, ite_self]
  · cases c <;> simp only [Command.isOperation, Bool.false_eq_true] at hc
    case apply batch => exact assigns_apply hk batch
    all_goals exact absurd rfl hnone

lemma assigns_of_ne {c : Command} (hjk : j ≠ k) : s.assigns k j c = [] := by
  simp [assigns, hjk]

lemma Sound.inherits_operation (hs : s.Sound root) (j : Nat) {c : Command} (hc : c.isOperation)
    (hk : (s.step j c).server.sessions[k]? = some b) : ∃ a : Session, s.sessions[k]? = some a ∧
      (a.tree.bindings.putAll (s.assigns k j c)).Inherits b.tree.bindings := by
  by_cases hdead : ∀ a : Session, s.sessions[j]? = some a → ¬ a.tree.isLive
  · rw [(step_of_dead hc hdead).1] at hk
    have hnone : s.assigns k j c = [] := by
      by_cases hjk : j = k
      · subst hjk
        rw [assigns_operation hc hk, if_neg (hdead b hk)]
      · exact assigns_of_ne hjk
    rw [hnone]
    exact ⟨b, hk, Bindings.Inherits.refl _⟩
  · push Not at hdead
    obtain ⟨a, ha, hlive⟩ := hdead
    obtain ⟨t, ps, hd⟩ := step_of_live hc ha hlive
    rw [hd.server, setSession_eq ha] at hk
    obtain ⟨before, hbefore, rfl⟩ := of_getElem?_modifySession hk
    refine ⟨before, hbefore, ?_⟩
    by_cases hjk : j = k
    · subst hjk
      obtain rfl : a = before := Option.some.inj (ha.symm.trans hbefore)
      rw [if_pos rfl, assigns_operation hc ha, if_pos hlive]
      exact (hs.wellFormed j a ha).inherits_effect (hs.accounted j a ha) hd.effect
    · rw [if_neg hjk, assigns_of_ne hjk]
      exact Bindings.Inherits.refl _

lemma inherits_put {id : VariableId} {value : Json}
    (hk : (s.step j (.put id value)).server.sessions[k]? = some b) :
    ∃ a : Session, s.sessions[k]? = some a ∧
      (a.tree.bindings.putAll (s.assigns k j (.put id value))).Inherits b.tree.bindings := by
  simp only [step] at hk
  split at hk
  · next e hsession =>
    have hnone : s.assigns k j (.put id value) = [] := by
      simp [assigns, step, hsession, Reply.isRefusal]
    rw [hnone]
    exact ⟨b, hk, Bindings.Inherits.refl _⟩
  · next hsession =>
    obtain ⟨a, ha, rfl⟩ := of_getElem?_modifySession hk
    refine ⟨a, ha, ?_⟩
    by_cases hjk : j = k
    · subst hjk
      have hone : s.assigns j j (.put id value) = [⟨id, value⟩] := by
        simp [assigns, step, hsession, Reply.isRefusal, Command.assignments]
      rw [hone, if_pos rfl]
      exact Bindings.Inherits.refl _
    · rw [assigns_of_ne hjk, if_neg hjk]
      exact Bindings.Inherits.refl _

lemma inherits_of_ne_put {c : Command} (hc : ¬ c.isOperation) (hput : ∀ id value, c ≠ .put id value)
    (hk : (s.step j c).server.sessions[k]? = some b) : ∃ a : Session, s.sessions[k]? = some a ∧
      (a.tree.bindings.putAll (s.assigns k j c)).Inherits b.tree.bindings := by
  have hnone : c.assignments = [] := by
    cases c <;> simp only [Command.isOperation, not_true_eq_false] at hc
    case put id value => exact absurd rfl (hput id value)
    all_goals rfl
  rw [assigns_eq_nil hnone]
  exact (s.tended_step_of_ne_put j hc hput).session
    (R := fun a b => a.tree.bindings.Inherits b.tree.bindings)
    (fun _ => Bindings.Inherits.refl _) (fun _ _ _ => Bindings.Inherits.trans)
    (fun a e he => Edit.inherits_apply he a) hk

/-- What is bound after a command was bound before, or was assigned by it. -/
theorem Sound.inherits_step (hs : s.Sound root) (j : Nat) (c : Command)
    (hk : (s.step j c).server.sessions[k]? = some b) : ∃ a : Session, s.sessions[k]? = some a ∧
      (a.tree.bindings.putAll (s.assigns k j c)).Inherits b.tree.bindings := by
  by_cases hc : c.isOperation
  · exact hs.inherits_operation j hc hk
  · by_cases hput : ∃ id value, c = .put id value
    · obtain ⟨id, value, rfl⟩ := hput
      exact inherits_put hk
    · push Not at hput
      exact inherits_of_ne_put hc hput hk

/-- In every state of a run, a variable that is bound has the value last assigned to it. -/
theorem Sound.value_run (hs : s.Sound root) {before : List Assignment}
    (hbefore : ∀ a : Session, s.sessions[k]? = some a →
      ∀ v x, a.tree.bindings.value? v = some x → lastValue before v = some x)
    {cs : List (Nat × Command)} (hk : (s.run cs).sessions[k]? = some b) {v : VariableId} {x : Json}
    (hx : b.tree.bindings.value? v = some x) :
    lastValue (before ++ s.assigned k cs) v = some x := by
  induction cs generalizing s before with
  | nil =>
    rw [assigned, List.append_nil]
    exact hbefore b hk v x hx
  | cons c rest ih =>
    obtain ⟨j, c⟩ := c
    rw [assigned, ← List.append_assoc]
    refine ih (hs.step j c) ?_ hk
    intro a' hk' w y hy
    obtain ⟨a, ha, hinherits⟩ := hs.inherits_step j c hk'
    have hvalue := hinherits w y hy
    rw [Bindings.value?_putAll] at hvalue
    rw [lastValue_append]
    cases hlast : lastValue (s.assigns k j c) w with
    | some z => rwa [hlast] at hvalue
    | none =>
      rw [hlast, Option.none_or] at hvalue
      rw [Option.none_or]
      exact hbefore a ha w y hvalue

end

end Server

end LiveQuery
