import LiveQuery.Proofs.TreeStructure

/-!
# A batch as single calls

A batch does what its client could have done by single calls: put each assignment, make each change
and ignore the answer if it is a rejection, and sweep. Two checks come in another order in a batch,
where a change of an absent node is skipped first. They agree because a live tree has its root, and
because no selection that is refused deep down is refused for an absent node.
-/

namespace LiveQuery

/-- How a batch reports a change whose single call is rejected. -/
def Verdict.ofRejection : Rejection → Verdict
  | .unknownNode _ => .skipped .unknownTarget
  | .rootRemoval => .skipped .rootDelete
  | e => .failed e

/-- How a batch reports a change, by the result of its single call. -/
def Verdict.ofResult : Except Rejection Unit → Verdict
  | .ok () => .applied
  | .error e => .ofRejection e

lemma Verdict.ofRejection_eq_failed_iff {e e' : Rejection} :
    ofRejection e' = .failed e ↔ e' = e ∧ (∀ id, e ≠ .unknownNode id) ∧ e ≠ .rootRemoval := by
  constructor
  · intro h
    cases e' <;> simp only [ofRejection, failed.injEq, reduceCtorEq] at h <;> subst h <;> simp
  · rintro ⟨rfl, hnode, hroot⟩
    cases e' <;> simp only [ofRejection, ne_eq, not_true_eq_false, reduceCtorEq] at hroot ⊢
    case unknownNode id => exact absurd rfl (hnode id)

lemma Verdict.ofRejection_eq_unknownTarget_iff {e : Rejection} :
    ofRejection e = .skipped .unknownTarget ↔ ∃ id, e = .unknownNode id := by
  cases e <;> simp [ofRejection]

lemma Verdict.ofRejection_eq_rootDelete_iff {e : Rejection} :
    ofRejection e = .skipped .rootDelete ↔ e = .rootRemoval := by
  cases e <;> simp [ofRejection]

lemma Verdict.ofRejection_ne_applied (e : Rejection) : ofRejection e ≠ .applied := by
  cases e <;> simp [ofRejection]

namespace Tree

/-- The single call for a change. -/
def call (s : Setting) (c : Change) (t : Tree) : Transition (Except Rejection Unit) :=
  match c with
  | .add target sel =>
    let ⟨result, t, published⟩ := t.add s target sel
    ⟨result.map fun _ => (), t, published⟩
  | .delete target => t.remove target

section

variable {root : TypeDef} {s : Setting} {t t' : Tree} {id parent : NodeId} {m : Node}
  {field : String} {arguments : List Argument} {e : Rejection} {ps : List Publication}

/-! ### Why a selection is refused -/

lemma failed_of_typeBelow (h : t.typeBelow s m id field = .error e) :
    Verdict.ofRejection e = .failed e := by
  unfold typeBelow at h
  split at h
  · cases h
    rfl
  · split at h
    · cases h
      rfl
    · split at h
      · cases h
        rfl
      · split at h
        · cases h
          rfl
        · cases h

lemma failed_of_refuse? {depth size : Nat} (h : s.limits.refuse? id depth size = some e) :
    Verdict.ofRejection e = .failed e := by
  unfold Limits.refuse? at h
  split at h <;> cases h <;> rfl

lemma failed_of_sprout (hm : t.node? parent = some m)
    (h : t.sprout s parent id field arguments = (.error e, t')) :
    Verdict.ofRejection e = .failed e := by
  simp only [sprout, hm] at h
  split at h
  · next hbelow =>
    simp only [Prod.mk.injEq, Except.error.injEq] at h
    exact h.1 ▸ failed_of_typeBelow hbelow
  · split at h
    · simp only [Prod.mk.injEq, Except.error.injEq] at h
      rw [← h.1]
      rfl
    · split at h
      · next hrefuse =>
        simp only [Prod.mk.injEq, Except.error.injEq] at h
        exact h.1 ▸ failed_of_refuse? hrefuse
      · simp at h

mutual

theorem WellFormed.failed_of_grow {t : Tree} (h : t.WellFormed root) {parent : NodeId} {m : Node}
    (hm : t.node? parent = some m) (sel : Selection) {e : Rejection} {t' : Tree}
    {ps : List Publication} (hg : grow s parent sel t = ⟨.error e, t', ps⟩) :
    Verdict.ofRejection e = .failed e := by
  match sel with
  | ⟨id, field, arguments, children⟩ =>
    rcases hsprout : t.sprout s parent id field arguments with ⟨e' | n, t₁⟩
    · simp only [Tree.grow, hsprout, Transition.mk.injEq, Except.error.injEq] at hg
      rw [← hg.1]
      exact failed_of_sprout hm hsprout
    · obtain ⟨rfl, hplants⟩ := sprout_plants h hsprout
      rcases hgrow : growAll s n.id children (t₁.attach parent n) with ⟨e' | ⟨⟩, t₂, qs⟩
      · simp only [Tree.grow, hsprout, hgrow, Transition.mk.injEq, Except.error.injEq] at hg
        rw [← hg.1]
        exact hplants.wellFormed.failed_of_growAll hplants.live children hgrow
      · simp [Tree.grow, hsprout, hgrow] at hg

theorem WellFormed.failed_of_growAll {t : Tree} (h : t.WellFormed root) {parent : NodeId}
    {m : Node} (hm : t.node? parent = some m) (sels : List Selection) {e : Rejection} {t' : Tree}
    {ps : List Publication} (hg : growAll s parent sels t = ⟨.error e, t', ps⟩) :
    Verdict.ofRejection e = .failed e := by
  match sels with
  | [] => simp [growAll] at hg
  | sel :: rest =>
    have hfirst := h.grows (s := s) parent sel
    rcases hgrow : Tree.grow s parent sel t with ⟨e' | ⟨⟩, t₁, qs⟩
    · simp only [growAll, hgrow, Transition.mk.injEq, Except.error.injEq] at hg
      rw [← hg.1]
      exact h.failed_of_grow hm sel hgrow
    · rw [hgrow] at hfirst
      obtain ⟨m', hm', -⟩ := hfirst.1.kept hm
      rcases hrest : growAll s parent rest t₁ with ⟨e' | ⟨⟩, t₂, rs⟩
      · simp only [growAll, hgrow, hrest, Transition.mk.injEq, Except.error.injEq] at hg
        rw [← hg.1]
        exact hfirst.1.wellFormed.failed_of_growAll hm' rest hrest
      · simp [growAll, hgrow, hrest] at hg

end

lemma add_of_absent (hp : t.node? parent = none) (sel : Selection) :
    t.add s parent sel = ⟨.error (.unknownNode parent), t, []⟩ := by
  obtain ⟨id, field, arguments, children⟩ := sel
  simp [Tree.add, Tree.grow, sprout, hp, Except.map]

/-- In a live tree a change does what its single call does, and is reported by its result. -/
theorem WellFormed.change_eq_call (h : t.WellFormed root) (hlive : t.isLive) (c : Change) :
    t.change s c =
      ⟨.ofResult (t.call s c).result, (t.call s c).tree, (t.call s c).published⟩ := by
  cases c with
  | add target sel =>
    cases hm : t.node? target with
    | none => simp [change, Change.target, contains_eq_isSome, call, hm, add_of_absent hm,
        Except.map, Verdict.ofResult, Verdict.ofRejection]
    | some m =>
      simp only [change, Change.target, contains_eq_isSome, hm, Option.isSome_some, if_true, call]
      rcases hg : t.grow s target sel with ⟨e | ⟨⟩, t', ps⟩
      · have hfailed := h.failed_of_grow hm sel hg
        simp [Tree.add, hg, Except.map, Verdict.ofResult, hfailed]
      · simp [Tree.add, hg, Except.map, Verdict.ofResult]
  | delete target =>
    by_cases hroot : target = .root
    · subst hroot
      rw [isLive] at hlive
      simp [change, call, Tree.remove, Change.target, hlive, Verdict.ofResult,
        Verdict.ofRejection, NodeId.isRoot]
    · by_cases hc : t.contains target
      · simp [change, call, Tree.remove, Change.target, hc, hroot, Verdict.ofResult,
          NodeId.isRoot]
      · simp [change, call, Tree.remove, Change.target, hc, hroot, Verdict.ofResult,
          Verdict.ofRejection, NodeId.isRoot]

/-! ### The reports of a batch -/

lemma reports_index (s : Setting) (index : Nat) (cs : List Change) (t : Tree) :
    (t.changeAll s index cs).result.map (·.index) = List.range' index cs.length := by
  induction cs generalizing t index with
  | nil => rfl
  | cons c rest ih =>
    simp only [changeAll, List.map_cons, List.length_cons, List.range'_succ]
    rw [ih]

lemma reports_target (s : Setting) (index : Nat) (cs : List Change) (t : Tree) :
    (t.changeAll s index cs).result.map (·.target) = cs.map (·.target) := by
  induction cs generalizing t index with
  | nil => rfl
  | cons c rest ih =>
    simp only [changeAll, List.map_cons]
    rw [ih]

end

end Tree

namespace Outcome

section

variable {o : Outcome} {i : Nat} {target : NodeId}

lemma mem_failures_iff {e : Rejection} :
    (i, target, e) ∈ o.failures ↔ ⟨i, target, .failed e⟩ ∈ o.reports := by
  simp only [failures, List.mem_filterMap]
  constructor
  · rintro ⟨⟨index, target', verdict⟩, hr, heq⟩
    cases verdict <;> simp only [Option.some.injEq, Prod.mk.injEq, reduceCtorEq] at heq
    obtain ⟨rfl, rfl, rfl⟩ := heq
    exact hr
  · exact fun hr => ⟨_, hr, rfl⟩

lemma mem_skipped_iff {reason : SkipReason} :
    (i, target, reason) ∈ o.skipped ↔ ⟨i, target, .skipped reason⟩ ∈ o.reports := by
  simp only [skipped, List.mem_filterMap]
  constructor
  · rintro ⟨⟨index, target', verdict⟩, hr, heq⟩
    cases verdict <;> simp only [Option.some.injEq, Prod.mk.injEq, reduceCtorEq] at heq
    obtain ⟨rfl, rfl, rfl⟩ := heq
    exact hr
  · exact fun hr => ⟨_, hr, rfl⟩

lemma total_eq (o : Outcome) :
    o.applied + o.failures.length + o.skipped.length = o.reports.length := by
  obtain ⟨installed, reports, collected⟩ := o
  simp only [applied, failures, skipped]
  induction reports with
  | nil => rfl
  | cons r rest ih =>
    obtain ⟨index, target, verdict⟩ := r
    cases verdict <;> simp [← ih] <;> omega

lemma isClean_iff (o : Outcome) : o.isClean ↔ o.applied = o.reports.length := by
  have htotal := o.total_eq
  simp only [isClean, Bool.and_eq_true, List.isEmpty_iff_length_eq_zero]
  omega

lemma ascending_filterMap {α : Type} {f : Report → Option (Nat × α)}
    (hf : ∀ r b, f r = some b → b.1 = r.index) {reports : List Report}
    (h : reports.Pairwise fun r r' => r.index < r'.index) :
    ((reports.filterMap f).map (·.1)).Pairwise (· < ·) := by
  rw [List.pairwise_map, List.pairwise_filterMap]
  refine h.imp fun {r r'} hlt b hb b' hb' => ?_
  rw [hf r b hb, hf r' b' hb']
  exact hlt

lemma failures_ascending (h : o.reports.Pairwise fun r r' => r.index < r'.index) :
    (o.failures.map (·.1)).Pairwise (· < ·) := by
  refine ascending_filterMap ?_ h
  rintro ⟨index, target, verdict⟩ b hb
  cases verdict <;> cases hb
  rfl

lemma skipped_ascending (h : o.reports.Pairwise fun r r' => r.index < r'.index) :
    (o.skipped.map (·.1)).Pairwise (· < ·) := by
  refine ascending_filterMap ?_ h
  rintro ⟨index, target, verdict⟩ b hb
  cases verdict <;> cases hb
  rfl

end

end Outcome

/-- A session with other bindings. -/
def Session.withBindings (a : Session) (b : Bindings) : Session :=
  { a with tree := { a.tree with bindings := b } }

lemma Tree.WellFormed.withBindings {root : TypeDef} {a a' : Session} {b : Bindings}
    (h : a.tree.WellFormed root) (ha : a' = a.withBindings b) : a'.tree.WellFormed root :=
  ha ▸ h.congr rfl (Nat.le_refl _)

/-- The command that makes one change by a single call. -/
def Change.command : Change → Command
  | add target sel => .add target sel
  | delete target => .remove target

/-- The commands that do the work of a batch one by one, sent to session `k`. -/
def Batch.calls (b : Batch) (k : Nat) : List (Nat × Command) :=
  b.assignments.map (fun a => (k, .put a.variableId a.value)) ++
    b.changes.map (fun c => (k, c.command)) ++ [(k, .sweep)]

/-- The call went through. -/
def Reply.accepts : Reply → Bool
  | added _ | removed => true
  | _ => false

/-- How a batch reports a change, by the reply to its single call. -/
def Reply.verdict : Reply → Verdict
  | rejected e => .ofRejection e
  | _ => .applied

/-- The outcome in the reply to a batch. -/
def Reply.outcome? : Reply → Option Outcome
  | applied o => some o
  | _ => none

/-- What the outcome of a batch says of its changes, told by the replies to their single calls. -/
structure Outcome.Classifies (o : Outcome) (changes : List Change) (replies : List Reply) :
    Prop where
  length_eq : replies.length = changes.length
  answered : ∀ r ∈ replies, r.accepts ∨ ∃ e, r = .rejected e
  applied_eq : o.applied = replies.countP (·.accepts)
  mem_failures : ∀ i target e, (i, target, e) ∈ o.failures ↔
    (∃ c, changes[i]? = some c ∧ c.target = target) ∧ replies[i]? = some (.rejected e) ∧
      (∀ id, e ≠ .unknownNode id) ∧ e ≠ .rootRemoval
  mem_unknownTarget : ∀ i target, (i, target, .unknownTarget) ∈ o.skipped ↔
    (∃ c, changes[i]? = some c ∧ c.target = target) ∧
      ∃ id, replies[i]? = some (.rejected (.unknownNode id))
  mem_rootDelete : ∀ i target, (i, target, .rootDelete) ∈ o.skipped ↔
    (∃ c, changes[i]? = some c ∧ c.target = target) ∧ replies[i]? = some (.rejected .rootRemoval)
  failures_ascending : (o.failures.map (·.1)).Pairwise (· < ·)
  skipped_ascending : (o.skipped.map (·.1)).Pairwise (· < ·)
  disjoint : ∀ i ∈ o.failures.map (·.1), i ∉ o.skipped.map (·.1)
  total : o.applied + o.failures.length + o.skipped.length = changes.length
  clean : o.isClean ↔ o.applied = changes.length
  genuine : ∀ f ∈ o.failures, (∀ id, f.2.2 ≠ .unknownNode id) ∧ f.2.2 ≠ .rootRemoval

section

variable {o : Outcome} {changes : List Change} {replies : List Reply}

lemma mem_iff_getElem?_of_map_eq_range {α : Type} {f : α → Nat} {l : List α}
    (h : l.map f = List.range l.length) (a : α) : a ∈ l ↔ l[f a]? = some a := by
  constructor
  · intro ha
    obtain ⟨j, hj⟩ := List.mem_iff_getElem?.mp ha
    have hindex := congrArg (·[j]?) h
    obtain ⟨hlt, -⟩ := List.getElem?_eq_some_iff.mp hj
    simp only [List.getElem?_map, hj, Option.map_some, List.getElem?_range hlt,
      Option.some.injEq] at hindex
    rw [hindex, hj]
  · exact List.mem_of_getElem?

/-- A verdict is reported where the reply to the single call says so. -/
lemma mem_reports_iff (hindex : o.reports.map (·.index) = List.range o.reports.length)
    (htarget : o.reports.map (·.target) = changes.map (·.target))
    (hverdict : o.reports.map (·.verdict) = replies.map (·.verdict)) (i : Nat) (target : NodeId)
    (verdict : Verdict) : ⟨i, target, verdict⟩ ∈ o.reports ↔
      (∃ c, changes[i]? = some c ∧ c.target = target) ∧
        ∃ r, replies[i]? = some r ∧ r.verdict = verdict := by
  have hi := congrArg (·[i]?) hindex
  have ht := congrArg (·[i]?) htarget
  have hv := congrArg (·[i]?) hverdict
  simp only [List.getElem?_map] at hi ht hv
  rw [mem_iff_getElem?_of_map_eq_range hindex, ← Option.map_eq_some_iff, ← Option.map_eq_some_iff,
    ← ht, ← hv]
  dsimp only
  cases hr : o.reports[i]? with
  | none => simp
  | some r =>
    obtain ⟨hlt, -⟩ := List.getElem?_eq_some_iff.mp hr
    simp only [hr, Option.map_some, List.getElem?_range hlt, Option.some.injEq] at hi ⊢
    obtain ⟨index, target', verdict'⟩ := r
    simp only at hi
    simp [hi]

lemma Reply.verdict_eq_failed_iff {r : Reply} {e : Rejection} :
    r.verdict = .failed e ↔
      r = .rejected e ∧ (∀ id, e ≠ .unknownNode id) ∧ e ≠ .rootRemoval := by
  cases r <;> simp [verdict, Verdict.ofRejection_eq_failed_iff]

lemma Reply.verdict_eq_unknownTarget_iff {r : Reply} :
    r.verdict = .skipped .unknownTarget ↔ ∃ id, r = .rejected (.unknownNode id) := by
  cases r <;> simp [verdict, Verdict.ofRejection_eq_unknownTarget_iff]

lemma Reply.verdict_eq_rootDelete_iff {r : Reply} :
    r.verdict = .skipped .rootDelete ↔ r = .rejected .rootRemoval := by
  cases r <;> simp [verdict, Verdict.ofRejection_eq_rootDelete_iff]

lemma Reply.verdict_eq_applied_iff {r : Reply} (h : r.accepts ∨ ∃ e, r = .rejected e) :
    r.verdict = .applied ↔ r.accepts := by
  rcases h with h | ⟨e, rfl⟩
  · cases r <;> simp_all [verdict, accepts]
  · simp [verdict, accepts, Verdict.ofRejection_ne_applied]

/-- A batch that has one report for each change, with the verdict that the reply to the single call
stands for, classifies its changes by the replies. -/
theorem Outcome.classifies_of_reports
    (hindex : o.reports.map (·.index) = List.range o.reports.length)
    (htarget : o.reports.map (·.target) = changes.map (·.target))
    (hverdict : o.reports.map (·.verdict) = replies.map (·.verdict))
    (hanswered : ∀ r ∈ replies, r.accepts ∨ ∃ e, r = .rejected e) :
    o.Classifies changes replies := by
  have hmem := mem_reports_iff hindex htarget hverdict
  have hlength : o.reports.length = changes.length := by
    simpa using congrArg List.length htarget
  have hascending : o.reports.Pairwise fun r r' => r.index < r'.index := by
    have hindices : (o.reports.map (·.index)).Pairwise (· < ·) := hindex ▸ List.pairwise_lt_range
    exact List.pairwise_map.mp hindices
  have hfailures : ∀ i target e, (i, target, e) ∈ o.failures ↔
      (∃ c, changes[i]? = some c ∧ c.target = target) ∧ replies[i]? = some (.rejected e) ∧
        (∀ id, e ≠ .unknownNode id) ∧ e ≠ .rootRemoval := by
    intro i target e
    rw [mem_failures_iff, hmem]
    refine and_congr_right fun _ => ?_
    simp only [Reply.verdict_eq_failed_iff]
    exact ⟨fun ⟨r, hr, hre, hgenuine⟩ => ⟨hre ▸ hr, hgenuine⟩,
      fun ⟨hr, hgenuine⟩ => ⟨_, hr, rfl, hgenuine⟩⟩
  refine ⟨?_, hanswered, ?_, hfailures, ?_, ?_, failures_ascending hascending,
    skipped_ascending hascending, ?_, hlength ▸ o.total_eq, hlength ▸ o.isClean_iff, ?_⟩
  · rw [← hlength]
    simpa using (congrArg List.length hverdict).symm
  · have hcount := congrArg (List.countP (· = Verdict.applied)) hverdict
    rw [List.countP_map, List.countP_map] at hcount
    refine hcount.trans (List.countP_congr fun r hr => ?_)
    simpa using Reply.verdict_eq_applied_iff (hanswered r hr)
  · intro i target
    rw [mem_skipped_iff, hmem]
    refine and_congr_right fun _ => ?_
    simp only [Reply.verdict_eq_unknownTarget_iff]
    exact ⟨fun ⟨r, hr, id, hre⟩ => ⟨id, hre ▸ hr⟩, fun ⟨id, hr⟩ => ⟨_, hr, id, rfl⟩⟩
  · intro i target
    rw [mem_skipped_iff, hmem]
    refine and_congr_right fun _ => ?_
    simp only [Reply.verdict_eq_rootDelete_iff]
    exact ⟨fun ⟨r, hr, hre⟩ => hre ▸ hr, fun hr => ⟨_, hr, rfl⟩⟩
  · intro i hi hi'
    obtain ⟨⟨j, target, e⟩, hf, rfl⟩ := List.mem_map.mp hi
    obtain ⟨⟨j', target', reason⟩, hf', hj⟩ := List.mem_map.mp hi'
    simp only at hj
    subst hj
    rw [mem_failures_iff, mem_iff_getElem?_of_map_eq_range hindex] at hf
    rw [mem_skipped_iff, mem_iff_getElem?_of_map_eq_range hindex] at hf'
    simp only at hf hf'
    rw [hf] at hf'
    cases hf'
  · rintro ⟨i, target, e⟩ hf
    exact ((hfailures i target e).mp hf).2.2

end

namespace Server

/-- The replies to some commands, in order. -/
def replies (s : Server) : List (Nat × Command) → List Reply
  | [] => []
  | (k, c) :: rest => (s.step k c).reply :: (s.step k c).server.replies rest

/-- All that observers are told while some commands are carried out. -/
def notices (s : Server) : List (Nat × Command) → List Notice
  | [] => []
  | (k, c) :: rest => (s.step k c).notices ++ (s.step k c).server.notices rest

section

variable {root : TypeDef} {s : Server} {k : Nat} {a : Session}

lemma replies_append (s : Server) (cs later : List (Nat × Command)) :
    s.replies (cs ++ later) = s.replies cs ++ (s.run cs).replies later := by
  induction cs generalizing s with
  | nil => rfl
  | cons c rest ih => simp [replies, run, ih]

lemma notices_append (s : Server) (cs later : List (Nat × Command)) :
    s.notices (cs ++ later) = s.notices cs ++ (s.run cs).notices later := by
  induction cs generalizing s with
  | nil => rfl
  | cons c rest ih => simp [notices, run, ih]

lemma setSession_self (hk : s.sessions[k]? = some a) : s.setSession k a = s := by
  obtain ⟨hlt, rfl⟩ := List.getElem?_eq_some_iff.mp hk
  rw [setSession, List.set_getElem_self]

lemma setSession_setSession (s : Server) (k : Nat) (a b : Session) :
    (s.setSession k a).setSession k b = s.setSession k b := by
  simp [setSession]

lemma getElem?_setSession (hk : s.sessions[k]? = some a) (b : Session) :
    (s.setSession k b).sessions[k]? = some b := by
  rw [setSession_eq hk, getElem?_modifySession, if_pos rfl, hk]
  rfl

lemma modifySession_eq (hk : s.sessions[k]? = some a) (f : Session → Session) :
    s.modifySession k f = s.setSession k (f a) := by
  rw [setSession_eq hk]
  exact modifySession_congr hk rfl

lemma after_after (a : Session) (t t' : Tree) (ps qs : List Publication) :
    (a.after t ps).after t' qs = a.after t' (ps ++ qs) := by
  simp [Session.after, Switchboard.deliverAll_append]

lemma step_change (hw : a.tree.WellFormed root) (hk : s.sessions[k]? = some a)
    (hlive : a.tree.isLive) (c : Change) :
    (s.step k c.command).server = s.setSession k
        (a.after (a.tree.change a.setting c).tree (a.tree.change a.setting c).published) ∧
      (s.step k c.command).notices =
        (a.switchboard.deliverAll (a.tree.change a.setting c).published).1 ∧
      (s.step k c.command).reply.verdict = (a.tree.change a.setting c).result ∧
      ((s.step k c.command).reply.accepts ∨ ∃ e, (s.step k c.command).reply = .rejected e) := by
  have hsession : s.live? k = .ok a := live?_eq_ok_iff.mpr ⟨hk, hlive⟩
  rw [hw.change_eq_call hlive]
  cases c with
  | add target sel =>
    simp only [Change.command, step, onTree, hsession, Session.perform, Tree.call]
    rcases hadd : a.tree.add a.setting target sel with ⟨e | id, t, ps⟩
    · simp [Session.after, Reply.verdict, Reply.accepts, Verdict.ofResult, Except.map]
    · simp [Session.after, Reply.verdict, Reply.accepts, Verdict.ofResult, Except.map]
  | delete target =>
    simp only [Change.command, step, onTree, hsession, Session.perform, Tree.call]
    rcases hremove : a.tree.remove target with ⟨e | ⟨⟩, t, ps⟩
    · simp [Session.after, Reply.verdict, Reply.accepts, Verdict.ofResult]
    · simp [Session.after, Reply.verdict, Reply.accepts, Verdict.ofResult]

lemma run_changes (hw : a.tree.WellFormed root) (hk : s.sessions[k]? = some a)
    (hlive : a.tree.isLive) (index : Nat) (cs : List Change) :
    s.run (cs.map fun c => (k, c.command)) = s.setSession k
        (a.after (a.tree.changeAll a.setting index cs).tree
          (a.tree.changeAll a.setting index cs).published) ∧
      s.notices (cs.map fun c => (k, c.command)) =
        (a.switchboard.deliverAll (a.tree.changeAll a.setting index cs).published).1 ∧
      (a.tree.changeAll a.setting index cs).result.map (·.verdict) =
        (s.replies (cs.map fun c => (k, c.command))).map (·.verdict) ∧
      ∀ r ∈ s.replies (cs.map fun c => (k, c.command)), r.accepts ∨ ∃ e, r = .rejected e := by
  induction cs generalizing s a index with
  | nil =>
    refine ⟨?_, rfl, rfl, by simp [replies]⟩
    exact (setSession_self hk).symm
  | cons c rest ih =>
    obtain ⟨hserver, hnotices, hverdict, hanswered⟩ := step_change hw hk hlive c
    have hevolves := hw.evolves_change (s := a.setting) c
    have hlive' := hw.isLive_change (s := a.setting) hlive c
    obtain ⟨hserver', hnotices', hverdict', hanswered'⟩ := ih (s := (s.step k c.command).server)
      (a := a.after (a.tree.change a.setting c).tree (a.tree.change a.setting c).published)
      hevolves.wellFormed (hserver ▸ getElem?_setSession hk _) hlive' (index + 1)
    simp only [List.map_cons, run, notices, replies, Tree.changeAll]
    refine ⟨?_, ?_, ?_, ?_⟩
    · rw [hserver', hserver, setSession_setSession, after_after]
      rfl
    · rw [hnotices', hnotices, Switchboard.deliverAll_append]
      rfl
    · rw [hverdict, ← hverdict']
      rfl
    · intro r hr
      rcases List.mem_cons.mp hr with rfl | hr
      · exact hanswered
      · exact hanswered' r hr

lemma run_puts (hk : s.sessions[k]? = some a) (assignments : List Assignment) :
    s.run (assignments.map fun p => (k, .put p.variableId p.value)) =
        s.setSession k (a.withBindings (a.tree.bindings.putAll assignments)) ∧
      s.notices (assignments.map fun p => (k, .put p.variableId p.value)) = [] ∧
      s.replies (assignments.map fun p => (k, .put p.variableId p.value)) =
        List.replicate assignments.length .done := by
  induction assignments generalizing s a with
  | nil => exact ⟨(setSession_self hk).symm, rfl, rfl⟩
  | cons p rest ih =>
    have hstep : s.step k (.put p.variableId p.value) = ⟨.done, [],
        s.setSession k (a.withBindings (a.tree.bindings.put p.variableId p.value))⟩ := by
      simp only [step, session?_eq_ok_iff.mpr hk, modifyBindings, modifySession_eq hk,
        Session.withBindings]
    obtain ⟨hserver, hnotices, hreplies⟩ := ih
      (getElem?_setSession hk (a.withBindings (a.tree.bindings.put p.variableId p.value)))
    simp only [List.map_cons, run, notices, replies, hstep, hserver, hnotices, hreplies,
      setSession_setSession, List.length_cons, List.replicate_succ]
    exact ⟨rfl, rfl, trivial⟩

lemma step_sweep (hk : s.sessions[k]? = some a) :
    s.step k .sweep = ⟨.swept a.tree.bindings.sweep.1, [],
      s.setSession k (a.withBindings a.tree.bindings.sweep.2)⟩ := by
  simp only [step, session?_eq_ok_iff.mpr hk, modifyBindings, modifySession_eq hk,
    Session.withBindings]

lemma step_apply (hk : s.sessions[k]? = some a) (hlive : a.tree.isLive) (batch : Batch)
    {b : Session} (hb : b = a.withBindings (a.tree.bindings.putAll batch.assignments))
    {r : Transition (List Report)} (hr : r = b.tree.changeAll b.setting 0 batch.changes) :
    s.step k (.apply batch) =
      ⟨.applied ⟨batch.assignments.length, r.result, r.tree.bindings.sweep.1⟩,
        (b.switchboard.deliverAll r.published).1,
        s.setSession k ((b.after r.tree r.published).withBindings r.tree.bindings.sweep.2)⟩ := by
  subst hb hr
  simp [step, onTree, live?_eq_ok_iff.mpr ⟨hk, hlive⟩, Session.perform, Tree.apply,
    Session.withBindings, Session.after]

lemma step_apply_eq_calls (hw : a.tree.WellFormed root) (hk : s.sessions[k]? = some a)
    (hlive : a.tree.isLive) (batch : Batch) : ∃ (o : Outcome) (answers : List Reply),
      s.step k (.apply batch) =
        ⟨.applied o, s.notices (batch.calls k), s.run (batch.calls k)⟩ ∧
      s.replies (batch.calls k) =
        List.replicate batch.assignments.length .done ++ answers ++ [.swept o.collected] ∧
      o.installed = batch.assignments.length ∧
      o.Classifies batch.changes answers := by
  obtain ⟨b, hb⟩ : ∃ b, b = a.withBindings (a.tree.bindings.putAll batch.assignments) := ⟨_, rfl⟩
  obtain ⟨r, hr⟩ : ∃ r, r = b.tree.changeAll b.setting 0 batch.changes := ⟨_, rfl⟩
  obtain ⟨hputs, hsilent, hdone⟩ := run_puts hk batch.assignments
  obtain ⟨hchanges, hnotices, hverdicts, hanswered⟩ :=
    run_changes (hw.withBindings hb) (getElem?_setSession hk b) (hb ▸ hlive) 0 batch.changes
  rw [← hr, setSession_setSession] at hchanges
  rw [← hr] at hnotices hverdicts
  have hsweep := step_sweep (getElem?_setSession hk (b.after r.tree r.published))
  rw [← hb] at hputs
  refine ⟨⟨batch.assignments.length, r.result, r.tree.bindings.sweep.1⟩,
    (s.setSession k b).replies (batch.changes.map fun c => (k, c.command)), ?_, ?_, rfl, ?_⟩
  · rw [step_apply hk hlive batch hb hr]
    simp only [Batch.calls, notices_append, run_append, hputs, hsilent, hchanges, hnotices, notices,
      run, hsweep, setSession_setSession, List.nil_append, List.append_nil]
    rfl
  · simp only [Batch.calls, replies_append, run_append, hputs, hdone, hchanges, replies, hsweep]
    rfl
  · have hindex := Tree.reports_index b.setting 0 batch.changes b.tree
    have hlength := congrArg List.length hindex
    rw [← hr] at hindex hlength
    simp only [List.length_map, List.length_range'] at hlength
    refine Outcome.classifies_of_reports ?_ (hr ▸ Tree.reports_target ..) hverdicts hanswered
    rw [hindex, hlength, List.range_eq_range']

end

/-- Whatever happened before, a batch leaves what its single calls leave, with the same notices on
the way, and its outcome classifies the changes by what their single calls were answered. -/
theorem batch_refines_calls (setting : Setting) (root : TypeDef) (count : Nat)
    (cs : List (Nat × Command)) (k : Nat) (session : Session)
    (hk : ((start setting root count).run cs).sessions[k]? = some session)
    (hlive : session.tree.isLive) (batch : Batch) :
    ∃ (o : Outcome) (answers : List Reply),
      ((start setting root count).run cs).step k (.apply batch) =
        ⟨.applied o, ((start setting root count).run cs).notices (batch.calls k),
          ((start setting root count).run cs).run (batch.calls k)⟩ ∧
      ((start setting root count).run cs).replies (batch.calls k) =
        List.replicate batch.assignments.length .done ++ answers ++ [.swept o.collected] ∧
      o.installed = batch.assignments.length ∧
      o.Classifies batch.changes answers :=
  step_apply_eq_calls ((sound_run setting root count cs).wellFormed k session hk) hk hlive batch

namespace Sample

/-- One change is refused deep down, two have nothing to act on, and two are made. -/
def mixed : Batch where
  assignments := [⟨year, .int 2021⟩]
  changes := [
    .add .root { id := ⟨2⟩, field := "friend", children := [{ id := ⟨3⟩, field := "age" }] },
    .add ⟨9⟩ { id := ⟨2⟩, field := "name" }, .delete .root,
    .add .root { id := ⟨2⟩, field := "name" }, .delete ⟨1⟩]

end Sample

theorem batch_refines_calls_mixed : ∃ (session : Session) (o : Outcome) (answers : List Reply),
    ((start Sample.setting Sample.person 1).run Sample.watched).sessions[0]? = some session ∧
    session.tree.isLive ∧
    ((start Sample.setting Sample.person 1).run Sample.watched).step 0 (.apply Sample.mixed) =
      ⟨.applied o,
        ((start Sample.setting Sample.person 1).run Sample.watched).notices (Sample.mixed.calls 0),
        ((start Sample.setting Sample.person 1).run Sample.watched).run (Sample.mixed.calls 0)⟩ ∧
    ((start Sample.setting Sample.person 1).run Sample.watched).replies (Sample.mixed.calls 0) =
      [.done] ++ answers ++ [.swept [Sample.year]] ∧
    o.Classifies Sample.mixed.changes answers ∧
    o.failures = [(0, .root, .unknownField ⟨3⟩ "age" "Person")] ∧
    o.skipped = [(1, ⟨9⟩, .unknownTarget), (2, .root, .rootDelete)] ∧ o.applied = 2 := by
  have hstart : (((start Sample.setting Sample.person 1).run Sample.watched).sessions[0]?).map
      (·.tree.isLive) = some true := by cbv
  obtain ⟨session, hk, hlive⟩ := Option.map_eq_some_iff.mp hstart
  obtain ⟨o, answers, hstep, hreplies, -, hclassifies⟩ := batch_refines_calls Sample.setting
    Sample.person 1 Sample.watched 0 session hk hlive Sample.mixed
  have hlost : (((start Sample.setting Sample.person 1).run Sample.watched).step 0
      (.apply Sample.mixed)).reply.outcome?.map (fun o => (o.failures, o.skipped)) =
      some ([(0, .root, .unknownField ⟨3⟩ "age" "Person")],
        [(1, ⟨9⟩, .unknownTarget), (2, .root, .rootDelete)]) := by decide +kernel
  have hmade : (((start Sample.setting Sample.person 1).run Sample.watched).step 0
      (.apply Sample.mixed)).reply.outcome?.map (fun o => (o.applied, o.collected)) =
      some (2, [Sample.year]) := by decide +kernel
  simp only [hstep, Reply.outcome?, Option.map_some, Option.some.injEq, Prod.mk.injEq] at hlost hmade
  obtain ⟨hfailures, hskipped⟩ := hlost
  obtain ⟨happlied, hcollected⟩ := hmade
  rw [hcollected] at hreplies
  exact ⟨session, o, answers, hk, hlive, hstep, hreplies, hclassifies, hfailures, hskipped, happlied⟩

end Server

end LiveQuery
