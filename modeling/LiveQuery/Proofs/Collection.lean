import LiveQuery.Proofs.SingleCalls
import LiveQuery.Proofs.Values

/-!
# Collection

A batch ends with a sweep. Of the variables that were bound before it or are assigned by it, the
sweep takes away exactly those that nobody refers to when all changes are made, whatever was added,
refused and removed on the way.
-/

namespace LiveQuery

namespace Bindings

section

variable {b : Bindings} {v : VariableId}

lemma contains_iff_get? : b.contains v ↔ ∃ x, b.get? v = some x := by
  rw [contains, get?, Std.ExtTreeMap.contains_eq_isSome_getElem?, Option.isSome_iff_exists]

lemma contains_iff_value? : b.contains v ↔ (b.value? v).isSome := by
  rw [contains_iff_get?, value?, Option.isSome_map, Option.isSome_iff_exists]

lemma SameValues.contains_iff {c : Bindings} (h : b.SameValues c) :
    b.contains v ↔ c.contains v := by
  rw [contains_iff_value?, contains_iff_value?, value?, h v]
  rfl

lemma contains_putAll_iff {assignments : List Assignment} :
    (b.putAll assignments).contains v ↔
      b.contains v ∨ ∃ p ∈ assignments, p.variableId = v := by
  rw [contains_iff_value?, value?_putAll, Option.isSome_or, Bool.or_eq_true, isSome_lastValue,
    contains_iff_value?, or_comm]

lemma mem_sweep_or_contains_iff : v ∈ b.sweep.1 ∨ b.sweep.2.contains v ↔ b.contains v := by
  rw [mem_sweep_iff, contains_iff_get?, contains_iff_get?, get?_sweep]
  cases b.get? v with
  | none => simp
  | some x => by_cases hx : x.count = 0 <;> simp [Option.filter, hx, Nat.pos_iff_ne_zero]

lemma not_contains_of_mem_sweep (h : v ∈ b.sweep.1) : ¬ b.sweep.2.contains v := by
  rw [contains_iff_get?, sweep_get?_of_mem h]
  simp

lemma count_pos_of_sweep {x : Binding} (h : b.sweep.2.get? v = some x) : 0 < x.count := by
  rw [get?_sweep] at h
  simpa using (Option.filter_eq_some_iff.mp h).2

lemma sweep_eq_self (h : ∀ v x, b.get? v = some x → 0 < x.count) : b.sweep = ([], b) := by
  apply Prod.ext
  · refine List.eq_nil_iff_forall_not_mem.mpr ?_
    intro v hv
    obtain ⟨x, hx, hzero⟩ := mem_sweep_iff.mp hv
    exact absurd hzero (Nat.ne_of_gt (h v x hx))
  · refine ext_get? ?_ rfl
    intro v
    rw [get?_sweep]
    cases hx : b.get? v with
    | none => rfl
    | some x => simp [Option.filter, h v x hx]

end

end Bindings

namespace Tree

/-- The argument of a node refers to a variable, or one of the references that are `out` does. -/
def Refers (t : Tree) (out : List Reference) (v : VariableId) : Prop :=
  (∃ e ∈ t.entries, e.2.2.variableId = v) ∨ ∃ r ∈ out, r.variableId = v

/-- From `t` to `t'` variables were assigned and, while the references `out` were handed out, those
nobody refers to were collected. -/
structure Collects (t : Tree) (assignments : List Assignment) (collected : List VariableId)
    (t' : Tree) (out : List Reference) : Prop where
  ascending : collected.Pairwise fun v w => v.index < w.index
  partition : ∀ v, v ∈ collected ∨ t'.bindings.contains v ↔
    t.bindings.contains v ∨ ∃ p ∈ assignments, p.variableId = v
  disjoint : ∀ v ∈ collected, ¬ t'.bindings.contains v
  kept_iff : ∀ v, t'.bindings.contains v ↔ t'.Refers out v
  count_pos : ∀ v x, t'.bindings.get? v = some x → 0 < x.count

section

variable {root : TypeDef} {s : Setting} {t : Tree} {out : List Reference}

lemma refers_iff {v : VariableId} :
    t.Refers out v ↔ ∃ r ∈ t.held ++ out, r.variableId = v := by
  simp only [Refers, held, List.mem_append, List.mem_map, or_and_right, exists_or]
  apply or_congr_left
  constructor
  · rintro ⟨e, he, hv⟩
    exact ⟨e.2.2, ⟨e, he, rfl⟩, hv⟩
  · rintro ⟨_, ⟨e, he, rfl⟩, hv⟩
    exact ⟨e, he, hv⟩

lemma Accounts.contains_iff (h : t.Accounts out)
    (hpos : ∀ v x, t.bindings.get? v = some x → 0 < x.count) (v : VariableId) :
    t.bindings.contains v ↔ t.Refers out v := by
  rw [Bindings.contains_iff_get?, refers_iff]
  constructor
  · rintro ⟨x, hx⟩
    have hcount := hpos v x hx
    rw [Bindings.Exact.count_of_bound h hx, List.countP_pos_iff] at hcount
    simpa using hcount
  · rintro ⟨r, hr, rfl⟩
    exact Bindings.Exact.bound_of_mem h hr

/-- The sweep at the end of a batch is exact, because the counts are. -/
theorem WellFormed.collects (h : t.WellFormed root) (ha : t.Accounts out) (batch : Batch) :
    t.Collects batch.assignments (t.apply s batch).result.collected (t.apply s batch).tree out := by
  have hput := h.evolves_bindings fun _ hb => hb.putAll batch.assignments
  have hvalues := hput.wellFormed.sameValues_changeAll (s := s) (hput.accounts out ha) 0
    batch.changes
  have hpos : ∀ v x, (t.apply s batch).tree.bindings.get? v = some x → 0 < x.count :=
    fun _ _ => Bindings.count_pos_of_sweep
  constructor
  case ascending => exact Bindings.sweep_ascending _
  case partition =>
    intro v
    refine Bindings.mem_sweep_or_contains_iff.trans ?_
    rw [← hvalues.contains_iff, Bindings.contains_putAll_iff]
  case disjoint => exact fun _ => Bindings.not_contains_of_mem_sweep
  case kept_iff => exact ((h.evolves_apply batch).accounts out ha).contains_iff hpos
  case count_pos => exact hpos

end

end Tree

namespace Server

section

variable {root : TypeDef} {s : Server} {k : Nat} {a : Session}

lemma step_sweep_of_collects {t : Tree} {assignments : List Assignment}
    {collected : List VariableId} {out : List Reference} (hk : s.sessions[k]? = some a)
    (h : t.Collects assignments collected a.tree out) : s.step k .sweep = ⟨.swept [], [], s⟩ := by
  rw [step_sweep hk, Bindings.sweep_eq_self h.count_pos]
  have hself : a.withBindings a.tree.bindings = a := rfl
  rw [hself, setSession_self hk]

lemma Sound.step_collects (hs : s.Sound root) (hk : s.sessions[k]? = some a)
    (hlive : a.tree.isLive) (batch : Batch) :
    ∃ (o : Outcome) (notices : List Notice) (s' : Server) (b : Session),
      s.step k (.apply batch) = ⟨.applied o, notices, s'⟩ ∧ s'.sessions[k]? = some b ∧
      a.tree.Collects batch.assignments o.collected b.tree (s'.outstanding k) := by
  have hsession : s.live? k = .ok a := live?_eq_ok_iff.mpr ⟨hk, hlive⟩
  have hstep : s.step k (.apply batch) = ⟨.applied (a.tree.apply a.setting batch).result,
      (a.switchboard.deliverAll (a.tree.apply a.setting batch).published).1,
      s.setSession k (a.after (a.tree.apply a.setting batch).tree
        (a.tree.apply a.setting batch).published)⟩ := by
    simp only [Server.step, onTree, hsession, Session.perform, Session.after]
  exact ⟨_, _, _, _, hstep, getElem?_setSession hk _,
    (hs.wellFormed k a hk).collects (hs.accounted k a hk) batch⟩

lemma value_of_run {setting : Setting} {count : Nat} {cs : List (Nat × Command)}
    (hk : ((start setting root count).run cs).sessions[k]? = some a) {v : VariableId} {x : Json}
    (hx : a.tree.bindings.value? v = some x) :
    lastValue ((start setting root count).assigned k cs) v = some x := by
  have hstart : ∀ a : Session, (start setting root count).sessions[k]? = some a →
      ∀ v x, a.tree.bindings.value? v = some x → lastValue [] v = some x := by
    intro a ha v x hx
    obtain rfl := List.eq_of_mem_replicate (List.mem_of_getElem? ha)
    simp [Session.start, Tree.ofRoot, Bindings.value?] at hx
  exact (sound_start setting root count).value_run hstart hk hx

end

/-- Whatever happened before, a batch collects exactly those of the variables bound before it or
assigned by it that neither an argument of a node nor a reference that was handed out refers to when
it is done. The others have the values last assigned to them, and a sweep right after the batch
finds nothing. -/
theorem batch_collects_exactly (setting : Setting) (root : TypeDef) (count : Nat)
    (cs : List (Nat × Command)) (k : Nat) (session : Session)
    (hk : ((start setting root count).run cs).sessions[k]? = some session)
    (hlive : session.tree.isLive) (batch : Batch) :
    ∃ (o : Outcome) (notices : List Notice) (s' : Server) (session' : Session),
      ((start setting root count).run cs).step k (.apply batch) = ⟨.applied o, notices, s'⟩ ∧
      s'.sessions[k]? = some session' ∧
      session.tree.Collects batch.assignments o.collected session'.tree (s'.outstanding k) ∧
      (∀ v x, session'.tree.bindings.value? v = some x →
        lastValue ((start setting root count).assigned k (cs ++ [(k, .apply batch)])) v = some x) ∧
      s'.step k .sweep = ⟨.swept [], [], s'⟩ := by
  obtain ⟨o, notices, s', session', hstep, hk', hcollects⟩ :=
    (sound_run setting root count cs).step_collects hk hlive batch
  have hrun : (start setting root count).run (cs ++ [(k, .apply batch)]) = s' := by
    rw [run_append, run, run, hstep]
  refine ⟨o, notices, s', session', hstep, hk', hcollects, ?_, step_sweep_of_collects hk' hcollects⟩
  intro v x hx
  rw [← hrun] at hk'
  exact value_of_run hk' hx

namespace Sample

def hour : VariableId := ⟨10⟩

def minute : VariableId := ⟨11⟩

def second : VariableId := ⟨12⟩

/-- A second child of the root refers to another variable, and a reference is kept to a third. -/
def timed : List (Nat × Command) :=
  watched ++ [(0, .put hour (.int 12)),
    (0, .add .root { id := ⟨2⟩, field := "friend", arguments := [⟨"at", hour⟩] }),
    (0, .put second (.int 59)), (0, .acquire second "mine")]

/-- Both children are removed. A child that is refused would refer to a new variable, and the last
child refers to the variable the first one referred to. -/
def renewed : Batch where
  assignments := [⟨minute, .int 30⟩, ⟨year, .int 2021⟩]
  changes := [.delete ⟨1⟩, .delete ⟨2⟩,
    .add .root { id := ⟨3⟩, field := "age", arguments := [⟨"at", minute⟩] },
    .add .root { id := ⟨4⟩, field := "friend", arguments := [⟨"since", year⟩] }]

end Sample

theorem batch_collects_exactly_renewed :
    ∃ (session session' : Session) (o : Outcome) (notices : List Notice) (s' : Server),
      ((start Sample.setting Sample.person 1).run Sample.timed).sessions[0]? = some session ∧
      session.tree.isLive ∧
      ((start Sample.setting Sample.person 1).run Sample.timed).step 0 (.apply Sample.renewed) =
        ⟨.applied o, notices, s'⟩ ∧
      s'.sessions[0]? = some session' ∧
      session.tree.Collects Sample.renewed.assignments o.collected session'.tree
        (s'.outstanding 0) ∧
      o.collected = [Sample.hour, Sample.minute] ∧
      session'.tree.bindings.contains Sample.year ∧
      session'.tree.bindings.contains Sample.second ∧
      s'.step 0 .sweep = ⟨.swept [], [], s'⟩ := by
  have hstart : (((start Sample.setting Sample.person 1).run Sample.timed).sessions[0]?).map
      (·.tree.isLive) = some true := by decide +kernel
  obtain ⟨session, hk, hlive⟩ := Option.map_eq_some_iff.mp hstart
  obtain ⟨o, notices, s', session', hstep, hk', hcollects, -, hsweep⟩ := batch_collects_exactly
    Sample.setting Sample.person 1 Sample.timed 0 session hk hlive Sample.renewed
  have hreply : (((start Sample.setting Sample.person 1).run Sample.timed).step 0
      (.apply Sample.renewed)).reply.outcome?.map (·.collected) =
      some [Sample.hour, Sample.minute] := by decide +kernel
  have hbound : ((((start Sample.setting Sample.person 1).run Sample.timed).step 0
      (.apply Sample.renewed)).server.sessions[0]?).map (fun a =>
      (a.tree.bindings.contains Sample.year, a.tree.bindings.contains Sample.second)) =
      some (true, true) := by decide +kernel
  simp only [hstep, Reply.outcome?, Option.map_some, Option.some.injEq] at hreply
  simp only [hstep, hk', Option.map_some, Option.some.injEq, Prod.mk.injEq] at hbound
  exact ⟨session, session', o, notices, s', hk, hlive, hstep, hk', hcollects, hreply, hbound.1,
    hbound.2, hsweep⟩

end Server

end LiveQuery
