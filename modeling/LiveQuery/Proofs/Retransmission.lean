import LiveQuery.Proofs.Collection
import LiveQuery.Proofs.Locality

/-!
# Batches that are sent again

A client that does not know whether its batch arrived can send it again. If the batch only adds and
was carried out in full, that does no harm: the ids are all taken, the assignments repeat what is
bound, and what they bind anew is collected again.
-/

namespace LiveQuery

namespace Bindings

section

variable {b : Bindings} {assignments : List Assignment} {v : VariableId}

lemma get?_putAll (b : Bindings) (assignments : List Assignment) (v : VariableId) :
    (b.putAll assignments).get? v =
      ((lastValue assignments v).map fun x => ⟨x, (b.count? v).getD 0⟩).or (b.get? v) := by
  induction assignments generalizing b with
  | nil => rfl
  | cons p rest ih =>
    have hrest := ih (b.put p.variableId p.value)
    have hcount : ((b.put p.variableId p.value).count? v).getD 0 = (b.count? v).getD 0 := by
      rw [count?, get?_put]
      split
      · next hv => rw [hv]; rfl
      · rfl
    rw [hcount, get?_put] at hrest
    rw [lastValue_cons]
    refine hrest.trans ?_
    cases lastValue rest v with
    | some x => rfl
    | none =>
      split
      · next hv => rw [hv]; rfl
      · rfl

/-- What is assigned again has its value already, or goes in the next sweep. -/
lemma sweep_putAll_snd (hpos : ∀ v x, b.get? v = some x → 0 < x.count)
    (hvalues : ∀ v x y, b.value? v = some x → lastValue assignments v = some y → y = x) :
    (b.putAll assignments).sweep.2 = b := by
  have hunmatched : (b.putAll assignments).unmatched = b.unmatched := by
    clear hpos hvalues
    induction assignments generalizing b with
    | nil => rfl
    | cons p rest ih => exact ih (b := b.put p.variableId p.value)
  refine ext_get? (fun v => ?_) hunmatched
  rw [get?_sweep, get?_putAll]
  cases hb : b.get? v with
  | none => cases lastValue assignments v <;> simp [count?, hb, Option.filter]
  | some x =>
    have hcount := hpos v x hb
    cases hlast : lastValue assignments v with
    | none => simp [Option.filter, hcount]
    | some y =>
      have hvalue : y = x.value := hvalues v x.value y (by simp [value?, hb]) hlast
      simp [count?, hb, Option.filter, hcount, hvalue]

lemma mem_sweep_putAll_iff (hpos : ∀ v x, b.get? v = some x → 0 < x.count) :
    v ∈ (b.putAll assignments).sweep.1 ↔
      (∃ p ∈ assignments, p.variableId = v) ∧ ¬ b.contains v := by
  rw [mem_sweep_iff, get?_putAll, ← isSome_lastValue, contains_iff_get?]
  cases hb : b.get? v with
  | none => cases lastValue assignments v <;> simp [count?, hb]
  | some x =>
    have hcount := hpos v x hb
    cases lastValue assignments v <;> simp [count?, hb] <;> omega

end

end Bindings

namespace Tree

section

variable {root : TypeDef} {s : Setting} {t t' : Tree} {target : NodeId} {sel : Selection}
  {sels : List (NodeId × Selection)}

/-- Nothing is left to add of some selections: their targets are there, and the nodes at their
tops. -/
def Settled (t : Tree) (sels : List (NodeId × Selection)) : Prop :=
  ∀ p ∈ sels, t.contains p.1 ∧ t.contains p.2.id

/-! ### The second time -/

lemma change_duplicate (htarget : t.contains target) (hid : t.contains sel.id) :
    t.change s (.add target sel) = ⟨.failed (.duplicateId sel.id), t, []⟩ := by
  obtain ⟨id, field, arguments, children⟩ := sel
  obtain ⟨m, hm⟩ := Option.isSome_iff_exists.mp (t.contains_eq_isSome target ▸ htarget)
  simp only at hid
  simp [change, Change.target, htarget, Tree.add, grow, sprout, hm, typeBelow, hid, Except.map]

lemma changeAll_duplicates (h : t.Settled sels) (index : Nat) :
    t.changeAll s index (sels.map fun (target, sel) => .add target sel) =
      ⟨(sels.zipIdx index).map fun ((target, sel), i) => ⟨i, target, .failed (.duplicateId sel.id)⟩,
        t, []⟩ := by
  induction sels generalizing index with
  | nil => rfl
  | cons p rest ih =>
    obtain ⟨⟨htarget, hid⟩, hrest⟩ := List.forall_mem_cons.mp h
    have hfirst := change_duplicate (s := s) htarget hid
    simp only [List.map_cons, changeAll, hfirst, ih hrest, List.zipIdx_cons, List.nil_append]
    rfl

/-! ### The first time -/

lemma WellFormed.contains_change_add (h : t.WellFormed root) {x : NodeId} (hx : t.contains x)
    (target : NodeId) (sel : Selection) :
    (t.change s (.add target sel)).tree.contains x := by
  obtain ⟨new, hgrows⟩ := h.grows_add (s := s) target sel
  have hadded : (t.add s target sel).tree.contains x := by
    rw [contains_eq_isSome, Option.isSome_iff_exists] at hx ⊢
    obtain ⟨n, hn⟩ := hx
    exact ⟨_, hgrows.old x n hn⟩
  unfold change
  split
  · dsimp only
    split <;> exact hadded
  · exact hx

lemma WellFormed.contains_changeAll (h : t.WellFormed root) {x : NodeId} (hx : t.contains x)
    (index : Nat) (sels : List (NodeId × Selection)) :
    (t.changeAll s index (sels.map fun (target, sel) => .add target sel)).tree.contains x := by
  induction sels generalizing t index with
  | nil => exact hx
  | cons p rest ih =>
    exact ih (h.evolves_change (s := s) _).wellFormed (h.contains_change_add hx p.1 p.2) (index + 1)

lemma WellFormed.contains_of_applied (h : t.WellFormed root)
    (happlied : (t.change s (.add target sel)).result = .applied) :
    t.contains target ∧ (t.change s (.add target sel)).tree.contains sel.id := by
  unfold change at happlied ⊢
  split at happlied
  · next htarget =>
    refine ⟨htarget, ?_⟩
    rw [if_pos htarget]
    dsimp only at happlied ⊢
    rcases hadd : t.add s target sel with ⟨e | id, t', ps⟩
    · simp [hadd] at happlied
    · obtain ⟨m, n, -, -, -, hn, -⟩ := h.published_add hadd
      rw [contains_eq_isSome, Option.isSome_iff_exists]
      exact ⟨n, hn⟩
  · cases happlied

theorem WellFormed.settled_changeAll (h : t.WellFormed root) (index : Nat)
    (happlied : ∀ r ∈ (t.changeAll s index (sels.map fun (target, sel) => .add target sel)).result,
      r.verdict = .applied) :
    (t.changeAll s index (sels.map fun (target, sel) => .add target sel)).tree.Settled sels := by
  induction sels generalizing t index with
  | nil => simp [Settled]
  | cons p rest ih =>
    simp only [List.map_cons, changeAll, List.forall_mem_cons] at happlied
    have hw := (h.evolves_change (s := s) (.add p.1 p.2)).wellFormed
    obtain ⟨htarget, hid⟩ := h.contains_of_applied happlied.1
    have htarget' := h.contains_change_add (s := s) htarget p.1 p.2
    exact List.forall_mem_cons.mpr ⟨⟨hw.contains_changeAll htarget' (index + 1) rest,
      hw.contains_changeAll hid (index + 1) rest⟩, ih hw (index + 1) happlied.2⟩

end

end Tree

namespace Server

section

variable {root : TypeDef} {s s' : Server} {k : Nat} {a : Session} {batch : Batch} {o : Outcome}
  {notices : List Notice}

lemma live_of_applied (h : s.step k (.apply batch) = ⟨.applied o, notices, s'⟩) :
    ∃ a : Session, s.sessions[k]? = some a ∧ a.tree.isLive := by
  simp only [step, onTree] at h
  split at h
  · cases h
  · next a ha => exact ⟨a, live?_eq_ok_iff.mp ha⟩

/-- Once such a batch was carried out in full, nothing is left to add, and what is bound has the
value that the batch assigned last. -/
lemma Sound.settles (hs : s.Sound root) {sels : List (NodeId × Selection)}
    (hadds : batch.changes = sels.map fun (target, sel) => .add target sel)
    (hfirst : s.step k (.apply batch) = ⟨.applied o, notices, s'⟩) (hclean : o.isClean)
    (hk' : s'.sessions[k]? = some a) : a.tree.isLive ∧ a.tree.Settled sels ∧
      ∀ v x y, a.tree.bindings.value? v = some x → lastValue batch.assignments v = some y →
        y = x := by
  obtain ⟨before, hk, hlive⟩ := live_of_applied hfirst
  obtain ⟨b, hb⟩ : ∃ b, b = before.withBindings (before.tree.bindings.putAll batch.assignments) :=
    ⟨_, rfl⟩
  obtain ⟨r, hr⟩ : ∃ r, r = b.tree.changeAll b.setting 0 batch.changes := ⟨_, rfl⟩
  have hstep := step_apply hk hlive batch hb hr
  rw [hfirst] at hstep
  simp only [Response.mk.injEq, Reply.applied.injEq] at hstep
  obtain ⟨rfl, -, rfl⟩ := hstep
  rw [getElem?_setSession hk] at hk'
  cases hk'
  have hw := (hs.wellFormed k before hk).withBindings hb
  have haccounts : b.tree.Accounts (ofSession k s.references) := by
    rw [hb]
    exact Bindings.Exact.putAll (hs.accounted k before hk) batch.assignments
  have hroot := hw.isLive_changeAll (s := b.setting) (hb ▸ hlive) 0 batch.changes
  have hsame := hw.sameValues_changeAll (s := b.setting) haccounts 0 batch.changes
  rw [← hr] at hroot hsame
  refine ⟨hroot, ?_, fun v x y hx hy => ?_⟩
  · have happlied : ∀ report ∈ r.result, report.verdict = .applied := by
      have hcount := (Outcome.isClean_iff _).mp hclean
      rw [Outcome.applied, List.countP_eq_length] at hcount
      exact fun report hreport => by simpa using hcount report hreport
    rw [hr, hadds] at happlied
    have hsettled := hw.settled_changeAll 0 happlied
    rw [← hadds, ← hr] at hsettled
    exact hsettled
  · have hput := hsame.inherits v x (Bindings.inherits_sweep _ v x hx)
    rw [hb] at hput
    simpa [Session.withBindings, Bindings.value?_putAll, hy] using hput

lemma step_settled (hk : s.sessions[k]? = some a) (hlive : a.tree.isLive)
    {sels : List (NodeId × Selection)}
    (hadds : batch.changes = sels.map fun (target, sel) => .add target sel)
    (hsettled : a.tree.Settled sels) (hpos : ∀ v x, a.tree.bindings.get? v = some x → 0 < x.count)
    (hvalues : ∀ v x y, a.tree.bindings.value? v = some x →
      lastValue batch.assignments v = some y → y = x) :
    s.step k (.apply batch) =
      ⟨.applied ⟨batch.assignments.length,
          sels.zipIdx.map fun ((target, sel), i) => ⟨i, target, .failed (.duplicateId sel.id)⟩,
          (a.tree.bindings.putAll batch.assignments).sweep.1⟩, [], s⟩ := by
  obtain ⟨b, hb⟩ : ∃ b, b = a.withBindings (a.tree.bindings.putAll batch.assignments) := ⟨_, rfl⟩
  have hsettled' : b.tree.Settled sels := hb ▸ hsettled
  have hr := Tree.changeAll_duplicates (s := b.setting) hsettled' 0
  rw [← hadds] at hr
  have hself : (b.after b.tree []).withBindings b.tree.bindings.sweep.2 = a := by
    have hsweep := Bindings.sweep_putAll_snd hpos hvalues
    rw [hb]
    simp only [Session.withBindings, Session.after, Switchboard.deliverAll, hsweep]
  rw [step_apply hk hlive batch hb hr.symm, hself, setSession_self hk, hb]
  rfl

end

/-- Whatever happened before, a batch that only adds and that was carried out in full can be sent
again without harm. All its additions fail because their ids are taken, nobody is told anything, the
server stays as it is, and collected are those of the variables it assigns that nobody refers to. -/
theorem retransmission_harmless (setting : Setting) (root : TypeDef) (count : Nat)
    (cs : List (Nat × Command)) (k : Nat) (batch : Batch) (sels : List (NodeId × Selection))
    (hadds : batch.changes = sels.map fun (target, sel) => .add target sel)
    (o : Outcome) (notices : List Notice) (s : Server)
    (hfirst : ((start setting root count).run cs).step k (.apply batch) = ⟨.applied o, notices, s⟩)
    (hclean : o.isClean) :
    ∃ (o' : Outcome) (a : Session), s.sessions[k]? = some a ∧
      s.step k (.apply batch) = ⟨.applied o', [], s⟩ ∧
      o'.failures = sels.zipIdx.map (fun ((target, sel), i) => (i, target, .duplicateId sel.id)) ∧
      o'.skipped = [] ∧ o'.collected.Pairwise (fun v w => v.index < w.index) ∧
      ∀ v, v ∈ o'.collected ↔ (∃ p ∈ batch.assignments, p.variableId = v) ∧
        ¬ a.tree.Refers (s.outstanding k) v := by
  have hs := sound_run setting root count cs
  obtain ⟨before, hk, hlive⟩ := live_of_applied hfirst
  obtain ⟨_, _, _, a, hstep, hk', hcollects⟩ := hs.step_collects hk hlive batch
  rw [hfirst] at hstep
  cases hstep
  obtain ⟨hlive', hsettled, hvalues⟩ := hs.settles hadds hfirst hclean hk'
  refine ⟨_, a, hk', step_settled hk' hlive' hadds hsettled hcollects.count_pos hvalues, ?_, ?_,
    Bindings.sweep_ascending _, fun v => ?_⟩
  · simp only [Outcome.failures, List.filterMap_map]
    rw [← List.filterMap_eq_map]
    rfl
  · simp only [Outcome.skipped, List.filterMap_map, List.filterMap_eq_nil_iff]
    exact fun _ _ => rfl
  · rw [Bindings.mem_sweep_putAll_iff hcollects.count_pos, hcollects.kept_iff]

namespace Sample

def spare : VariableId := ⟨13⟩

/-- The second selection goes below the first. -/
def newcomers : List (NodeId × Selection) := [
  (.root,
    { id := ⟨3⟩, field := "friend", arguments := [⟨"since", year⟩, ⟨"at", minute⟩],
      children := [{ id := ⟨4⟩, field := "name" }] }),
  (⟨3⟩, { id := ⟨5⟩, field := "friend", arguments := [⟨"since", year⟩] })]

/-- One variable is assigned twice, one for nobody, and one to which a reference is kept. -/
def extended : Batch where
  assignments := [⟨year, .int 2021⟩, ⟨minute, .int 30⟩, ⟨spare, .int 0⟩, ⟨year, .int 2022⟩,
    ⟨second, .int 1⟩]
  changes := newcomers.map fun (target, sel) => .add target sel

end Sample

theorem retransmission_harmless_extended : ∃ (o : Outcome) (notices : List Notice) (s : Server),
    ((start Sample.setting Sample.person 1).run Sample.timed).step 0 (.apply Sample.extended) =
      ⟨.applied o, notices, s⟩ ∧ o.isClean ∧
    ∃ o' : Outcome, s.step 0 (.apply Sample.extended) = ⟨.applied o', [], s⟩ ∧
      o'.failures = [(0, .root, .duplicateId ⟨3⟩), (1, ⟨3⟩, .duplicateId ⟨5⟩)] ∧
      o'.collected = [Sample.spare] := by
  have houtcome : (((start Sample.setting Sample.person 1).run Sample.timed).step 0
      (.apply Sample.extended)).reply.outcome?.map (·.isClean) = some true := by decide +kernel
  have hagain : ((((start Sample.setting Sample.person 1).run Sample.timed).step 0
      (.apply Sample.extended)).server.step 0 (.apply Sample.extended)).reply.outcome?.map
      (·.collected) = some [Sample.spare] := by decide +kernel
  obtain ⟨o, ho, hclean⟩ := Option.map_eq_some_iff.mp houtcome
  rcases hfirst : ((start Sample.setting Sample.person 1).run Sample.timed).step 0
    (.apply Sample.extended) with ⟨reply, notices, s⟩
  rw [hfirst] at ho hagain
  obtain rfl : reply = .applied o := by
    cases reply <;> simp only [Reply.outcome?, Option.some.injEq, reduceCtorEq] at ho
    rw [ho]
  obtain ⟨o', a, -, hstep, hfailures, -⟩ := retransmission_harmless Sample.setting Sample.person 1
    Sample.timed 0 Sample.extended Sample.newcomers rfl o notices s hfirst hclean
  simp only [hstep, Reply.outcome?, Option.map_some, Option.some.injEq] at hagain
  exact ⟨o, notices, s, rfl, hclean, o', hstep, hfailures, hagain⟩

end Server

end LiveQuery
