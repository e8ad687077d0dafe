import LiveQuery.Proofs.SingleCalls
import LiveQuery.Proofs.Stages
import LiveQuery.Proofs.Thinning

/-!
# Batches in two parts

A batch can be sent in two parts. The sweep between them takes bindings away that the whole batch
would have kept until its end, and nothing else comes of it, unless a change of the second part asks
for one of these bindings. What the two parts collect is together what the whole batch collects.
-/

namespace LiveQuery

/-- The report on the same change when `n` further changes stand before it. -/
def Report.shift (n : Nat) (r : Report) : Report := { r with index := r.index + n }

/-- To the whole of a batch the response is `r`, to its parts, `n` changes in the first of them,
they are `r₁` and `r₂` with these outcomes. -/
structure Response.Splits (n : Nat) (r r₁ r₂ : Response) (o₁ o₂ : Outcome) : Prop where
  outcome : ∃ o, r.reply = .applied o ∧ o.reports = o₁.reports ++ o₂.reports.map (·.shift n) ∧
    o.collected = o₁.collected.merge o₂.collected (·.index ≤ ·.index)
  disjoint : o₁.collected.Disjoint o₂.collected
  notices : r.notices = r₁.notices ++ r₂.notices
  server : r.server = r₂.server

namespace Tree

lemma changeAll_shift (s : Setting) (index n : Nat) (cs : List Change) (t : Tree) :
    t.changeAll s (index + n) cs = ⟨(t.changeAll s index cs).result.map (·.shift n),
      (t.changeAll s index cs).tree, (t.changeAll s index cs).published⟩ := by
  induction cs generalizing index t with
  | nil => rfl
  | cons c rest ih =>
    have hindex : index + n + 1 = index + 1 + n := by omega
    simp only [changeAll, hindex, ih, List.map_cons, Report.shift]

lemma result_changeAll_append (s : Setting) (index : Nat) (cs later : List Change) (t : Tree) :
    (t.changeAll s index (cs ++ later)).result = (t.changeAll s index cs).result ++
      ((t.changeAll s index cs).tree.changeAll s (index + cs.length) later).result := by
  induction cs generalizing index t with
  | nil => rfl
  | cons c rest ih =>
    have hindex : index + (c :: rest).length = index + 1 + rest.length := by
      simp only [List.length_cons]
      omega
    simp only [List.cons_append, changeAll, ih, hindex]

end Tree

namespace Bindings

variable {gone : List VariableId} {b c : Bindings}

lemma nodup_of_ascending {l : List VariableId} (h : l.Pairwise fun v w => v.index < w.index) :
    l.Nodup := by
  refine h.imp ?_
  rintro v w hlt rfl
  exact UInt32.lt_irrefl _ hlt

lemma sorted_of_ascending {l : List VariableId} (h : l.Pairwise fun v w => v.index < w.index) :
    l.Pairwise fun v w => decide (v.index ≤ w.index) = true := by
  refine h.imp ?_
  intro v w hlt
  exact decide_eq_true (UInt32.le_of_lt hlt)

lemma Thins.sweep_merge (h : Thins gone b c) (hgone : gone.Pairwise fun v w => v.index < w.index) :
    b.sweep.1 = gone.merge c.sweep.1 (·.index ≤ ·.index) := by
  have hmerged : (gone.merge c.sweep.1 (·.index ≤ ·.index)).Pairwise
      fun v w => decide (v.index ≤ w.index) = true := by
    apply List.pairwise_merge
    · intro u v w huv hvw
      exact decide_eq_true (UInt32.le_trans (of_decide_eq_true huv) (of_decide_eq_true hvw))
    · intro v w
      simpa using UInt32.le_total v.index w.index
    · exact sorted_of_ascending hgone
    · exact sorted_of_ascending c.sweep_ascending
  have hunion : (gone ++ c.sweep.1).Nodup :=
    (nodup_of_ascending hgone).append (nodup_of_ascending c.sweep_ascending)
      fun v hv hc => h.not_mem_sweep hv hc
  have hperm : b.sweep.1.Perm (gone.merge c.sweep.1 (·.index ≤ ·.index)) := by
    refine List.Perm.trans ?_ (List.merge_perm_append _).symm
    refine (List.perm_ext_iff_of_nodup (nodup_of_ascending b.sweep_ascending) hunion).mpr ?_
    intro v
    rw [h.mem_sweep_iff, List.mem_append]
  refine hperm.eq_of_pairwise ?_ (sorted_of_ascending b.sweep_ascending) hmerged
  intro v w _ _ hvw hwv
  exact VariableId.ext (UInt32.le_antisymm (of_decide_eq_true hvw) (of_decide_eq_true hwv))

end Bindings

namespace Server

section

variable {root : TypeDef} {s : Server} {k : Nat} {a : Session}

lemma Sound.step_split (hs : s.Sound root) (hk : s.sessions[k]? = some a) (hlive : a.tree.isLive)
    (assignments : List Assignment) (first second : List Change) : ∃ o₁ o₂ : Outcome,
      (s.step k (.apply ⟨assignments, first⟩)).reply = .applied o₁ ∧
      ((s.step k (.apply ⟨assignments, first⟩)).server.step k (.apply ⟨[], second⟩)).reply =
        .applied o₂ ∧
      ((∀ f ∈ o₂.failures, ¬ f.2.2.isUnbound) →
        Response.Splits first.length (s.step k (.apply ⟨assignments, first ++ second⟩))
          (s.step k (.apply ⟨assignments, first⟩))
          ((s.step k (.apply ⟨assignments, first⟩)).server.step k (.apply ⟨[], second⟩))
          o₁ o₂) := by
  obtain ⟨b, hb⟩ : ∃ b, b = a.withBindings (a.tree.bindings.putAll assignments) := ⟨_, rfl⟩
  have hw := (hs.wellFormed k a hk).withBindings hb
  have hliveb : b.tree.isLive := hb ▸ hlive
  rcases hr₁ : b.tree.changeAll b.setting 0 first with ⟨rs₁, t₁, ps₁⟩
  have hstep₁ := step_apply hk hlive ⟨assignments, first⟩ hb hr₁.symm
  obtain ⟨a₁, ha₁⟩ : ∃ a₁, a₁ = (b.after t₁ ps₁).withBindings t₁.bindings.sweep.2 := ⟨_, rfl⟩
  have hlive₁ : a₁.tree.isLive := by
    have hafter := hw.isLive_changeAll (s := b.setting) hliveb 0 first
    rw [hr₁] at hafter
    rw [ha₁]
    exact hafter
  have hthin : Tree.Thins t₁.bindings.sweep.1 t₁ a₁.tree :=
    ⟨_, Bindings.thins_sweep t₁.bindings, by rw [ha₁]; rfl⟩
  rcases hr₂ : a₁.tree.changeAll b.setting 0 second with ⟨rs₂, t₂, ps₂⟩
  have hk₁ := getElem?_setSession hk a₁
  have hsetting : a₁.setting = b.setting := by
    rw [ha₁]
    rfl
  have hstep₂ := step_apply (b := a₁) (r := ⟨rs₂, t₂, ps₂⟩) hk₁ hlive₁ ⟨[], second⟩ rfl
    (by rw [hsetting]; exact hr₂.symm)
  rw [hstep₁]
  simp only
  rw [← ha₁, hstep₂]
  refine ⟨_, _, rfl, rfl, fun hbound => ?_⟩
  obtain ⟨t, ht, ⟨c, hc, rfl⟩⟩ := hthin.changeAll 0 second hr₂ (by
    rintro ⟨i, target, verdict⟩ hr e rfl
    exact hbound (i, target, e) (Outcome.mem_failures_iff.mpr hr))
  obtain ⟨htree, hpublished⟩ := Tree.changeAll_append b.setting 0 first second b.tree
  have hresult := Tree.result_changeAll_append b.setting 0 first second b.tree
  rw [hr₁, Tree.changeAll_shift, ht] at htree hpublished hresult
  have hstep := step_apply hk hlive ⟨assignments, first ++ second⟩ hb rfl
  simp only [htree, hpublished, hresult] at hstep
  rw [hstep]
  refine ⟨⟨_, rfl, rfl, ?_⟩, ?_, ?_, ?_⟩
  · exact hc.sweep_merge t₁.bindings.sweep_ascending
  · exact fun v hv hv' => hc.not_mem_sweep hv hv'
  · rw [Switchboard.deliverAll_append, ha₁]
    rfl
  · rw [setSession_setSession, ha₁]
    simp only [Session.withBindings, Session.after, Switchboard.deliverAll_append, hc.sweep_eq]

end

/-- Whatever happened before, a batch leaves and tells what its two parts leave and tell when they
are sent one right after the other, the assignments with the first of them, unless a change of the
second part is refused for a variable that is not bound. The changes are reported on alike, and the
whole batch collects what the two parts collect. -/
theorem split_batch_conservative (setting : Setting) (root : TypeDef) (count : Nat)
    (cs : List (Nat × Command)) (k : Nat) (a : Session)
    (hk : ((start setting root count).run cs).sessions[k]? = some a) (hlive : a.tree.isLive)
    (assignments : List Assignment) (first second : List Change) : ∃ o₁ o₂ : Outcome,
      (((start setting root count).run cs).step k (.apply ⟨assignments, first⟩)).reply =
        .applied o₁ ∧
      ((((start setting root count).run cs).step k (.apply ⟨assignments, first⟩)).server.step k
        (.apply ⟨[], second⟩)).reply = .applied o₂ ∧
      ((∀ f ∈ o₂.failures, ¬ f.2.2.isUnbound) →
        Response.Splits first.length
          (((start setting root count).run cs).step k (.apply ⟨assignments, first ++ second⟩))
          (((start setting root count).run cs).step k (.apply ⟨assignments, first⟩))
          ((((start setting root count).run cs).step k (.apply ⟨assignments, first⟩)).server.step k
            (.apply ⟨[], second⟩)) o₁ o₂) :=
  (sound_run setting root count cs).step_split hk hlive assignments first second

namespace Sample

def day : VariableId := ⟨9⟩

/-- Two variables are assigned of which one is used, in place of one that was used before. -/
def replaced : Batch where
  assignments := [⟨day, .int 6⟩, ⟨⟨8⟩, .int 5⟩]
  changes := [.delete ⟨1⟩, .add .root { id := ⟨2⟩, field := "friend", arguments := [⟨"on", day⟩] }]

/-- A change is refused, and the variable that was used is used no more. -/
def undone : List Change :=
  [.add ⟨2⟩ { id := ⟨3⟩, field := "age" }, .delete ⟨2⟩, .delete ⟨9⟩]

end Sample

/-- The sweep in between leaves one of three variables for the second part to collect. -/
theorem split_batch_conservative_replaced : ∃ (a : Session) (o₁ o₂ : Outcome),
    ((start Sample.setting Sample.person 1).run Sample.watched).sessions[0]? = some a ∧
    a.tree.isLive ∧ o₁.collected = [Sample.year, ⟨8⟩] ∧ o₂.collected = [Sample.day] ∧
    o₂.failures = [(0, ⟨2⟩, .unknownField ⟨3⟩ "age" "Person")] ∧
    Response.Splits 2
      (((start Sample.setting Sample.person 1).run Sample.watched).step 0
        (.apply ⟨Sample.replaced.assignments, Sample.replaced.changes ++ Sample.undone⟩))
      (((start Sample.setting Sample.person 1).run Sample.watched).step 0 (.apply Sample.replaced))
      ((((start Sample.setting Sample.person 1).run Sample.watched).step 0
        (.apply Sample.replaced)).server.step 0 (.apply ⟨[], Sample.undone⟩)) o₁ o₂ := by
  have hstart : (((start Sample.setting Sample.person 1).run Sample.watched).sessions[0]?).map
      (·.tree.isLive) = some true := by cbv
  obtain ⟨a, hk, hlive⟩ := Option.map_eq_some_iff.mp hstart
  obtain ⟨o₁, o₂, hreply₁, hreply₂, hsplits⟩ := split_batch_conservative Sample.setting
    Sample.person 1 Sample.watched 0 a hk hlive Sample.replaced.assignments
    Sample.replaced.changes Sample.undone
  have hfirst : (((start Sample.setting Sample.person 1).run Sample.watched).step 0
      (.apply Sample.replaced)).reply.outcome?.map (·.collected) = some [Sample.year, ⟨8⟩] := by
    decide +kernel
  have hsecond : ((((start Sample.setting Sample.person 1).run Sample.watched).step 0
      (.apply Sample.replaced)).server.step 0 (.apply ⟨[], Sample.undone⟩)).reply.outcome?.map
        (fun o => (o.collected, o.failures)) =
      some ([Sample.day], [(0, ⟨2⟩, .unknownField ⟨3⟩ "age" "Person")]) := by decide +kernel
  change (((start Sample.setting Sample.person 1).run Sample.watched).step 0
    (.apply Sample.replaced)).reply = _ at hreply₁
  change ((((start Sample.setting Sample.person 1).run Sample.watched).step 0
    (.apply Sample.replaced)).server.step 0 (.apply ⟨[], Sample.undone⟩)).reply = _ at hreply₂
  simp only [hreply₁, hreply₂, Reply.outcome?, Option.map_some, Option.some.injEq,
    Prod.mk.injEq] at hfirst hsecond
  obtain ⟨hcollected, hfailures⟩ := hsecond
  refine ⟨a, o₁, o₂, hk, hlive, hfirst, hcollected, hfailures, hsplits ?_⟩
  rw [hfailures]
  decide

end Server

end LiveQuery
