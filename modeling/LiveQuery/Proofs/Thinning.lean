import LiveQuery.Batch.Outcome
import LiveQuery.Proofs.Holdings

/-!
# Trees without some of their idle bindings

A sweep takes idle bindings away, to which no reference is out. Whatever is done to the tree after
that goes as it would have gone without the sweep, unless a change asks for a binding that was swept
away, and is refused because of it. That is the only check a missing binding can make a difference
to.
-/

namespace LiveQuery

namespace Worklist

lemma run_rel {ι σ ω : Type} (visit : ι → σ → List ι × σ × List ω) {R : σ → σ → Prop}
    (h : ∀ item x y, R x y → (visit item x).1 = (visit item y).1 ∧
      R (visit item x).2.1 (visit item y).2.1 ∧ (visit item x).2.2 = (visit item y).2.2)
    (fuel : Nat) (pending : List ι) (output : Array ω) {x y : σ} (hxy : R x y) :
    R (run visit fuel ⟨pending, x, output⟩).state (run visit fuel ⟨pending, y, output⟩).state ∧
      (run visit fuel ⟨pending, x, output⟩).output =
        (run visit fuel ⟨pending, y, output⟩).output := by
  induction fuel generalizing pending x y output with
  | zero => exact ⟨hxy, rfl⟩
  | succ fuel ih =>
    cases pending with
    | nil =>
      rw [run_of_finished visit _ rfl, run_of_finished visit _ rfl]
      exact ⟨hxy, rfl⟩
    | cons item rest =>
      obtain ⟨hnext, hstate, hwritten⟩ := h item x y hxy
      rw [run_succ, run_succ, step_cons, step_cons, hnext, hwritten]
      exact ih _ _ hstate

end Worklist

namespace Bindings

/-- `c` is `b` without some idle bindings, those of the variables that are `gone`. -/
structure Thins (gone : List VariableId) (b c : Bindings) : Prop where
  absent : ∀ v ∈ gone, c.get? v = none ∧ ∃ binding, b.get? v = some binding ∧ binding.count = 0
  same : ∀ v, v ∉ gone → c.get? v = b.get? v
  unmatched : c.unmatched = b.unmatched

section

variable {gone : List VariableId} {b c c' : Bindings} {v : VariableId}

lemma thins_sweep (b : Bindings) : Thins b.sweep.1 b b.sweep.2 where
  absent v hv := ⟨sweep_get?_of_mem hv, mem_sweep_iff.mp hv⟩
  same v hv := by
    rw [get?_sweep]
    cases hb : b.get? v with
    | none => rfl
    | some binding =>
      have hcount : 0 < binding.count := by
        by_contra hzero
        exact hv (mem_sweep_iff.mpr ⟨binding, hb, by omega⟩)
      rw [Option.filter_some, decide_eq_true hcount, if_pos rfl]
  unmatched := rfl

namespace Thins

/-- To give back a reference that is not out makes no difference to an idle binding. -/
lemma release (h : Thins gone b c) (v : VariableId) : Thins gone (b.release v) (c.release v) where
  absent w hw := by
    obtain ⟨hnone, binding, hb, hcount⟩ := h.absent w hw
    rw [get?_release, get?_release, hnone, hb]
    split
    · exact ⟨rfl, _, rfl, by simp [hcount]⟩
    · exact ⟨rfl, binding, rfl, hcount⟩
  same w hw := by
    rw [get?_release, get?_release, h.same w hw]
  unmatched := by
    have hcount : (c.count? v).getD 0 = (b.count? v).getD 0 := by
      by_cases hv : v ∈ gone
      · obtain ⟨hnone, binding, hb, hcount⟩ := h.absent v hv
        rw [count?, count?, hnone, hb, Option.map_some, hcount]
        rfl
      · rw [count?, count?, h.same v hv]
    simp only [Bindings.release, hcount, h.unmatched]

lemma releaseAll (h : Thins gone b c) (held : References) :
    Thins gone (b.releaseAll held) (c.releaseAll held) := by
  rw [releaseAll_eq, releaseAll_eq]
  generalize held.all = rs
  induction rs generalizing b c with
  | nil => exact h
  | cons r rs ih => exact ih (h.release r.variableId)

lemma acquire (h : Thins gone b c) {r : Reference} (ha : c.acquire? v = some (r, c')) :
    ∃ b', b.acquire? v = some (r, b') ∧ Thins gone b' c' := by
  obtain ⟨binding, hc, rfl, rfl⟩ := acquire?_eq_some_iff.mp ha
  have hv : v ∉ gone := by
    intro hv
    rw [(h.absent v hv).1] at hc
    cases hc
  have hb := h.same v hv
  rw [hc] at hb
  refine ⟨_, acquire?_eq_some_iff.mpr ⟨binding, hb.symm, rfl, rfl⟩, ?_, ?_, h.unmatched⟩
  · intro w hw
    have hne : v ≠ w := by
      rintro rfl
      exact hv hw
    rw [get?_insert, get?_insert, if_neg hne, if_neg hne]
    exact h.absent w hw
  · intro w hw
    rw [get?_insert, get?_insert, h.same w hw]

lemma keep (h : Thins gone b c) (held : References) (name : String) (r : Reference) :
    Thins gone (b.keep held name r).2 (c.keep held name r).2 := by
  unfold Bindings.keep
  cases held[name]? with
  | none => exact h
  | some old => exact h.release old.variableId

lemma hold (h : Thins gone b c) {held held' : References} {args : List Argument}
    (hhold : c.hold held args = (.ok held', c')) :
    ∃ b', b.hold held args = (.ok held', b') ∧ Thins gone b' c' := by
  induction args generalizing b c held with
  | nil =>
    simp only [Bindings.hold, Prod.mk.injEq, Except.ok.injEq] at hhold
    obtain ⟨rfl, rfl⟩ := hhold
    exact ⟨b, rfl, h⟩
  | cons a rest ih =>
    cases ha : c.acquire? a.variableId with
    | none => simp [Bindings.hold, ha] at hhold
    | some rc =>
      obtain ⟨r, c₁⟩ := rc
      obtain ⟨b₁, hb₁, h₁⟩ := h.acquire ha
      simp only [Bindings.hold, ha] at hhold
      simp only [Bindings.hold, hb₁]
      exact ih (h₁.keep held a.name r) hhold

lemma sweep_eq (h : Thins gone b c) : b.sweep.2 = c.sweep.2 := by
  refine ext_get? (fun v => ?_) h.unmatched.symm
  rw [get?_sweep, get?_sweep]
  by_cases hv : v ∈ gone
  · obtain ⟨hnone, binding, hb, hcount⟩ := h.absent v hv
    rw [hnone, hb, Option.filter_some, hcount]
    rfl
  · rw [h.same v hv]

lemma mem_sweep_iff (h : Thins gone b c) : v ∈ b.sweep.1 ↔ v ∈ gone ∨ v ∈ c.sweep.1 := by
  rw [Bindings.mem_sweep_iff, Bindings.mem_sweep_iff]
  by_cases hv : v ∈ gone
  · exact ⟨fun _ => .inl hv, fun _ => (h.absent v hv).2⟩
  · rw [h.same v hv]
    simp [hv]

lemma not_mem_sweep (h : Thins gone b c) (hv : v ∈ gone) : v ∉ c.sweep.1 := by
  rw [Bindings.mem_sweep_iff, (h.absent v hv).1]
  simp

end Thins

end

end Bindings

/-- A change is refused because a variable is not bound. -/
def Rejection.isUnbound : Rejection → Bool
  | unknownVariable .. => true
  | _ => false

namespace Tree

/-- `u` is `t` without the bindings of the variables that are `gone`, which are idle. -/
def Thins (gone : List VariableId) (t u : Tree) : Prop :=
  ∃ c, t.bindings.Thins gone c ∧ u = { t with bindings := c }

section

variable {gone : List VariableId} {s : Setting} {t u u' : Tree} {id parent : NodeId}
  {field : String} {arguments : List Argument} {ps : List Publication}

namespace Thins

lemma drop (h : Thins gone t u) (id : NodeId) : Thins gone (t.drop id) (u.drop id) := by
  obtain ⟨c, hc, rfl⟩ := h
  have hnode : node? { t with bindings := c } id = t.node? id := rfl
  unfold Tree.drop
  rw [hnode]
  cases t.node? id with
  | none => exact ⟨c, hc, rfl⟩
  | some n => exact ⟨_, hc.releaseAll n.arguments, rfl⟩

lemma unlink (h : Thins gone t u) (p id : NodeId) : Thins gone (t.unlink p id) (u.unlink p id) := by
  obtain ⟨c, hc, rfl⟩ := h
  exact ⟨c, hc, rfl⟩

lemma attach (h : Thins gone t u) (p : NodeId) (n : Node) :
    Thins gone (t.attach p n) (u.attach p n) := by
  obtain ⟨c, hc, rfl⟩ := h
  exact ⟨c, hc, rfl⟩

lemma node?_eq (h : Thins gone t u) (id : NodeId) : u.node? id = t.node? id := by
  obtain ⟨c, -, rfl⟩ := h
  rfl

lemma detach (h : Thins gone t u) (id : NodeId) :
    Thins gone (t.detach id).1 (u.detach id).1 ∧ (t.detach id).2 = (u.detach id).2 := by
  have hdrop := h.drop id
  constructor
  · rw [detach_tree, detach_tree, parentOf, parentOf, h.node?_eq]
    cases (t.node? id).bind (·.parent) with
    | none => exact hdrop
    | some p => exact hdrop.unlink p id
  · rw [detach_snd, detach_snd, h.node?_eq]
    simp only [hdrop.node?_eq]

lemma visit (h : Thins gone t u) (v : Visit) : (t.visit v).1 = (u.visit v).1 ∧
    Thins gone (t.visit v).2.1 (u.visit v).2.1 ∧ (t.visit v).2.2 = (u.visit v).2.2 := by
  cases v with
  | enter id =>
    simp only [Tree.visit, h.node?_eq]
    cases t.node? id with
    | none => exact ⟨rfl, h, rfl⟩
    | some n => exact ⟨rfl, h, rfl⟩
  | leave id => exact ⟨rfl, h.detach id⟩

lemma dismantle (h : Thins gone t u) (id : NodeId) :
    Thins gone (t.dismantle id).tree (u.dismantle id).tree ∧
      (t.dismantle id).published = (u.dismantle id).published := by
  have hrun := Worklist.run_rel Tree.visit (fun v x y hxy => visit hxy v) (2 * t.size) [.enter id]
    #[] h
  have hsize : u.size = t.size := by
    obtain ⟨c, -, rfl⟩ := h
    rfl
  unfold Tree.dismantle
  rw [hsize]
  exact ⟨hrun.1, congrArg Array.toList hrun.2⟩

lemma uproot (h : Thins gone t u) (id : NodeId) : (t.uproot id).1 = (u.uproot id).1 ∧
    Thins gone (t.uproot id).2.1 (u.uproot id).2.1 ∧ (t.uproot id).2.2 = (u.uproot id).2.2 := by
  rw [uproot_eq, uproot_eq, childrenOf, childrenOf, h.node?_eq]
  exact ⟨rfl, h.drop id, rfl⟩

lemma purge (h : Thins gone t u) (id : NodeId) : Thins gone (t.purge id) (u.purge id) := by
  have hrun : ∀ {x y : Tree}, Thins gone x y →
      Thins gone (Worklist.run Tree.uproot (1 + x.linkCount) ⟨[id], x, #[]⟩).state
        (Worklist.run Tree.uproot (1 + y.linkCount) ⟨[id], y, #[]⟩).state := by
    intro x y hxy
    have hlinks : y.linkCount = x.linkCount := by
      obtain ⟨c, -, rfl⟩ := hxy
      rfl
    rw [hlinks]
    exact (Worklist.run_rel Tree.uproot (fun x _ _ h => uproot h x) _ [id] #[] hxy).1
  unfold Tree.purge
  rw [parentOf, parentOf, h.node?_eq]
  cases (t.node? id).bind (·.parent) with
  | none => exact hrun h
  | some p => exact hrun (h.unlink p id)

/-! ### Additions -/

/-- A node that can be made without the idle bindings can be made with them, and one that is refused
for another reason is refused for the same. -/
lemma sprout (h : Thins gone t u) {r : Except Rejection Node}
    (hu : u.sprout s parent id field arguments = (r, u'))
    (hr : ∀ e, r = .error e → ¬ e.isUnbound) :
    ∃ t', t.sprout s parent id field arguments = (r, t') ∧ Thins gone t' u' := by
  have hnode := h.node?_eq parent
  obtain ⟨c, hc, rfl⟩ := h
  have htype : ∀ p, typeBelow s { t with bindings := c } p id field = t.typeBelow s p id field :=
    fun _ => rfl
  unfold Tree.sprout at hu ⊢
  rw [hnode] at hu
  cases hp : t.node? parent with
  | none =>
    simp only [hp, Prod.mk.injEq] at hu ⊢
    obtain ⟨rfl, rfl⟩ := hu
    exact ⟨t, ⟨rfl, rfl⟩, c, hc, rfl⟩
  | some p =>
    simp only [hp, htype] at hu ⊢
    cases hbelow : t.typeBelow s p id field with
    | error e =>
      simp only [hbelow, Prod.mk.injEq] at hu ⊢
      obtain ⟨rfl, rfl⟩ := hu
      exact ⟨t, ⟨rfl, rfl⟩, c, hc, rfl⟩
    | ok type =>
      simp only [hbelow] at hu ⊢
      rcases hhold : c.hold ∅ arguments with ⟨a | held, c'⟩
      · simp only [hhold, Prod.mk.injEq] at hu
        exact absurd rfl (hr _ hu.1.symm)
      · obtain ⟨b', hb', hc'⟩ := hc.hold hhold
        simp only [hhold, hb'] at hu ⊢
        have hsize : size { t with bindings := c } = t.size := rfl
        rw [hsize] at hu
        cases hlimit : s.limits.refuse? id (p.depth + 1) t.size with
        | some e =>
          simp only [hlimit, Prod.mk.injEq] at hu ⊢
          obtain ⟨rfl, rfl⟩ := hu
          exact ⟨_, ⟨rfl, rfl⟩, _, hc'.releaseAll held, rfl⟩
        | none =>
          simp only [hlimit, Prod.mk.injEq] at hu ⊢
          obtain ⟨rfl, rfl⟩ := hu
          exact ⟨_, ⟨rfl, rfl⟩, c', hc', rfl⟩

lemma announcement_eq (h : Thins gone t u) (parent id : NodeId) :
    u.announcement parent id = t.announcement parent id := by
  rw [announcement, announcement, h.node?_eq, h.node?_eq]

end Thins

mutual

/-- Growing a selection goes alike with and without the idle bindings, as long as no variable is
missing. -/
theorem Thins.grow {t u u' : Tree} (h : Thins gone t u) (parent : NodeId) (sel : Selection)
    {r : Except Rejection Unit} {ps : List Publication}
    (hu : Tree.grow s parent sel u = ⟨r, u', ps⟩) (hr : ∀ e, r = .error e → ¬ e.isUnbound) :
    ∃ t', Tree.grow s parent sel t = ⟨r, t', ps⟩ ∧ Thins gone t' u' := by
  match sel with
  | ⟨id, field, arguments, children⟩ =>
    rcases hsprout : u.sprout s parent id field arguments with ⟨e | n, u₁⟩
    · simp only [Tree.grow, hsprout, Transition.mk.injEq] at hu
      obtain ⟨rfl, rfl, rfl⟩ := hu
      obtain ⟨t₁, ht₁, h₁⟩ := h.sprout hsprout (by simpa using hr)
      exact ⟨t₁, by simp only [Tree.grow, ht₁], h₁⟩
    · obtain ⟨t₁, ht₁, h₁⟩ := h.sprout hsprout (by simp)
      have hplant := h₁.attach parent n
      rcases hnested : Tree.growAll s id children (u₁.attach parent n) with ⟨e | ⟨⟩, u₂, qs⟩
      · simp only [Tree.grow, hsprout, hnested, Transition.mk.injEq] at hu
        obtain ⟨rfl, rfl, rfl⟩ := hu
        obtain ⟨t₂, ht₂, h₂⟩ := hplant.growAll id children hnested (by simpa using hr)
        exact ⟨t₂.purge id, by simp only [Tree.grow, ht₁, ht₂], h₂.purge id⟩
      · simp only [Tree.grow, hsprout, hnested, Transition.mk.injEq] at hu
        obtain ⟨rfl, rfl, rfl⟩ := hu
        obtain ⟨t₂, ht₂, h₂⟩ := hplant.growAll id children hnested (by simp)
        refine ⟨t₂, ?_, h₂⟩
        simp only [Tree.grow, ht₁, ht₂, h₂.announcement_eq]

theorem Thins.growAll {t u u' : Tree} (h : Thins gone t u) (parent : NodeId)
    (sels : List Selection) {r : Except Rejection Unit} {ps : List Publication}
    (hu : Tree.growAll s parent sels u = ⟨r, u', ps⟩) (hr : ∀ e, r = .error e → ¬ e.isUnbound) :
    ∃ t', Tree.growAll s parent sels t = ⟨r, t', ps⟩ ∧ Thins gone t' u' := by
  match sels with
  | [] =>
    simp only [Tree.growAll, Transition.mk.injEq] at hu
    obtain ⟨rfl, rfl, rfl⟩ := hu
    exact ⟨t, rfl, h⟩
  | sel :: rest =>
    rcases hfirst : Tree.grow s parent sel u with ⟨e | ⟨⟩, u₁, qs⟩
    · simp only [Tree.growAll, hfirst, Transition.mk.injEq] at hu
      obtain ⟨rfl, rfl, rfl⟩ := hu
      obtain ⟨t₁, ht₁, h₁⟩ := h.grow parent sel hfirst hr
      exact ⟨t₁, by simp only [Tree.growAll, ht₁], h₁⟩
    · obtain ⟨t₁, ht₁, h₁⟩ := h.grow parent sel hfirst (by simp)
      rcases hrest : Tree.growAll s parent rest u₁ with ⟨r', u₂, later⟩
      simp only [Tree.growAll, hfirst, hrest, Transition.mk.injEq] at hu
      obtain ⟨rfl, rfl, rfl⟩ := hu
      obtain ⟨t₂, ht₂, h₂⟩ := h₁.growAll parent rest hrest hr
      exact ⟨t₂, by simp only [Tree.growAll, ht₁, ht₂], h₂⟩

end

namespace Thins

lemma contains_eq (h : Thins gone t u) (id : NodeId) : u.contains id = t.contains id := by
  rw [contains_eq_isSome, contains_eq_isSome, h.node?_eq]

lemma change (h : Thins gone t u) (c : Change) {v : Verdict} (hu : u.change s c = ⟨v, u', ps⟩)
    (hv : ∀ e, v = .failed e → ¬ e.isUnbound) :
    ∃ t', t.change s c = ⟨v, t', ps⟩ ∧ Thins gone t' u' := by
  unfold Tree.change at hu ⊢
  rw [h.contains_eq] at hu
  split at hu
  · next hlive =>
    rw [if_pos hlive]
    cases c with
    | add target sel =>
      simp only [Tree.add] at hu ⊢
      rcases hgrow : Tree.grow s target sel u with ⟨e | ⟨⟩, u₁, qs⟩
      · simp only [hgrow, Except.map, Transition.mk.injEq] at hu
        obtain ⟨rfl, rfl, rfl⟩ := hu
        obtain ⟨t₁, ht₁, h₁⟩ := h.grow target sel hgrow (by simpa using hv)
        exact ⟨t₁, by simp only [ht₁, Except.map], h₁⟩
      · simp only [hgrow, Except.map, Transition.mk.injEq] at hu
        obtain ⟨rfl, rfl, rfl⟩ := hu
        obtain ⟨t₁, ht₁, h₁⟩ := h.grow target sel hgrow (by simp)
        exact ⟨t₁, by simp only [ht₁, Except.map], h₁⟩
    | delete target =>
      simp only at hu ⊢
      split at hu
      · next hroot =>
        simp only [Transition.mk.injEq] at hu
        obtain ⟨rfl, rfl, rfl⟩ := hu
        exact ⟨t, by rw [if_pos hroot], h⟩
      · next hroot =>
        simp only [Transition.mk.injEq] at hu
        obtain ⟨rfl, rfl, rfl⟩ := hu
        obtain ⟨htree, hpublished⟩ := h.dismantle target
        exact ⟨_, by rw [if_neg hroot, hpublished], htree⟩
  · next hgone =>
    simp only [Transition.mk.injEq] at hu
    obtain ⟨rfl, rfl, rfl⟩ := hu
    exact ⟨t, by rw [if_neg hgone], h⟩

/-- Changes go alike with and without the idle bindings, as long as none is refused for a variable
that is missing. -/
theorem changeAll (h : Thins gone t u) (index : Nat) (cs : List Change) {rs : List Report}
    (hu : u.changeAll s index cs = ⟨rs, u', ps⟩)
    (hrs : ∀ r ∈ rs, ∀ e, r.verdict = .failed e → ¬ e.isUnbound) :
    ∃ t', t.changeAll s index cs = ⟨rs, t', ps⟩ ∧ Thins gone t' u' := by
  induction cs generalizing t u index rs ps with
  | nil =>
    simp only [Tree.changeAll, Transition.mk.injEq] at hu
    obtain ⟨rfl, rfl, rfl⟩ := hu
    exact ⟨t, rfl, h⟩
  | cons c rest ih =>
    rcases hfirst : u.change s c with ⟨v, u₁, qs⟩
    rcases hrest : u₁.changeAll s (index + 1) rest with ⟨rs', u₂, later⟩
    simp only [Tree.changeAll, hfirst, hrest, Transition.mk.injEq] at hu
    obtain ⟨rfl, rfl, rfl⟩ := hu
    obtain ⟨hv, hrs'⟩ := List.forall_mem_cons.mp hrs
    obtain ⟨t₁, ht₁, h₁⟩ := h.change c hfirst hv
    obtain ⟨t₂, ht₂, h₂⟩ := ih h₁ (index + 1) hrest hrs'
    exact ⟨t₂, by simp only [Tree.changeAll, ht₁, ht₂], h₂⟩

end Thins

end

end Tree

end LiveQuery
