import LiveQuery.Proofs.Admission
import LiveQuery.Proofs.Runs

/-!
# Easier settings

A setting is easier than another one if it resolves whatever that one resolves, to the same types,
and has no stricter limits. What one of them does the easier one does too, unless it is hindered by
the setting: a type is not resolved, or a limit would be broken.
-/

namespace LiveQuery

/-- Every limit of `l'` is one that `l` has too, or a higher one. -/
structure Limits.Relaxes (l l' : Limits) : Prop where
  depth : ∀ limit' ∈ l'.depth, ∃ limit ∈ l.depth, limit ≤ limit'
  nodes : ∀ limit' ∈ l'.nodes, ∃ limit ∈ l.nodes, limit ≤ limit'

structure Setting.Eases (s s' : Setting) : Prop where
  type_eq : ∀ declared type, s.resolver.nodeType? declared = some type →
    s'.resolver.nodeType? declared = some type
  limits : s.limits.Relaxes s'.limits

/-- A rejection that is due to the setting. -/
def Rejection.isHindrance : Rejection → Bool
  | unresolvedType .. | tooDeep .. | tooMany .. => true
  | _ => false

section

variable {s s' : Setting} {l l' : Limits} {id : NodeId} {depth size : Nat} {e : Rejection}

lemma Limits.isHindrance_of_refuse? (h : l.refuse? id depth size = some e) : e.isHindrance := by
  unfold refuse? at h
  split at h <;> cases h <;> rfl

lemma Limits.Relaxes.refuse?_eq_none (h : l.Relaxes l') (hnone : l.refuse? id depth size = none) :
    l'.refuse? id depth size = none := by
  obtain ⟨hdepth, hsize⟩ := refuse?_eq_none_iff.mp hnone
  refine refuse?_eq_none_iff.mpr ⟨fun limit' hlimit' => ?_, fun limit' hlimit' => ?_⟩
  · obtain ⟨limit, hlimit, hle⟩ := h.depth limit' hlimit'
    exact Nat.le_trans (hdepth limit hlimit) hle
  · obtain ⟨limit, hlimit, hle⟩ := h.nodes limit' hlimit'
    exact Nat.lt_of_lt_of_le (hsize limit hlimit) hle

namespace Schema

lemma get?_of_registered {schema schema' : Schema} {definitions : List TypeDef}
    (h : definitions.foldlM register schema = .ok schema') {name : String} {d : TypeDef}
    (hd : schema.get? name = some d) : schema'.get? name = some d := by
  induction definitions generalizing schema with
  | nil =>
    cases h
    exact hd
  | cons first rest ih =>
    rw [List.foldlM_cons] at h
    cases hfirst : schema.register first with
    | error e =>
      rw [hfirst] at h
      cases h
    | ok next =>
      rw [hfirst] at h
      refine ih h ?_
      rw [get?_of_register hfirst]
      split
      · next hname =>
        have hcontains : schema.contains first.name := by
          rw [contains_eq_isSome, hname, hd]
          rfl
        rw [register, if_pos hcontains] at hfirst
        cases hfirst
      · exact hd

/-- Definitions that are added later do not change what a field comes to, and neither does one under
the name of a primitive. -/
theorem eases_of_registered {schema schema' : Schema} {definitions : List TypeDef}
    (h : definitions.foldlM register schema = .ok schema') (hlimits : l.Relaxes l') :
    Setting.Eases ⟨schema.resolver, l⟩ ⟨schema'.resolver, l'⟩ where
  type_eq declared type htype := by
    have hdefined : ∀ t, (schema.resolver.definition? t).map NodeType.defined = some type →
        (schema'.resolver.definition? t).map NodeType.defined = some type := by
      intro t ht
      obtain ⟨d, hd, rfl⟩ := Option.map_eq_some_iff.mp ht
      exact Option.map_eq_some_iff.mpr ⟨d, get?_of_registered h hd, rfl⟩
    simp only [Resolver.nodeType?] at htype ⊢
    split
    · next name hname =>
      rw [hname] at htype
      dsimp only at htype
      split at htype
      · next hprimitive =>
        rw [← htype]
        exact if_pos hprimitive
      · next hprimitive => exact (if_neg hprimitive).trans (hdefined _ htype)
    · next hname =>
      rw [hname] at htype
      exact hdefined _ htype
  limits := hlimits

end Schema

/-! ### Operations on trees -/

/-- A result that is no rejection, or not one that is due to the setting. -/
def Unhindered {α : Type} (result : Except Rejection α) : Prop :=
  ∀ e, result = .error e → e.isHindrance = false

namespace Tree

variable {t : Tree} {m : Node} {parent : NodeId} {field : String} {arguments : List Argument}
  {c : Change}

lemma typeBelow_eased (h : s.Eases s') (hfree : Unhindered (t.typeBelow s m id field)) :
    t.typeBelow s' m id field = t.typeBelow s m id field := by
  unfold typeBelow at hfree ⊢
  by_cases hid : t.contains id
  · rw [if_pos hid, if_pos hid]
  · rw [if_neg hid] at hfree
    rw [if_neg hid, if_neg hid]
    cases hobject : m.type.object? with
    | none => rfl
    | some object =>
      simp only [hobject] at hfree ⊢
      cases hfield : object.field? field with
      | none => rfl
      | some declared =>
        simp only [hfield] at hfree ⊢
        cases htype : s.resolver.nodeType? declared.type with
        | none =>
          rw [htype] at hfree
          cases hfree _ rfl
        | some type => rw [h.type_eq declared.type type htype]

lemma sprout_eased (h : s.Eases s') (hfree : Unhindered (t.sprout s parent id field arguments).1) :
    t.sprout s' parent id field arguments = t.sprout s parent id field arguments := by
  unfold sprout at hfree ⊢
  cases hm : t.node? parent with
  | none => rfl
  | some m =>
    simp only [hm] at hfree ⊢
    have htype : Unhindered (t.typeBelow s m id field) := by
      intro e he
      simp only [he] at hfree
      exact hfree e rfl
    rw [typeBelow_eased h htype]
    cases hbelow : t.typeBelow s m id field with
    | error e => rfl
    | ok type =>
      simp only [hbelow] at hfree ⊢
      rcases hhold : t.bindings.hold ∅ arguments with ⟨a | held, b⟩
      · rfl
      · simp only [hhold] at hfree ⊢
        cases hrefuse : s.limits.refuse? id (m.depth + 1) t.size with
        | none => rw [h.limits.refuse?_eq_none hrefuse]
        | some e =>
          simp only [hrefuse] at hfree
          exact absurd (Limits.isHindrance_of_refuse? hrefuse) (by simp [hfree e rfl])

mutual

theorem grow_eased {t : Tree} (h : s.Eases s') (parent : NodeId) (sel : Selection)
    (hfree : Unhindered (grow s parent sel t).result) :
    grow s' parent sel t = grow s parent sel t := by
  match sel with
  | ⟨id, field, arguments, children⟩ =>
    rcases hsprout : t.sprout s parent id field arguments with ⟨e | n, u⟩
    · have hsame : Unhindered (t.sprout s parent id field arguments).1 →
          t.sprout s' parent id field arguments = t.sprout s parent id field arguments :=
        sprout_eased h
      rw [hsprout] at hsame
      simp only [grow, hsprout] at hfree ⊢
      rw [hsame ?_]
      rintro e' ⟨⟩
      exact hfree e rfl
    · have hmade : Unhindered (t.sprout s parent id field arguments).1 := by
        rw [hsprout]
        rintro e ⟨⟩
      have hnested := growAll_eased (t := u.attach parent n) h id children
      simp only [grow, hsprout, sprout_eased h hmade] at hfree ⊢
      rcases hgrow : growAll s id children (u.attach parent n) with ⟨e | ⟨⟩, t', ps⟩
      · simp only [hgrow] at hfree hnested ⊢
        rw [hnested hfree]
      · simp only [hgrow] at hnested ⊢
        rw [hnested (by rintro e ⟨⟩)]

theorem growAll_eased {t : Tree} (h : s.Eases s') (parent : NodeId) (sels : List Selection)
    (hfree : Unhindered (growAll s parent sels t).result) :
    growAll s' parent sels t = growAll s parent sels t := by
  match sels with
  | [] => rfl
  | sel :: rest =>
    have hfirst := grow_eased (t := t) h parent sel
    rcases hgrow : grow s parent sel t with ⟨e | ⟨⟩, t', ps⟩
    · simp only [growAll, hgrow] at hfree hfirst ⊢
      rw [hfirst hfree]
    · have hrest := growAll_eased (t := t') h parent rest
      simp only [growAll, hgrow] at hfree hfirst ⊢
      simp only [hfirst (by rintro e ⟨⟩), hrest hfree]

end

lemma add_eased (h : s.Eases s') (target : NodeId) (sel : Selection)
    (hfree : Unhindered (t.add s target sel).result) :
    t.add s' target sel = t.add s target sel := by
  have hgrow : Unhindered (grow s target sel t).result := by
    intro e he
    refine hfree e ?_
    simp only [add, he]
    rfl
  simp only [add, grow_eased h target sel hgrow]

lemma change_eased (h : s.Eases s')
    (hfree : ∀ e, (t.change s c).result = .failed e → e.isHindrance = false) :
    t.change s' c = t.change s c := by
  unfold change at hfree ⊢
  split
  · next hlive =>
    rw [if_pos hlive] at hfree
    cases c with
    | add target sel =>
      have hadd : Unhindered (t.add s target sel).result := by
        intro e he
        refine hfree e ?_
        simp only [he]
      simp only [add_eased h target sel hadd]
    | delete target => rfl
  · rfl

lemma changeAll_eased (h : s.Eases s') (index : Nat) (cs : List Change)
    (hfree : ∀ r ∈ (t.changeAll s index cs).result, ∀ e, r.verdict = .failed e →
      e.isHindrance = false) : t.changeAll s' index cs = t.changeAll s index cs := by
  induction cs generalizing t index with
  | nil => rfl
  | cons c rest ih =>
    simp only [changeAll, List.forall_mem_cons] at hfree ⊢
    simp only [change_eased h hfree.1, ih (index + 1) hfree.2]

lemma apply_eased (h : s.Eases s') (batch : Batch)
    (hfree : ∀ f ∈ (t.apply s batch).result.failures, f.2.2.isHindrance = false) :
    t.apply s' batch = t.apply s batch := by
  have hchanges : ∀ r ∈ ({ t with bindings := t.bindings.putAll batch.assignments }.changeAll s 0
      batch.changes).result, ∀ e, r.verdict = .failed e → e.isHindrance = false := by
    rintro ⟨index, target, _⟩ hr e rfl
    refine hfree (index, target, e) ?_
    simp only [Outcome.failures, apply, List.mem_filterMap]
    exact ⟨_, hr, rfl⟩
  simp only [apply, changeAll_eased h 0 batch.changes hchanges]

lemma addChain_eased (h : s.Eases s') (field : String) (count : Nat) (target first : NodeId)
    (hfree : ∀ e ∈ (t.addChain s field count target first).result.2, e.isHindrance = false) :
    t.addChain s' field count target first = t.addChain s field count target first := by
  induction count generalizing t target first with
  | zero => rfl
  | succ count ih =>
    have hadd := add_eased (t := t) h target { id := first, field }
    unfold addChain at hfree ⊢
    rcases hg : t.add s target { id := first, field } with ⟨e | id, t', ps⟩
    · rw [hg] at hadd
      simp only [hg] at hfree
      rw [hadd ?_]
      rintro e' ⟨⟩
      exact hfree e rfl
    · rw [hg] at hadd
      simp only [hg] at hfree
      rw [hadd (by rintro e ⟨⟩)]
      simp only [ih id id.next hfree]

end Tree

end

end LiveQuery
