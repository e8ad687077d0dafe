import LiveQuery.Proofs.Insertion

/-!
# Which nodes are admitted

When a single node can be made below another one, and what it looks like then. Apart from its own id
and what the schema says of its parent, that depends on the values of the bindings and on how deep and
how large the tree is.
-/

namespace LiveQuery

lemma Limits.refuse?_eq_none_iff {l : Limits} {id : NodeId} {depth size : Nat} :
    l.refuse? id depth size = none ↔
      (∀ limit ∈ l.depth, depth ≤ limit) ∧ ∀ limit ∈ l.nodes, size < limit := by
  unfold refuse?
  rcases l with ⟨depthLimit, nodeLimit⟩
  have hdepth : depthLimit.filter (· < depth) = none ↔ ∀ limit ∈ depthLimit, depth ≤ limit := by
    simp [Option.filter_eq_none_iff]
  have hsize : nodeLimit.filter (· ≤ size) = none ↔ ∀ limit ∈ nodeLimit, size < limit := by
    simp [Option.filter_eq_none_iff]
  rw [← hdepth, ← hsize]
  dsimp only
  cases depthLimit.filter (· < depth) <;> cases nodeLimit.filter (· ≤ size) <;> simp

namespace Bindings

lemma SameValues.symm {b c : Bindings} (h : b.SameValues c) : c.SameValues b := fun id => (h id).symm

lemma SameValues.acquire {b c : Bindings} (h : b.SameValues c) (id : VariableId) :
    (b.acquire? id = none ∧ c.acquire? id = none) ∨ ∃ r b' c', b.acquire? id = some (r, b') ∧
      c.acquire? id = some (r, c') ∧ b'.SameValues c' := by
  have hvalue := h id
  cases hb : b.get? id with
  | none =>
    rw [hb, Option.map_none, eq_comm, Option.map_eq_none_iff] at hvalue
    exact .inl ⟨acquire?_eq_none_iff.mpr hb, acquire?_eq_none_iff.mpr hvalue⟩
  | some binding =>
    rw [hb, Option.map_some, eq_comm, Option.map_eq_some_iff] at hvalue
    obtain ⟨binding', hc, hsame⟩ := hvalue
    have hbtaken := acquire?_eq_some_iff.mpr ⟨binding, hb, rfl, rfl⟩
    have hctaken := acquire?_eq_some_iff.mpr ⟨binding', hc, rfl, rfl⟩
    have hvalues := (sameValues_acquire hbtaken).symm.trans (h.trans (sameValues_acquire hctaken))
    rw [hsame] at hctaken hvalues
    exact .inr ⟨_, _, _, hbtaken, hctaken, hvalues⟩

lemma SameValues.hold_eq {b c : Bindings} (h : b.SameValues c) (held : References)
    (args : List Argument) : (b.hold held args).1 = (c.hold held args).1 := by
  induction args generalizing b c held with
  | nil => rfl
  | cons a rest ih =>
    obtain ⟨hb, hc⟩ | ⟨r, b', c', hb, hc, hvalues⟩ := h.acquire a.variableId
    · simp only [hold, hb, hc]
    · have hbkept := sameValues_keep b' held a.name r
      have hckept := sameValues_keep c' held a.name r
      simp only [hold, hb, hc]
      exact ih (hbkept.symm.trans (hvalues.trans hckept)) _

end Bindings

/-- The type that the schema gives to what is selected by a field of a node of some type. -/
def Setting.Declares (s : Setting) (parent : NodeType) (field : String) (type : NodeType) : Prop :=
  ∃ object declared, parent.object? = some object ∧ object.field? field = some declared ∧
    s.resolver.nodeType? declared.type = some type

namespace Tree

section

variable {s : Setting} {t t' : Tree} {m n : Node} {id parent : NodeId} {field : String}
  {arguments : List Argument} {type : NodeType} {held : References}

lemma typeBelow_eq_ok_iff : t.typeBelow s m id field = .ok type ↔
    t.node? id = none ∧ s.Declares m.type field type := by
  unfold typeBelow Setting.Declares
  rw [contains_eq_isSome]
  cases t.node? id with
  | some n => simp
  | none =>
    cases m.type.object? with
    | none => simp
    | some object =>
      cases hfield : object.field? field with
      | none => simp [hfield]
      | some declared => cases htype : s.resolver.nodeType? declared.type <;> simp [hfield, htype]

/-- What a node needs to be made below `m`, and the references it holds then. -/
structure Admits (s : Setting) (t : Tree) (m : Node) (id : NodeId) (field : String)
    (arguments : List Argument) (type : NodeType) (held : References) : Prop where
  absent : t.node? id = none
  declared : s.Declares m.type field type
  held_eq : (t.bindings.hold ∅ arguments).1 = .ok held
  depth_le : ∀ limit ∈ s.limits.depth, m.depth + 1 ≤ limit
  size_lt : ∀ limit ∈ s.limits.nodes, t.size < limit

/-- The node that is made below `m` then, a leaf with a new hub. -/
def sprouted (t : Tree) (m : Node) (id parent : NodeId) (field : String) (type : NodeType)
    (held : References) : Node :=
  { id, parent := some parent, depth := m.depth + 1, field, type, arguments := held,
    hub := ⟨t.nextHub, id⟩ }

/-- The tree in which the references are taken and the hub is given out. -/
def charged (t : Tree) (arguments : List Argument) : Tree :=
  { t with bindings := (t.bindings.hold ∅ arguments).2, nextHub := t.nextHub + 1 }

lemma Admits.sprout_eq (h : Admits s t m id field arguments type held) (hm : t.node? parent = some m) :
    t.sprout s parent id field arguments =
      (.ok (t.sprouted m id parent field type held), t.charged arguments) := by
  have htype := typeBelow_eq_ok_iff.mpr ⟨h.absent, h.declared⟩
  have hrefuse : s.limits.refuse? id (m.depth + 1) t.size = none :=
    Limits.refuse?_eq_none_iff.mpr ⟨h.depth_le, h.size_lt⟩
  have hhold : t.bindings.hold ∅ arguments = (.ok held, (t.bindings.hold ∅ arguments).2) :=
    Prod.ext h.held_eq rfl
  rw [sprout]
  simp only [hm, htype]
  rw [hhold]
  simp only [hrefuse]
  rfl

lemma admits_of_sprout (h : t.sprout s parent id field arguments = (.ok n, t')) :
    ∃ m type held, t.node? parent = some m ∧ Admits s t m id field arguments type held ∧
      n = t.sprouted m id parent field type held ∧ t' = t.charged arguments := by
  unfold sprout at h
  split at h
  · simp at h
  · next m hm =>
    split at h
    · simp at h
    · next type htype =>
      obtain ⟨habsent, hdeclared⟩ := typeBelow_eq_ok_iff.mp htype
      split at h
      · simp at h
      · next held b hhold =>
        split at h
        · simp at h
        · next hrefuse =>
          obtain ⟨hdepth, hsize⟩ := Limits.refuse?_eq_none_iff.mp hrefuse
          simp only [Prod.mk.injEq, Except.ok.injEq] at h
          obtain ⟨rfl, rfl⟩ := h
          refine ⟨m, type, held, hm, ⟨habsent, hdeclared, by rw [hhold], hdepth, hsize⟩, rfl, ?_⟩
          rw [charged, hhold]

end

end Tree

end LiveQuery
