import LiveQuery.Proofs.Commuting
import LiveQuery.Proofs.Locality
import LiveQuery.Proofs.Typing
import LiveQuery.Proofs.Verdicts

/-!
# The types of fields

What a schema makes of the type expression that a field is declared with. A builtin primitive is taken for
one if its name is bare, stands under one wrapper, or is the non-null entry of a list. Any other expression
stands for the definition of its innermost name, whatever the wrappers are, and for nothing if there is no
such definition.
-/

namespace LiveQuery

namespace TypeExpr

/-- The innermost name is bare, or wrapped once as a list, as a non-null type, or as a list of
those. -/
def Plain (t : TypeExpr) : Prop :=
  t = .named t.base ∨ t = .list (.named t.base) ∨ t = .nonNull (.named t.base) ∨
    t = .list (.nonNull (.named t.base))

instance (t : TypeExpr) : Decidable t.Plain := inferInstanceAs (Decidable (_ ∨ _ ∨ _ ∨ _))

example : ¬ Plain (.nonNull (.list (.named "Int"))) ∧ ¬ Plain (.list (.list (.named "Int"))) := by
  decide

lemma plain_iff (t : TypeExpr) : t.Plain ↔ t.element = .named t.base := by
  cases t with
  | named name => simp [Plain, element, stripList, stripNonNull, base]
  | list item =>
    cases item with
    | named name => simp [Plain, element, stripList, stripNonNull, base]
    | list item => simp [Plain, element, stripList, stripNonNull, base]
    | nonNull inner => simp [Plain, element, stripList, stripNonNull, base]
  | nonNull inner => simp [Plain, element, stripList, stripNonNull, base]

lemma name?_element (t : TypeExpr) : t.element.name? = if t.Plain then some t.base else none := by
  by_cases hplain : t.Plain
  · rw [if_pos hplain, (plain_iff t).mp hplain]
    rfl
  · rw [if_neg hplain]
    cases helement : t.element with
    | named name =>
      have hbase := base_element t
      rw [helement] at hbase
      exact absurd ((plain_iff t).mpr (helement.trans (congrArg named hbase))) hplain
    | list | nonNull => rfl

end TypeExpr

namespace Schema

/-- The entries of the field are taken for a builtin primitive. -/
def Basic (t : TypeExpr) : Prop := t.base ∈ builtinPrimitives ∧ t.Plain

/-- What a schema gives to a node that selects a field of some type. -/
def Gives (schema : Schema) (t : TypeExpr) : Option NodeType → Prop
  | some (.primitive name) => Basic t ∧ name = t.base
  | some (.defined definition) => ¬ Basic t ∧ schema.get? t.base = some definition
  | none => ¬ Basic t ∧ schema.get? t.base = none

lemma nodeType?_of_basic {t : TypeExpr} (schema : Schema) (h : Basic t) :
    schema.resolver.nodeType? t = some (.primitive t.base) := by
  obtain ⟨hbase, hplain⟩ := h
  have hprimitive : schema.resolver.isPrimitive t.base = true := List.contains_iff_mem.mpr hbase
  simp only [Resolver.nodeType?, t.name?_element, if_pos hplain, hprimitive, if_true]

lemma nodeType?_of_not_basic {t : TypeExpr} (schema : Schema) (h : ¬ Basic t) :
    schema.resolver.nodeType? t = (schema.get? t.base).map .defined := by
  have hdefinition : schema.resolver.definition? t.element = schema.get? t.base :=
    congrArg schema.get? t.base_element
  rw [Resolver.nodeType?, t.name?_element, hdefinition]
  by_cases hplain : t.Plain
  · have hprimitive : ¬ schema.resolver.isPrimitive t.base = true := fun hname =>
      h ⟨List.contains_iff_mem.mp hname, hplain⟩
    simp only [if_pos hplain, hprimitive]
    rfl
  · simp only [if_neg hplain]

lemma gives_iff {schema : Schema} {t : TypeExpr} {given : Option NodeType} :
    schema.Gives t given ↔ schema.resolver.nodeType? t = given := by
  by_cases hbasic : Basic t
  · rw [nodeType?_of_basic schema hbasic]
    rcases given with _ | _ | name
    · simp [Gives, hbasic]
    · simp [Gives, hbasic]
    · simp [Gives, hbasic, eq_comm]
  · rw [nodeType?_of_not_basic schema hbasic]
    rcases given with _ | definition | name
    · simp [Gives, hbasic]
    · simp [Gives, hbasic]
    · simp [Gives, hbasic]

/-- How a schema resolves the types of fields. -/
structure Resolves (schema : Schema) : Prop where
  gives : ∀ t, schema.Gives t (schema.resolver.nodeType? t)
  /-- Wrappers make no difference to a name that is not builtin. -/
  wrapped : ∀ t u, t.base = u.base → t.base ∉ builtinPrimitives →
    (∃ definition, schema.resolver.nodeType? t = some (.defined definition) ∧
      schema.resolver.nodeType? u = some (.defined definition)) ∨
    schema.resolver.nodeType? t = none ∧ schema.resolver.nodeType? u = none
  /-- A builtin name under other wrappers is no primitive, and has a type only if it is registered. -/
  buried : ∀ t, t.base ∈ builtinPrimitives → ¬ t.Plain →
    (∀ name, schema.resolver.nodeType? t ≠ some (.primitive name)) ∧
    ((schema.resolver.nodeType? t).isSome ↔ schema.contains t.base)

lemma resolves (schema : Schema) : schema.Resolves where
  gives _ := gives_iff.mpr rfl
  wrapped t u hbase hname := by
    have ht := nodeType?_of_not_basic (t := t) schema fun h => hname h.1
    have hu := nodeType?_of_not_basic (t := u) schema fun h => hname (hbase ▸ h.1)
    rw [ht, hu, ← hbase]
    cases schema.get? t.base with
    | none => exact .inr ⟨rfl, rfl⟩
    | some definition => exact .inl ⟨definition, rfl, rfl⟩
  buried t _ hplain := by
    rw [nodeType?_of_not_basic schema fun h => hplain h.2, contains_eq_isSome]
    cases schema.get? t.base <;> simp

end Schema

lemma Resolver.nodeType?_of_assigns {r : Resolver} {declared : TypeExpr} {type : NodeType}
    (h : r.Assigns declared type) : r.nodeType? declared = some type := by
  obtain ⟨name, helement, hprimitive, rfl⟩ | ⟨hnot, definition, hdefinition, rfl⟩ := h
  · simp [nodeType?, helement, TypeExpr.name?, hprimitive]
  · unfold nodeType?
    rw [hdefinition]
    cases helement : declared.element with
    | named name => simp [TypeExpr.name?, hnot name helement]
    | list | nonNull => rfl

lemma Selection.candidates_of_leaf {s : Setting} {parent : NodeId} {parentType : Option NodeType}
    {level : Nat} {sel : Selection} (hleaf : sel.children = []) :
    sel.candidates s parent parentType level =
      [⟨parent, parentType, level, sel.id, sel.field, sel.arguments⟩] := by
  obtain ⟨id, field, arguments, children⟩ := sel
  obtain rfl : children = [] := hleaf
  simp only [Selection.candidates, Selection.candidatesAll]

namespace Candidate

lemma verdict?_eq_unresolved_iff {s : Setting} {t : Tree} {depth : Nat} {earlier : List NodeId}
    {c : Candidate} {id : NodeId} {type : TypeExpr} :
    c.verdict? s t depth earlier = some (.unresolvedType id type) ↔
      id = c.id ∧ ¬ t.contains c.id ∧ c.id ∉ earlier ∧ ∃ declared, c.declared? = some declared ∧
        type = declared.type.element ∧ s.resolver.nodeType? declared.type = none := by
  simp only [verdict?, Check.inOrder, List.findSome?_cons, failure?, List.findSome?_nil]
  by_cases hfree : t.contains c.id ∨ c.id ∈ earlier
  · exact iff_of_false (by simp [hfree]) fun h => hfree.elim h.2.1 h.2.2.1
  obtain ⟨habsent, hnew⟩ := not_or.mp hfree
  cases hobject : c.object? with
  | none => simp [hfree, declared?, hobject]
  | some object =>
    cases hfield : object.field? c.field with
    | none => simp [hfree, declared?, hobject, hfield]
    | some declared =>
      cases htype : s.resolver.nodeType? declared.type with
      | none => simp [habsent, hnew, declared?, hobject, hfield, htype, eq_comm]
      | some type =>
        cases c.arguments.find? fun a => !t.bindings.contains a.variableId <;>
          cases s.limits.depth.filter (· < depth + 1 + c.level) <;>
          cases s.limits.nodes.filter (· ≤ t.size + earlier.length) <;>
          simp [hfree, declared?, hobject, hfield, htype]

end Candidate

namespace Server

/-- What comes of the types of fields in session `k`, in a server that has run with the schema. -/
structure Types (schema : Schema) (s : Server) (k : Nat) (a : Session) : Prop where
  /-- Every node but the root has the type that the schema gives to the field it selects. -/
  nodes : ∀ id n, a.tree.node? id = some n → id ≠ .root → ∃ p m object field,
    n.parent = some p ∧ a.tree.node? p = some m ∧ m.type = .defined (.object object) ∧
    object.field? n.field = some field ∧ schema.Gives field.type (some n.type)
  /-- So has a node that is added. -/
  added : ∀ target sel id, (s.step k (.add target sel)).reply = .added id → ∃ b n m object field,
    (s.step k (.add target sel)).server.sessions[k]? = some b ∧ b.tree.node? sel.id = some n ∧
    n.parent = some target ∧ n.field = sel.field ∧ a.tree.node? target = some m ∧
    m.type = .defined (.object object) ∧ object.field? sel.field = some field ∧
    schema.Gives field.type (some n.type)
  /-- An addition is refused for a type exactly if the schema gives none to a field that is selected in it,
  and nothing is wrong with the nodes before that, nor with the id of this one. -/
  refused : a.tree.isLive → ∀ target m sel, a.tree.node? target = some m → ∀ id type,
    (s.step k (.add target sel)).reply = .rejected (.unresolvedType id type) ↔
      ∃ done c rest field, sel.candidates a.setting target (some m.type) 0 = done ++ c :: rest ∧
        Candidate.Clear a.setting a.tree m.depth [] done ∧ id = c.id ∧ ¬ a.tree.contains c.id ∧
        c.id ∉ done.map Candidate.id ∧ c.declared? = some field ∧ type = field.type.element ∧
        schema.Gives field.type none
  /-- A node is added below an object type by itself, if all else is as it should be, exactly if the schema
  gives a type to its field. -/
  single : a.tree.isLive → ∀ target m object field sel, a.tree.node? target = some m →
    m.type = .defined (.object object) → object.field? sel.field = some field →
    ¬ a.tree.contains sel.id → sel.children = [] →
    (∀ x ∈ sel.arguments, a.tree.bindings.contains x.variableId) →
    (∀ limit ∈ a.setting.limits.depth, m.depth + 1 ≤ limit) →
    (∀ limit ∈ a.setting.limits.nodes, a.tree.size < limit) →
    (∃ type, schema.Gives field.type (some type) ∧
      (s.step k (.add target sel)).reply = .added sel.id) ∨
    schema.Gives field.type none ∧
      (s.step k (.add target sel)).reply = .rejected (.unresolvedType sel.id field.type.element)

section

variable {schema : Schema} {root : TypeDef} {s : Server} {k : Nat} {a : Session} {target : NodeId}
  {sel : Selection} {m : Node} {e : Rejection}

lemma reply_add_rejected_iff (hk : s.sessions[k]? = some a) (hlive : a.tree.isLive) :
    (s.step k (.add target sel)).reply = .rejected e ↔
      (a.tree.add a.setting target sel).result = .error e := by
  refine ⟨fun hreply => ?_, step_add_error hk hlive⟩
  rcases hadd : a.tree.add a.setting target sel with ⟨e' | id, t, ps⟩
  · rw [step_add_error hk hlive (by rw [hadd])] at hreply
    cases hreply
    rfl
  · rw [(step_add_ok hk hlive hadd).1] at hreply
    cases hreply

lemma Sound.reply_add_rejected_iff_verdict (hs : s.Sound root) (hk : s.sessions[k]? = some a)
    (hlive : a.tree.isLive) (hm : a.tree.node? target = some m) :
    (s.step k (.add target sel)).reply = .rejected e ↔
      Candidate.verdictAll? a.setting a.tree m.depth []
        (sel.candidates a.setting target (some m.type) 0) = some e := by
  rw [reply_add_rejected_iff hk hlive,
    (hs.wellFormed k a hk).add_verdict (hs.accounted k a hk) hm sel]
  cases Candidate.verdictAll? a.setting a.tree m.depth []
    (sel.candidates a.setting target (some m.type) 0) <;> simp

lemma Sound.types_added (hs : s.Sound root) (hk : s.sessions[k]? = some a)
    (htyped : a.tree.Typed a.setting.resolver) {id : NodeId}
    (hreply : (s.step k (.add target sel)).reply = .added id) : ∃ b n m object field,
      (s.step k (.add target sel)).server.sessions[k]? = some b ∧ b.tree.node? sel.id = some n ∧
      n.parent = some target ∧ n.field = sel.field ∧ a.tree.node? target = some m ∧
      m.type = .defined (.object object) ∧ object.field? sel.field = some field ∧
      a.setting.resolver.Assigns field.type n.type := by
  have hw := hs.wellFormed k a hk
  have hlive := live_of_accepts hk (c := .add target sel) (by rw [Change.command, hreply]; rfl)
  obtain ⟨u, ps, hadd, hserver⟩ := add_of_reply hk hlive hreply
  have hu := hw.accepts (hs.accounted k a hk) hadd
  have hutyped := hw.typed_add htyped target sel
  rw [hadd] at hutyped
  obtain ⟨m, n, -, hm, -, hn, hfield, -⟩ := hw.published_add hadd
  have hparent := (Tree.parentOf_eq hn).symm.trans (hu.parentOf_id hm)
  obtain ⟨m', hm', object, field, hobject, hdeclared, hassigns⟩ := hutyped sel.id n target hn hparent
  obtain ⟨m'', hm'', hkind, -⟩ := hu.kept_kind hm
  obtain rfl := Option.some.inj (hm'.symm.trans hm'')
  refine ⟨a.after u ps, n, m, object, field, ?_, hn, hparent, hfield, hm, hkind.symm.trans hobject,
    hfield ▸ hdeclared, hassigns⟩
  rw [hserver]
  exact getElem?_setSession hk _

lemma Sound.refused_for_type_iff (hs : s.Sound root) (hk : s.sessions[k]? = some a)
    (hresolver : a.setting.resolver = schema.resolver) (hlive : a.tree.isLive)
    (hm : a.tree.node? target = some m) {id : NodeId} {type : TypeExpr} :
    (s.step k (.add target sel)).reply = .rejected (.unresolvedType id type) ↔
      ∃ done c rest field, sel.candidates a.setting target (some m.type) 0 = done ++ c :: rest ∧
        Candidate.Clear a.setting a.tree m.depth [] done ∧ id = c.id ∧ ¬ a.tree.contains c.id ∧
        c.id ∉ done.map Candidate.id ∧ c.declared? = some field ∧ type = field.type.element ∧
        schema.Gives field.type none := by
  rw [hs.reply_add_rejected_iff_verdict hk hlive hm, Candidate.verdictAll?_eq_some_iff]
  simp only [List.nil_append, Candidate.verdict?_eq_unresolved_iff, hresolver, Schema.gives_iff]
  constructor
  · rintro ⟨done, c, rest, hsplit, hclear, hid, habsent, hnew, field, hfield, htype, hnone⟩
    exact ⟨done, c, rest, field, hsplit, hclear, hid, habsent, hnew, hfield, htype, hnone⟩
  · rintro ⟨done, c, rest, field, hsplit, hclear, hid, habsent, hnew, hfield, htype, hnone⟩
    exact ⟨done, c, rest, hsplit, hclear, hid, habsent, hnew, field, hfield, htype, hnone⟩

lemma reply_add_of_admits (hk : s.sessions[k]? = some a) (hlive : a.tree.isLive)
    (hm : a.tree.node? target = some m) {type : NodeType} {held : References}
    (hadmits : a.tree.Admits a.setting m sel.id sel.field sel.arguments type held)
    (hleaf : sel.children = []) : (s.step k (.add target sel)).reply = .added sel.id := by
  obtain ⟨id, field, arguments, children⟩ := sel
  obtain rfl : children = [] := hleaf
  have hadd := Tree.add_leaf a.setting a.tree target id field arguments
  rw [hadmits.sprout_eq hm] at hadd
  exact (step_add_ok hk hlive hadd).1

lemma Sound.types (hs : s.Sound root) (hk : s.sessions[k]? = some a)
    (htyped : a.tree.Typed a.setting.resolver) (hresolver : a.setting.resolver = schema.resolver) :
    s.Types schema k a where
  nodes id n hn hid := by
    obtain ⟨p, m, object, field, hp, hm, hobject, hfield, hassigns⟩ :=
      ((hs.wellFormed k a hk).wellTyped htyped).typed id n hn hid
    rw [hresolver] at hassigns
    exact ⟨p, m, object, field, hp, hm, hobject, hfield,
      Schema.gives_iff.mpr (Resolver.nodeType?_of_assigns hassigns)⟩
  added target sel id hreply := by
    obtain ⟨b, n, m, object, field, hb, hn, hp, hname, hm, hobject, hfield, hassigns⟩ :=
      hs.types_added hk htyped hreply
    rw [hresolver] at hassigns
    exact ⟨b, n, m, object, field, hb, hn, hp, hname, hm, hobject, hfield,
      Schema.gives_iff.mpr (Resolver.nodeType?_of_assigns hassigns)⟩
  refused hlive target m sel hm id type := hs.refused_for_type_iff hk hresolver hlive hm
  single hlive target m object field sel hm hobject hfield hfree hleaf hbound hdepth hsize := by
    have habsent : a.tree.node? sel.id = none := by
      rwa [Tree.contains_eq_isSome, Option.not_isSome_iff_eq_none] at hfree
    have hm' : m.type.object? = some object := by rw [hobject]; rfl
    cases htype : schema.resolver.nodeType? field.type with
    | none =>
      have hgives : schema.Gives field.type none := Schema.gives_iff.mpr htype
      have hdeclared : Candidate.declared?
          ⟨target, some m.type, 0, sel.id, sel.field, sel.arguments⟩ = some field := by
        rw [Candidate.declared?, Candidate.object?, Option.bind_some, hm', Option.bind_some, hfield]
      exact .inr ⟨hgives, (hs.refused_for_type_iff hk hresolver hlive hm).mpr ⟨[], _, [], field,
        Selection.candidates_of_leaf hleaf, Candidate.clear_nil, rfl, hfree, List.not_mem_nil,
        hdeclared, rfl, hgives⟩⟩
    | some type =>
      cases hheld : (a.tree.bindings.hold ∅ sel.arguments).1 with
      | error x =>
        have hx := List.find?_some (Bindings.hold_error_iff.mp hheld)
        have hmem := List.mem_of_find?_eq_some (Bindings.hold_error_iff.mp hheld)
        simp [hbound x hmem] at hx
      | ok held =>
        exact .inl ⟨type, Schema.gives_iff.mpr htype, reply_add_of_admits hk hlive hm
          ⟨habsent, ⟨object, field, hm', hfield, hresolver ▸ htype⟩, hheld, hdepth, hsize⟩ hleaf⟩

end

/-- Whatever is done with trees of a schema, the types of fields decide as the schema says. -/
theorem field_types_resolved (schema : Schema) (limits : Limits) (root : TypeDef) (count : Nat)
    (cs : List (Nat × Command)) (k : Nat) (a : Session)
    (hk : ((start { resolver := schema.resolver, limits } root count).run cs).sessions[k]? = some a) :
    schema.Resolves ∧
      ((start { resolver := schema.resolver, limits } root count).run cs).Types schema k a := by
  have hs := sound_run { resolver := schema.resolver, limits } root count cs
  obtain ⟨hstart, hsetting⟩ := start_of_run hk
  obtain ⟨b, hb, htyped⟩ := typed_run (sound_start _ root count) hstart
    (Tree.typed_ofRoot _ root) cs
  obtain rfl := Option.some.inj (hk.symm.trans hb)
  exact ⟨schema.resolves, hs.types hk htyped (by rw [hsetting])⟩

namespace Sample

/-- Scalars under several wrappers. -/
def reading : TypeDef :=
  .object ⟨"Reading", [⟨"values", .list (.nonNull (.named "Int"))⟩,
    ⟨"history", .nonNull (.list (.named "Int"))⟩, ⟨"next", .nonNull (.nonNull (.named "Reading"))⟩]⟩

def readings : Schema := ⟨(∅ : Std.ExtTreeMap String TypeDef).insert reading.name reading⟩

/-- One reading comes after another, and the second one has values. -/
def twoReadings : List (Nat × Command) :=
  [(0, .add .root { id := ⟨1⟩, field := "next", children := [{ id := ⟨2⟩, field := "values" }] })]

end Sample

theorem field_types_resolved_readings : ∃ a : Session,
    ((start { resolver := Sample.readings.resolver } Sample.reading 1).run
      Sample.twoReadings).sessions[0]? = some a ∧
    Sample.readings.Resolves ∧
    ((start { resolver := Sample.readings.resolver } Sample.reading 1).run
      Sample.twoReadings).Types Sample.readings 0 a ∧
    (a.tree.node? ⟨1⟩).map (·.type) = some (.defined Sample.reading) ∧
    (a.tree.node? ⟨2⟩).map (·.type) = some (.primitive "Int") ∧
    (((start { resolver := Sample.readings.resolver } Sample.reading 1).run
      Sample.twoReadings).step 0 (.add ⟨1⟩ { id := ⟨3⟩, field := "history" })).reply =
        .rejected (.unresolvedType ⟨3⟩ (.list (.named "Int"))) := by
  have hend : (((start { resolver := Sample.readings.resolver } Sample.reading 1).run
      Sample.twoReadings).sessions[0]?).map (fun a =>
        ((a.tree.node? ⟨1⟩).map (·.type), (a.tree.node? ⟨2⟩).map (·.type))) =
      some (some (.defined Sample.reading), some (.primitive "Int")) := by cbv
  have hrefused : (((start { resolver := Sample.readings.resolver } Sample.reading 1).run
      Sample.twoReadings).step 0 (.add ⟨1⟩ { id := ⟨3⟩, field := "history" })).reply =
        .rejected (.unresolvedType ⟨3⟩ (.list (.named "Int"))) := by cbv
  obtain ⟨a, hk, hend⟩ := Option.map_eq_some_iff.mp hend
  obtain ⟨hfirst, hsecond⟩ := Prod.mk.inj hend
  obtain ⟨hresolves, htypes⟩ := field_types_resolved Sample.readings {} Sample.reading 1
    Sample.twoReadings 0 a hk
  exact ⟨a, hk, hresolves, htypes, hfirst, hsecond, hrefused⟩

end Server

end LiveQuery
