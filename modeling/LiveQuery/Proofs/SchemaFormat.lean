import LiveQuery.Proofs.Records
import LiveQuery.Wire.Schema

/-!
# The wire format of type definitions

Which JSON values represent a definition is said by recursion on the definition, apart from the
reader. Definitions and fields are records, each in the form its writer chose. A type expression is
no record: it is an object with one member, at every depth.
-/

namespace LiveQuery

/-! ### Type expressions -/

namespace TypeExpr

variable {j : Json} {t : TypeExpr}

inductive Represented : TypeExpr → Json → Prop
  | named (name : String) : Represented (.named name) (.object [("named", .string name)])
  | list {item : TypeExpr} {k : Json} (h : item.Represented k) :
      Represented (.list item) (.object [("list", k)])
  | nonNull {inner : TypeExpr} {k : Json} (h : inner.Represented k) :
      Represented (.nonNull inner) (.object [("nonNull", k)])

/-- Not an object, or none with exactly one member, or the member has no wrapper's name, or there is
something like that further inside. -/
inductive Flawed : Json → Prop
  | form {j : Json} (h : ∀ key k, j ≠ .object [(key, k)]) : Flawed j
  | key {key : String} {k : Json} (h : key ∉ ["named", "list", "nonNull"]) :
      Flawed (.object [(key, k)])
  | name {k : Json} (h : k.NoText) : Flawed (.object [("named", k)])
  | item {k : Json} (h : Flawed k) : Flawed (.object [("list", k)])
  | inner {k : Json} (h : Flawed k) : Flawed (.object [("nonNull", k)])

lemma represented_of_decode (h : decode? j = some t) : t.Represented j := by
  fun_induction decode? j generalizing t with
  | case1 j =>
    obtain ⟨name, hname, rfl⟩ := Option.map_eq_some_iff.mp h
    rw [Json.string?_eq_some_iff.mp hname]
    exact .named name
  | case2 j hkey ih =>
    obtain ⟨item, hitem, rfl⟩ := Option.map_eq_some_iff.mp h
    exact .list (ih hitem)
  | case3 j hkey hkey' ih =>
    obtain ⟨inner, hinner, rfl⟩ := Option.map_eq_some_iff.mp h
    exact .nonNull (ih hinner)
  | case4 => cases h
  | case5 => cases h

lemma decode_of_represented (h : t.Represented j) : decode? j = some t := by
  induction h with
  | named name => rfl
  | list _ ih => simp [decode?, ih]
  | nonNull _ ih => simp [decode?, ih]

theorem decode?_eq_some_iff (t : TypeExpr) (j : Json) : decode? j = some t ↔ t.Represented j :=
  ⟨represented_of_decode, decode_of_represented⟩

lemma decode?_eq_none (h : Flawed j) : decode? j = none := by
  induction h with
  | @form j h =>
    fun_cases decode? j with
    | case5 => rfl
    | _ => exact absurd rfl (h _ _)
  | key h =>
    simp only [List.mem_cons, List.not_mem_nil, or_false, not_or] at h
    simp [decode?, h]
  | name h => simp [decode?, Json.string?_eq_none h]
  | item _ ih => simp [decode?, ih]
  | inner _ ih => simp [decode?, ih]

end TypeExpr

/-! ### Fields -/

namespace Field

variable {j : Json} {f : Field}

def Represented (f : Field) (j : Json) : Prop :=
  ∃ k, j.Records [("name", some (.string f.name)), ("type", some k)] ∧ f.type.Represented k

inductive Flawed (j : Json) : Prop
  | form (h : ¬ j.isRecord 2)
  | name (h : j.Lacks 0 "name" Json.NoText)
  | type (h : j.Lacks 1 "type" TypeExpr.Flawed)

lemma decode?_eq_some_iff_members : decode? j = some f ↔ j.isRecord 2 ∧
    j.member? 0 "name" = some (.string f.name) ∧
    ∃ k, j.member? 1 "type" = some k ∧ TypeExpr.decode? k = some f.type := by
  obtain ⟨name, type⟩ := f
  simp only [decode?, Option.bind_eq_bind, Option.pure_def]
  by_cases hrec : j.isRecord 2
  · simp [hrec, Option.bind_eq_some_iff, Json.string?_eq_some_iff]
  · simp [hrec]

theorem decode?_eq_some_iff (f : Field) (j : Json) (h : j.Distinct) :
    decode? j = some f ↔ f.Represented j := by
  simp [Represented, Json.records_iff h, decode?_eq_some_iff_members, Json.Answers,
    TypeExpr.decode?_eq_some_iff, and_assoc]

lemma decode?_eq_none (h : Flawed j) : decode? j = none := by
  refine Option.eq_none_iff_forall_ne_some.mpr fun f hf => ?_
  obtain ⟨hform, hname, k, hk, htype⟩ := decode?_eq_some_iff_members.mp hf
  cases h with
  | form h => exact h hform
  | name h => exact Json.ne_some_of_lacks h (Json.not_noText _) hname
  | type h => simp [TypeExpr.decode?_eq_none (h k hk)] at htype

end Field

/-! ### Definitions -/

lemma ObjectDef.decodeAfter?_eq_some_iff {j : Json} {o : ObjectDef} {skipped : Nat} :
    decodeAfter? skipped j = some o ↔ j.member? skipped "name" = some (.string o.name) ∧
      ∃ items, j.member? (skipped + 1) "fields" = some (.array items) ∧
        List.Forall₂ (fun f k => Field.decode? k = some f) o.fields items := by
  obtain ⟨name, fields⟩ := o
  simp [decodeAfter?, Option.bind_eq_some_iff, Json.string?_eq_some_iff, Json.array?_eq_some_iff,
    Json.mapM_eq_some_iff]

namespace TypeDef

variable {j : Json} {d : TypeDef}

/-- The tag comes first. -/
def Represented : TypeDef → Json → Prop
  | object o, j => ∃ items, j.Records [("kind", some (.string "object")),
      ("name", some (.string o.name)), ("fields", some (.array items))] ∧
      List.Forall₂ Field.Represented o.fields items
  | scalar name, j => j.Records [("kind", some (.string "scalar")), ("name", some (.string name))]
  | enumeration name values, j => j.Records [("kind", some (.string "enum")),
      ("name", some (.string name)), ("values", some (.array (values.map .string)))]

/-- Something in the definition cannot be read, in the type expression of a field at any depth. -/
inductive Flawed (j : Json) : Prop
  | kind (h : j.Lacks 0 "kind" fun k => ∀ s ∈ ["object", "scalar", "enum"], k ≠ .string s)
  | form {kind : String} (h : j.member? 0 "kind" = some (.string kind))
      (hform : ¬ j.isRecord (if kind = "scalar" then 2 else 3))
  | name (h : j.Lacks 1 "name" Json.NoText)
  | fields (h : j.member? 0 "kind" = some (.string "object"))
      (hfields : j.Lacks 2 "fields" (Json.NoList Field.Flawed))
  | values (h : j.member? 0 "kind" = some (.string "enum"))
      (hvalues : j.Lacks 2 "values" (Json.NoList Json.NoText))

lemma decode?_eq_some_object_iff {o : ObjectDef} : decode? j = some (object o) ↔
    j.isRecord 3 ∧ j.member? 0 "kind" = some (.string "object") ∧
      ObjectDef.decodeAfter? 1 j = some o := by
  simp only [decode?, Option.bind_eq_bind, Option.bind_eq_some_iff, Json.string?_eq_some_iff]
  constructor
  · rintro ⟨_, htag, kind, rfl, hrest⟩
    split_ifs at hrest with hkind
    · obtain ⟨rfl, hform⟩ := hkind
      simp only [Option.bind_eq_some_iff, Option.pure_def, Option.some.injEq, object.injEq,
        exists_eq_right] at hrest
      exact ⟨hform, htag, hrest⟩
    all_goals simp [Option.bind_eq_some_iff] at hrest
  · rintro ⟨hform, htag, hread⟩
    exact ⟨_, htag, _, rfl, by simp [hform, hread]⟩

lemma decode?_eq_some_scalar_iff {name : String} : decode? j = some (scalar name) ↔
    j.isRecord 2 ∧ j.member? 0 "kind" = some (.string "scalar") ∧
      j.member? 1 "name" = some (.string name) := by
  simp only [decode?, Option.bind_eq_bind, Option.bind_eq_some_iff, Json.string?_eq_some_iff]
  constructor
  · rintro ⟨_, htag, kind, rfl, hrest⟩
    split_ifs at hrest with hkind hkind
    · simp [Option.bind_eq_some_iff] at hrest
    · obtain ⟨rfl, hform⟩ := hkind
      simp only [Option.bind_eq_some_iff, Json.string?_eq_some_iff, Option.pure_def,
        Option.some.injEq, scalar.injEq] at hrest
      obtain ⟨_, hname, _, rfl, rfl⟩ := hrest
      exact ⟨hform, htag, hname⟩
    · simp [Option.bind_eq_some_iff] at hrest
  · rintro ⟨hform, htag, hname⟩
    exact ⟨_, htag, _, rfl, by simp [hform, hname, Json.string?]⟩

lemma decode?_eq_some_enumeration_iff {name : String} {values : List String} :
    decode? j = some (enumeration name values) ↔
      j.isRecord 3 ∧ j.member? 0 "kind" = some (.string "enum") ∧
      j.member? 1 "name" = some (.string name) ∧
      ∃ items, j.member? 2 "values" = some (.array items) ∧
        items.mapM Json.string? = some values := by
  simp only [decode?, Option.bind_eq_bind, Option.bind_eq_some_iff, Json.string?_eq_some_iff]
  constructor
  · rintro ⟨_, htag, kind, rfl, hrest⟩
    split_ifs at hrest with hkind hkind hkind
    · simp [Option.bind_eq_some_iff] at hrest
    · simp [Option.bind_eq_some_iff] at hrest
    · obtain ⟨rfl, hform⟩ := hkind
      simp only [Option.bind_eq_some_iff, Json.string?_eq_some_iff, Json.array?_eq_some_iff,
        Option.pure_def, Option.some.injEq, enumeration.injEq] at hrest
      obtain ⟨_, hname, _, rfl, _, hvalues, items, rfl, _, hread, rfl, rfl⟩ := hrest
      exact ⟨hform, htag, hname, items, hvalues, hread⟩
  · rintro ⟨hform, htag, hname, items, hvalues, hread⟩
    exact ⟨_, htag, _, rfl, by simp [hform, hname, hvalues, hread, Json.string?, Json.array?]⟩

lemma mapM_string?_eq_some_iff {items : List Json} {values : List String} :
    items.mapM Json.string? = some values ↔ items = values.map .string := by
  simp only [Json.mapM_eq_some_iff, Json.string?_eq_some_iff, eq_comm (b := Json.string _)]
  rw [← List.forall₂_map_left_iff, List.forall₂_eq_eq_eq, eq_comm]

theorem decode?_eq_some_iff (d : TypeDef) (j : Json) (h : j.Distinct) :
    decode? j = some d ↔ d.Represented j := by
  cases d with
  | object o =>
    have hfields : ∀ items, j.member? 2 "fields" = some (.array items) →
        (List.Forall₂ (fun f k => Field.decode? k = some f) o.fields items ↔
          List.Forall₂ Field.Represented o.fields items) := fun _ hitems =>
      Json.forall₂_reads_iff Field.decode?_eq_some_iff h hitems
    rw [decode?_eq_some_object_iff, ObjectDef.decodeAfter?_eq_some_iff, Represented]
    simp only [Json.records_iff h, Json.Answers, List.length_cons, List.length_nil]
    constructor
    · rintro ⟨hform, htag, hname, items, hitems, hread⟩
      exact ⟨items, ⟨hform, htag, hname, hitems, trivial⟩, (hfields items hitems).mp hread⟩
    · rintro ⟨items, ⟨hform, htag, hname, hitems, -⟩, hread⟩
      exact ⟨hform, htag, hname, items, hitems, (hfields items hitems).mpr hread⟩
  | scalar name => simp [Represented, Json.records_iff h, Json.Answers, decode?_eq_some_scalar_iff]
  | enumeration name values =>
    rw [decode?_eq_some_enumeration_iff]
    simp [Represented, Json.records_iff h, Json.Answers, mapM_string?_eq_some_iff]

lemma decode?_encode (d : TypeDef) : decode? d.encode = some d := by
  cases d with
  | object o =>
    refine decode?_eq_some_object_iff.mpr ⟨rfl, rfl, ObjectDef.decodeAfter?_eq_some_iff.mpr ?_⟩
    refine ⟨rfl, o.fields.map Field.encode, rfl, ?_⟩
    rw [List.forall₂_map_right_iff, List.forall₂_same]
    exact fun f _ => f.decode?_encode
  | scalar name => exact decode?_eq_some_scalar_iff.mpr ⟨rfl, rfl, rfl⟩
  | enumeration name values =>
    exact decode?_eq_some_enumeration_iff.mpr
      ⟨rfl, rfl, rfl, _, rfl, mapM_string?_eq_some_iff.mpr rfl⟩

lemma decode?_eq_none (h : Flawed j) : decode? j = none := by
  refine Option.eq_none_iff_forall_ne_some.mpr fun d hd => ?_
  cases d with
  | object o =>
    obtain ⟨hform, htag, hread⟩ := decode?_eq_some_object_iff.mp hd
    obtain ⟨hname, items, hitems, hfields⟩ := ObjectDef.decodeAfter?_eq_some_iff.mp hread
    cases h with
    | kind h => exact h _ htag "object" (by simp) rfl
    | form h hflaw =>
      cases htag.symm.trans h
      exact hflaw hform
    | name h => exact Json.ne_some_of_lacks h (Json.not_noText _) hname
    | fields _ h => exact Json.not_noList hfields (fun _ => Field.decode?_eq_none) (h _ hitems)
    | values h _ => simp [htag] at h
  | scalar name =>
    obtain ⟨hform, htag, hname⟩ := decode?_eq_some_scalar_iff.mp hd
    cases h with
    | kind h => exact h _ htag "scalar" (by simp) rfl
    | form h hflaw =>
      cases htag.symm.trans h
      exact hflaw hform
    | name h => exact Json.ne_some_of_lacks h (Json.not_noText _) hname
    | fields h _ => simp [htag] at h
    | values h _ => simp [htag] at h
  | enumeration name values =>
    obtain ⟨hform, htag, hname, items, hitems, hvalues⟩ := decode?_eq_some_enumeration_iff.mp hd
    cases h with
    | kind h => exact h _ htag "enum" (by simp) rfl
    | form h hflaw =>
      cases htag.symm.trans h
      exact hflaw hform
    | name h => exact Json.ne_some_of_lacks h (Json.not_noText _) hname
    | fields h _ => simp [htag] at h
    | values _ h =>
      exact Json.not_noList (Json.mapM_eq_some_iff.mp hvalues) (fun _ => Json.string?_eq_none)
        (h _ hitems)

/-- A value without duplicate members is read as a definition exactly if it represents the
definition, and any value as a type expression exactly if it represents that. What is written is
read as what it was written from. A definition with a flaw is refused as a whole, also if the flaw
is deep in the type of one of its fields. -/
theorem definitions_read_exactly (d : TypeDef) (t : TypeExpr) (j : Json) :
    (j.Distinct → (decode? j = some d ↔ d.Represented j)) ∧
    (TypeExpr.decode? j = some t ↔ t.Represented j) ∧
    decode? d.encode = some d ∧ TypeExpr.decode? t.encode = some t ∧
    (Flawed j → decode? j = none) :=
  ⟨decode?_eq_some_iff d j, TypeExpr.decode?_eq_some_iff t j, decode?_encode d,
    TypeExpr.decode?_encode t, decode?_eq_none⟩

namespace Sample

def person : TypeDef :=
  .object ⟨"Person", [⟨"name", .named "String"⟩, ⟨"friends", .list (.nonNull (.named "Person"))⟩]⟩

/-- The tag is last. One field is an object with a further member and the other an array. -/
def personForms : Json :=
  .object [("fields", .array [
      .object [("type", .object [("named", .string "String")]), ("index", .int 0),
        ("name", .string "name")],
      .array [.string "friends",
        .object [("list", .object [("nonNull", .object [("named", .string "Person")])])]]]),
    ("name", .string "Person"), ("kind", .string "object")]

/-- The type of the one field has two members inside its list. -/
def twoMembers : Json :=
  .array [.string "object", .string "Person", .array [.array [.string "friends",
    .object [("list", .object [("named", .string "Person"), ("nonNull", .null)])]]]]

end Sample

theorem definitions_read_exactly_person : Sample.personForms.Distinct ∧
    Sample.person.Represented Sample.personForms ∧
    decode? Sample.person.encode = some Sample.person ∧ Flawed Sample.twoMembers ∧
    decode? Sample.twoMembers = none := by
  have hdistinct : Sample.personForms.Distinct := by
    simp [Sample.personForms, Json.Distinct, Json.DistinctAll, Json.DistinctMembers]
  have hread : decode? Sample.personForms = some Sample.person := rfl
  have hflawed : Flawed Sample.twoMembers := by
    refine .fields rfl ?_
    rintro _ ⟨⟩ _ ⟨⟩
    refine ⟨_, List.mem_cons_self, .type ?_⟩
    rintro _ ⟨⟩
    refine .item (.form ?_)
    rintro _ _ ⟨⟩
  obtain ⟨hexact, -, hback, -⟩ :=
    definitions_read_exactly Sample.person (.named "Person") Sample.personForms
  obtain ⟨-, -, -, -, hrefused⟩ :=
    definitions_read_exactly Sample.person (.named "Person") Sample.twoMembers
  exact ⟨hdistinct, (hexact hdistinct).mp hread, hback, hflawed, hrefused hflawed⟩

end TypeDef

end LiveQuery
