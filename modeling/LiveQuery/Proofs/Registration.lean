import Mathlib.Data.List.Induction
import Mathlib.Data.List.Nodup
import LiveQuery.Proofs.ByteOrder
import LiveQuery.Schema.Basic

/-!
# Registration

A schema is made from a list of definitions exactly if no two of them have the same name, and then the
order of the list makes no difference: the schema lists them by name. What is registered later takes a
name that is free or changes nothing, so that every name stands for the first definition that had it.
-/

namespace LiveQuery

namespace Schema

/-- The schema after a call to register a definition. If it is refused there is no new one. -/
def after (s : Schema) (d : TypeDef) : Schema :=
  match s.register d with
  | .ok r => r
  | .error _ => s

/-- The schema holds these definitions and no others, by name. -/
structure Lists (s : Schema) (ds : List TypeDef) : Prop where
  ascending : s.toList.Pairwise fun e f => utf8 e.1 < utf8 f.1
  keyed : ∀ e ∈ s.toList, e.1 = e.2.name
  perm : (s.toList.map Prod.snd).Perm ds
  size_eq : s.size = ds.length
  resolve?_eq_some_iff : ∀ t d, s.resolve? t = some d ↔ d ∈ ds ∧ d.name = t.base

/-- What comes of a call to register one more definition. -/
structure Receives (s : Schema) (d : TypeDef) : Prop where
  refused_iff : ∀ e, s.register d = .error e ↔ (s.get? d.name).isSome ∧ e = .nameTaken d.name
  unchanged : ∀ e, s.register d = .error e → s.after d = s
  changed : ∀ r, s.register d = .ok r → s.after d = r ∧ s.get? d.name = none ∧
    ∀ t, r.resolve? t = if t.base = d.name then some d else s.resolve? t

section

variable {s r : Schema} {ds before later : List TypeDef} {d : TypeDef} {e : SchemaError}
  {name : String}

/-! ### One call -/

lemma after_of_ok (h : s.register d = .ok r) : s.after d = r := by
  rw [after, h]

lemma after_of_error (h : s.register d = .error e) : s.after d = s := by
  rw [after, h]

lemma register_of_free (h : s.get? d.name = none) : ∃ r, s.register d = .ok r := by
  rw [register, contains_eq_isSome, h]
  exact ⟨_, rfl⟩

lemma register_of_taken (h : (s.get? d.name).isSome) : s.register d = .error (.nameTaken d.name) :=
  register_eq_error_iff.mpr ⟨(s.contains_eq_isSome d.name).trans h, rfl⟩

lemma free_of_register (h : s.register d = .ok r) : s.get? d.name = none := by
  cases hget : s.get? d.name with
  | none => rfl
  | some held =>
    rw [register_of_taken (by rw [hget]; rfl)] at h
    cases h

lemma get?_after (s : Schema) (d : TypeDef) (name : String) :
    (s.after d).get? name = (s.get? name).or (if d.name = name then some d else none) := by
  cases h : s.register d with
  | error e =>
    obtain ⟨htaken, -⟩ := register_eq_error_iff.mp h
    rw [after_of_error h]
    by_cases hname : d.name = name
    · subst hname
      rw [contains_eq_isSome, Option.isSome_iff_exists] at htaken
      obtain ⟨held, hheld⟩ := htaken
      rw [hheld, Option.some_or]
    · rw [if_neg hname, Option.or_none]
  | ok r =>
    rw [after_of_ok h, get?_of_register h]
    by_cases hname : d.name = name
    · subst hname
      rw [if_pos rfl, if_pos rfl, free_of_register h, Option.none_or]
    · rw [if_neg hname, if_neg hname, Option.or_none]

lemma get?_foldl_after (s : Schema) (later : List TypeDef) (name : String) :
    (later.foldl after s).get? name =
      (s.get? name).or (later.find? (·.name = name)) := by
  induction later generalizing s with
  | nil => simp
  | cons d rest ih =>
    rw [List.foldl_cons, ih, get?_after, List.find?_cons, Option.or_assoc]
    by_cases hname : d.name = name <;> simp [hname]

theorem receives (s : Schema) (d : TypeDef) : s.Receives d where
  refused_iff e := by
    rw [register_eq_error_iff, contains_eq_isSome]
  unchanged _ h := after_of_error h
  changed r h := by
    refine ⟨after_of_ok h, free_of_register h, fun t => ?_⟩
    rw [resolve?, get?_of_register h]
    simp only [eq_comm, resolve?]

/-! ### Making a schema -/

lemma ofList?_append (before later : List TypeDef) :
    ofList? (before ++ later) = ofList? before >>= later.foldlM register :=
  List.foldlM_append

lemma find?_name_eq_some_iff (h : (ds.map TypeDef.name).Nodup) :
    ds.find? (·.name = name) = some d ↔ d ∈ ds ∧ d.name = name := by
  constructor
  · intro hfind
    exact ⟨List.mem_of_find?_eq_some hfind, by simpa using List.find?_some hfind⟩
  · rintro ⟨hmem, rfl⟩
    cases hfind : ds.find? (·.name = d.name) with
    | none => exact absurd (decide_eq_true rfl) (List.find?_eq_none.mp hfind d hmem)
    | some held =>
      have hname : held.name = d.name := by simpa using List.find?_some hfind
      rw [List.inj_on_of_nodup_map h (List.mem_of_find?_eq_some hfind) hmem hname]

lemma ofList?_of_nodup (h : (ds.map TypeDef.name).Nodup) :
    ∃ s, ofList? ds = .ok s ∧ ∀ name, s.get? name = ds.find? (·.name = name) := by
  induction ds using List.reverseRecOn with
  | nil => exact ⟨empty, rfl, fun name => get?_empty name⟩
  | append_singleton before d ih =>
    rw [List.map_append, List.nodup_append] at h
    obtain ⟨hbefore, -, hnew⟩ := h
    obtain ⟨s, hs, hget⟩ := ih hbefore
    have hfree : s.get? d.name = none := by
      rw [hget, List.find?_eq_none]
      intro b hb hname
      exact hnew b.name (List.mem_map_of_mem hb) d.name (by simp) (by simpa using hname)
    obtain ⟨r, hr⟩ := register_of_free hfree
    refine ⟨r, ?_, fun name => ?_⟩
    · rw [ofList?_append, hs]
      exact congrArg (· >>= pure) hr
    · rw [get?_of_register hr, List.find?_append, hget]
      by_cases hname : d.name = name
      · subst hname
        simp [← hget, hfree]
      · simp [hname]

lemma ofList?_of_repeated (h : (before.map TypeDef.name).Nodup)
    (hd : d.name ∈ before.map TypeDef.name) (later : List TypeDef) :
    ofList? (before ++ d :: later) = .error (.nameTaken d.name) := by
  obtain ⟨s, hs, hget⟩ := ofList?_of_nodup h
  obtain ⟨b, hb, hname⟩ := List.mem_map.mp hd
  have htaken : s.get? d.name = some b := by
    rw [hget]
    exact (find?_name_eq_some_iff h).mpr ⟨hb, hname⟩
  rw [ofList?_append, hs]
  show (s.register d >>= fun r => later.foldlM register r) = _
  rw [register_of_taken (by rw [htaken]; rfl)]
  rfl

lemma exists_repeated (h : ¬ (ds.map TypeDef.name).Nodup) :
    ∃ before d later, ds = before ++ d :: later ∧ (before.map TypeDef.name).Nodup ∧
      d.name ∈ before.map TypeDef.name := by
  induction ds using List.reverseRecOn with
  | nil => exact absurd List.nodup_nil h
  | append_singleton init last ih =>
    by_cases hinit : (init.map TypeDef.name).Nodup
    · refine ⟨init, last, [], rfl, hinit, ?_⟩
      by_contra hnew
      exact h (by simpa [List.nodup_append] using ⟨hinit, fun b hb hname =>
        hnew (List.mem_map.mpr ⟨b, hb, hname⟩)⟩)
    · obtain ⟨before, d, later, rfl, hbefore, hd⟩ := ih hinit
      exact ⟨before, d, later ++ [last], by simp, hbefore, hd⟩

theorem ofList?_eq_ok_iff : ofList? ds = .ok s ↔
    (ds.map TypeDef.name).Nodup ∧ ∀ name, s.get? name = ds.find? (·.name = name) := by
  constructor
  · intro hs
    by_cases h : (ds.map TypeDef.name).Nodup
    · obtain ⟨r, hr, hget⟩ := ofList?_of_nodup h
      cases hr.symm.trans hs
      exact ⟨h, hget⟩
    · obtain ⟨before, d, later, rfl, hbefore, hd⟩ := exists_repeated h
      rw [ofList?_of_repeated hbefore hd] at hs
      cases hs
  · rintro ⟨h, hget⟩
    obtain ⟨r, hr, hget'⟩ := ofList?_of_nodup h
    rw [hr, ext_get? fun name => (hget name).trans (hget' name).symm]

theorem ofList?_eq_error_iff : ofList? ds = .error e ↔
    ∃ before d later, ds = before ++ d :: later ∧ (before.map TypeDef.name).Nodup ∧
      d.name ∈ before.map TypeDef.name ∧ e = .nameTaken d.name := by
  constructor
  · intro he
    have h : ¬ (ds.map TypeDef.name).Nodup := by
      intro h
      obtain ⟨s, hs, -⟩ := ofList?_of_nodup h
      rw [hs] at he
      cases he
    obtain ⟨before, d, later, rfl, hbefore, hd⟩ := exists_repeated h
    rw [ofList?_of_repeated hbefore hd] at he
    cases he
    exact ⟨before, d, later, rfl, hbefore, hd, rfl⟩
  · rintro ⟨before, d, later, rfl, hbefore, hd, rfl⟩
    exact ofList?_of_repeated hbefore hd later

lemma ofList?_perm {ds' : List TypeDef} (hs : ofList? ds = .ok s) (h : ds'.Perm ds) :
    ofList? ds' = .ok s := by
  obtain ⟨hnodup, hget⟩ := ofList?_eq_ok_iff.mp hs
  have hnodup' : (ds'.map TypeDef.name).Nodup := (h.map TypeDef.name).nodup_iff.mpr hnodup
  refine ofList?_eq_ok_iff.mpr ⟨hnodup', fun name => ?_⟩
  apply Option.ext
  intro d
  rw [hget, find?_name_eq_some_iff hnodup, find?_name_eq_some_iff hnodup', h.mem_iff]

lemma mem_toList_iff {entry : String × TypeDef} :
    entry ∈ s.toList ↔ s.get? entry.1 = some entry.2 :=
  Std.ExtTreeMap.mem_toList_iff_getElem?_eq_some

lemma lists_of_ofList? (hs : ofList? ds = .ok s) : s.Lists ds := by
  obtain ⟨hnodup, hget⟩ := ofList?_eq_ok_iff.mp hs
  have hmem : ∀ name d, s.get? name = some d ↔ d ∈ ds ∧ d.name = name := by
    intro name d
    rw [hget, find?_name_eq_some_iff hnodup]
  have hkeyed : ∀ entry ∈ s.toList, entry.1 = entry.2.name := fun entry he =>
    ((hmem _ _).mp (mem_toList_iff.mp he)).2.symm
  have hnames : (s.toList.map Prod.snd).map TypeDef.name = s.definitions.keys := by
    rw [List.map_map, ← Std.ExtTreeMap.map_fst_toList_eq_keys]
    exact List.map_congr_left fun entry he => (hkeyed entry he).symm
  have hperm : (s.toList.map Prod.snd).Perm ds := by
    refine (List.perm_ext_iff_of_nodup (.of_map TypeDef.name ?_) (.of_map TypeDef.name hnodup)).mpr
      fun d => ?_
    · rw [hnames]
      exact s.definitions.nodup_keys
    · simp only [List.mem_map, mem_toList_iff, hmem]
      constructor
      · rintro ⟨entry, ⟨hd, -⟩, rfl⟩
        exact hd
      · intro hd
        exact ⟨(d.name, d), ⟨hd, rfl⟩, rfl⟩
  refine ⟨toList_ascending s.definitions, hkeyed, hperm, ?_, fun t d => hmem t.base d⟩
  rw [← hperm.length_eq, List.length_map]
  exact Std.ExtTreeMap.length_toList.symm

end

/-- A list of definitions makes a schema exactly if their names are distinct, the schema is the same in
whatever order they come, and every call to register one more changes one name at most. -/
theorem schemas_constructed (ds : List TypeDef) :
    ((∃ s, ofList? ds = .ok s) ↔ (ds.map TypeDef.name).Nodup) ∧
    (∀ e, ofList? ds = .error e ↔ ∃ before d later, ds = before ++ d :: later ∧
      (before.map TypeDef.name).Nodup ∧ d.name ∈ before.map TypeDef.name ∧
      e = .nameTaken d.name) ∧
    ∀ s, ofList? ds = .ok s →
      (∀ ds', ds'.Perm ds → ofList? ds' = .ok s) ∧ s.Lists ds ∧
      ∀ later : List TypeDef,
        (∀ name, (later.foldl after s).get? name = (ds ++ later).find? (·.name = name)) ∧
        ∀ d, (later.foldl after s).Receives d := by
  refine ⟨?_, fun e => ofList?_eq_error_iff, fun s hs => ⟨fun ds' h => ofList?_perm hs h,
    lists_of_ofList? hs, fun later => ⟨fun name => ?_, fun d => receives _ d⟩⟩⟩
  · constructor
    · rintro ⟨s, hs⟩
      exact (ofList?_eq_ok_iff.mp hs).1
    · intro h
      obtain ⟨s, hs, -⟩ := ofList?_of_nodup h
      exact ⟨s, hs⟩
  · rw [get?_foldl_after, (ofList?_eq_ok_iff.mp hs).2, List.find?_append]

namespace Sample

/-- Not in the order of the names. -/
def declared : List TypeDef := [.scalar "Url", .object ⟨"Post", [⟨"link", .named "Url"⟩]⟩]

/-- The second of them is refused. -/
def offered : List TypeDef := [.scalar "Id", .enumeration "Url" ["a"], .scalar "Éa"]

end Sample

theorem schemas_constructed_offered : ∃ s : Schema,
    ofList? Sample.declared = .ok s ∧ ofList? Sample.declared.reverse = .ok s ∧
    s.Lists Sample.declared ∧ s.toList.map Prod.fst = ["Post", "Url"] ∧
    s.resolve? (.list (.nonNull (.named "Url"))) = some (.scalar "Url") ∧
    (Sample.offered.foldl after s).get? "Url" = some (.scalar "Url") ∧
    (Sample.offered.foldl after s).Receives (.scalar "Éa") ∧
    (Sample.offered.foldl after s).register (.scalar "Éa") = .error (.nameTaken "Éa") := by
  obtain ⟨⟨-, hmade⟩, -, hlater⟩ := schemas_constructed Sample.declared
  obtain ⟨s, hs⟩ := hmade (by decide)
  obtain ⟨hperm, hlists, hreached⟩ := hlater s hs
  obtain ⟨hget, hreceives⟩ := hreached Sample.offered
  have hnames : (ofList? Sample.declared).toOption.map (fun s => s.toList.map Prod.fst) =
      some ["Post", "Url"] := by cbv
  rw [hs] at hnames
  have hresolve : s.resolve? (.list (.nonNull (.named "Url"))) = some (.scalar "Url") :=
    (hlists.resolve?_eq_some_iff _ _).mpr ⟨by decide, rfl⟩
  have hfirst : (Sample.offered.foldl after s).get? "Url" = some (.scalar "Url") :=
    (hget "Url").trans (by decide)
  have htaken : (Sample.offered.foldl after s).get? "Éa" = some (.scalar "Éa") :=
    (hget "Éa").trans (by decide)
  exact ⟨s, hs, hperm _ (List.reverse_perm _), hlists, Option.some.inj hnames, hresolve, hfirst,
    hreceives _,
    ((hreceives (.scalar "Éa")).refused_iff _).mpr ⟨by rw [TypeDef.name, htaken]; rfl, rfl⟩⟩

end Schema

end LiveQuery
