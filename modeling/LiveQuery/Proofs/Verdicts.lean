import LiveQuery.Proofs.Collection
import LiveQuery.Proofs.Composition
import LiveQuery.Proofs.Flattening
import LiveQuery.Proofs.Replays

/-!
# Verdicts

Whether a selection will be accepted can be told from the tree as it is before anything is added. Its
nodes are listed from the top down, each with the type its parent will have, and each of them has to
pass the same checks in the same order. The first check that fails is the reason of the rejection.
-/

namespace LiveQuery

/-- The type that the schema gives to what is selected by a field of a node of some type. -/
def Setting.typeOf? (s : Setting) (parent : NodeType) (field : String) : Option NodeType :=
  parent.object?.bind fun object => (object.field? field).bind fun declared =>
    s.resolver.nodeType? declared.type

/-- A node that is asked for by a selection or within it. -/
structure Candidate where
  parent : NodeId
  /-- Nothing, if the parent is within the selection itself and has no type. -/
  parentType : Option NodeType
  /-- How deep it is within the selection. -/
  level : Nat
  id : NodeId
  field : String
  arguments : List Argument

namespace Selection

mutual

/-- The nodes of a selection from the top down, a node before what is nested in it. -/
def candidates (s : Setting) (parent : NodeId) (parentType : Option NodeType) (level : Nat) :
    Selection → List Candidate
  | ⟨id, field, arguments, children⟩ =>
    ⟨parent, parentType, level, id, field, arguments⟩ ::
      candidatesAll s id (parentType.bind (s.typeOf? · field)) (level + 1) children

def candidatesAll (s : Setting) (parent : NodeId) (parentType : Option NodeType) (level : Nat) :
    List Selection → List Candidate
  | [] => []
  | sel :: rest =>
    sel.candidates s parent parentType level ++ candidatesAll s parent parentType level rest

end

end Selection

/-- What is checked about a candidate. -/
inductive Check where
  /-- Its id is not in use and no earlier candidate has it. -/
  | free
  /-- Its parent has fields at all. -/
  | selectable
  /-- Its parent has that field. -/
  | declared
  /-- The type of the field can be resolved. -/
  | resolved
  /-- The variables of its arguments are bound. -/
  | bound
  | depth
  | size

def Check.inOrder : List Check := [.free, .selectable, .declared, .resolved, .bound, .depth, .size]

namespace Candidate

/-- The object type below which the candidate is asked for. -/
def object? (c : Candidate) : Option ObjectDef :=
  c.parentType.bind (·.object?)

def declared? (c : Candidate) : Option Field :=
  c.object?.bind (·.field? c.field)

/-- What a check of the candidate fails for, if it fails, in the tree `t` with the candidates `earlier`
besides. The target of the selection is at depth `depth`. -/
def failure? (s : Setting) (t : Tree) (depth : Nat) (earlier : List NodeId) (c : Candidate) :
    Check → Option Rejection
  | .free => if t.contains c.id ∨ c.id ∈ earlier then some (.duplicateId c.id) else none
  | .selectable => if c.object? = none then some (.notSelectable c.id c.parent) else none
  | .declared => c.object?.bind fun object =>
    if object.field? c.field = none then some (.unknownField c.id c.field object.name) else none
  | .resolved => c.declared?.bind fun declared =>
    if s.resolver.nodeType? declared.type = none then
      some (.unresolvedType c.id declared.type.element)
    else none
  | .bound => (c.arguments.find? fun a => !t.bindings.contains a.variableId).map fun a =>
    .unknownVariable c.id a.name a.variableId
  | .depth => (s.limits.depth.filter (· < depth + 1 + c.level)).map (.tooDeep c.id)
  | .size => (s.limits.nodes.filter (· ≤ t.size + earlier.length)).map (.tooMany c.id)

/-- The first check that fails. -/
def verdict? (s : Setting) (t : Tree) (depth : Nat) (earlier : List NodeId) (c : Candidate) :
    Option Rejection :=
  Check.inOrder.findSome? (c.failure? s t depth earlier)

/-- The first check of the first candidate that fails. -/
def verdictAll? (s : Setting) (t : Tree) (depth : Nat) :
    (earlier : List NodeId) → List Candidate → Option Rejection
  | _, [] => none
  | earlier, c :: rest =>
    (c.verdict? s t depth earlier).or (verdictAll? s t depth (earlier ++ [c.id]) rest)

section

variable {s : Setting} {t : Tree} {depth : Nat} {earlier : List NodeId} {c : Candidate}
  {cs later : List Candidate} {e : Rejection}

lemma verdictAll?_append : verdictAll? s t depth earlier (cs ++ later) =
    (verdictAll? s t depth earlier cs).or
      (verdictAll? s t depth (earlier ++ cs.map Candidate.id) later) := by
  induction cs generalizing earlier with
  | nil => simp [verdictAll?]
  | cons c rest ih => simp [verdictAll?, ih, Option.or_assoc]

lemma verdict?_eq_none_iff : c.verdict? s t depth earlier = none ↔
    ∀ check, c.failure? s t depth earlier check = none := by
  rw [verdict?, List.findSome?_eq_none_iff]
  have hall : ∀ check, check ∈ Check.inOrder := by
    intro check
    cases check <;> simp [Check.inOrder]
  exact ⟨fun h check => h check (hall check), fun h check _ => h check⟩

/-- Every candidate passes every check, given the candidates before it. -/
def Clear (s : Setting) (t : Tree) (depth : Nat) (earlier : List NodeId) (cs : List Candidate) :
    Prop :=
  ∀ before c after, cs = before ++ c :: after → ∀ check,
    c.failure? s t depth (earlier ++ before.map Candidate.id) check = none

/-- The first candidate that does not pass every check fails one for `e`, and none before that. -/
def FailsFirst (s : Setting) (t : Tree) (depth : Nat) (cs : List Candidate) (e : Rejection) : Prop :=
  ∃ done c rest before check after, cs = done ++ c :: rest ∧ Clear s t depth [] done ∧
    Check.inOrder = before ++ check :: after ∧
    c.failure? s t depth (done.map Candidate.id) check = some e ∧
    ∀ passed ∈ before, c.failure? s t depth (done.map Candidate.id) passed = none

lemma clear_nil : Clear s t depth earlier [] := by simp [Clear]

lemma clear_cons_iff : Clear s t depth earlier (c :: later) ↔
    c.verdict? s t depth earlier = none ∧ Clear s t depth (earlier ++ [c.id]) later := by
  rw [verdict?_eq_none_iff]
  constructor
  · intro h
    refine ⟨by simpa using h [] c later rfl, fun before d after hsplit => ?_⟩
    simpa using h (c :: before) d after (by rw [hsplit]; rfl)
  · rintro ⟨hfirst, hlater⟩ before d after hsplit
    obtain ⟨rfl, hd⟩ | ⟨before, rfl, hd⟩ := List.cons_eq_append_iff.mp hsplit
    · cases hd
      simpa using hfirst
    · simpa using hlater before d after hd

lemma verdictAll?_eq_none_iff :
    verdictAll? s t depth earlier cs = none ↔ Clear s t depth earlier cs := by
  induction cs generalizing earlier with
  | nil => simp [verdictAll?, clear_nil]
  | cons c rest ih => rw [verdictAll?, Option.or_eq_none_iff, ih, clear_cons_iff]

lemma verdictAll?_eq_some_iff : verdictAll? s t depth earlier cs = some e ↔
    ∃ done c rest, cs = done ++ c :: rest ∧ Clear s t depth earlier done ∧
      c.verdict? s t depth (earlier ++ done.map Candidate.id) = some e := by
  induction cs generalizing earlier with
  | nil => simp [verdictAll?]
  | cons c rest ih =>
    rw [verdictAll?, Option.or_eq_some_iff, ih]
    constructor
    · rintro (hfirst | ⟨hfirst, done, d, after, rfl, hdone, hd⟩)
      · exact ⟨[], c, rest, rfl, clear_nil, by simpa using hfirst⟩
      · exact ⟨c :: done, d, after, rfl, clear_cons_iff.mpr ⟨hfirst, hdone⟩, by simpa using hd⟩
    · rintro ⟨done, d, after, hsplit, hdone, hd⟩
      obtain ⟨rfl, heq⟩ | ⟨done, rfl, rfl⟩ := List.cons_eq_append_iff.mp hsplit
      · cases heq
        exact .inl (by simpa using hd)
      · obtain ⟨hfirst, hdone⟩ := clear_cons_iff.mp hdone
        exact .inr ⟨hfirst, done, d, after, rfl, hdone, by simpa using hd⟩

lemma failsFirst_iff : FailsFirst s t depth cs e ↔ verdictAll? s t depth [] cs = some e := by
  simp only [verdictAll?_eq_some_iff, verdict?, List.findSome?_eq_some_iff, List.nil_append]
  constructor
  · rintro ⟨done, c, rest, before, check, after, hsplit, hdone, hcheck⟩
    exact ⟨done, c, rest, hsplit, hdone, before, check, after, hcheck⟩
  · rintro ⟨done, c, rest, hsplit, hdone, before, check, after, hcheck⟩
    exact ⟨done, c, rest, before, check, after, hsplit, hdone, hcheck⟩

end

end Candidate

namespace Bindings

lemma SameValues.unbound_eq {b c : Bindings} (h : b.SameValues c) :
    (fun a : Argument => !b.contains a.variableId) = fun a => !c.contains a.variableId := by
  funext a
  rw [Bool.eq_iff_iff.mpr h.contains_iff]

lemma hold_error_iff {b : Bindings} {held : References} {arguments : List Argument} {a : Argument} :
    (b.hold held arguments).1 = .error a ↔
      arguments.find? (fun a => !b.contains a.variableId) = some a := by
  induction arguments generalizing b held with
  | nil => simp [hold]
  | cons first rest ih =>
    rw [List.find?_cons]
    cases htaken : b.acquire? first.variableId with
    | none =>
      have hunbound : b.contains first.variableId = false := by
        rw [← Bool.not_eq_true, contains_iff_get?, acquire?_eq_none_iff.mp htaken]
        simp
      simp [hold, htaken, hunbound]
    | some taken =>
      obtain ⟨r, c⟩ := taken
      obtain ⟨binding, hbinding, -⟩ := acquire?_eq_some_iff.mp htaken
      have hbound : b.contains first.variableId = true := contains_iff_get?.mpr ⟨_, hbinding⟩
      have hvalues := (sameValues_acquire htaken).trans (sameValues_keep c held first.name r)
      simp only [hold, htaken, ih, ← hvalues.unbound_eq, hbound, Bool.not_true]

end Bindings

namespace Tree

section

variable {root : TypeDef} {s : Setting} {t u u' : Tree} {earlier : List NodeId}
  {out : List Reference} {depth : Nat} {c : Candidate} {p : Node}

/-- The tree `u` has the nodes `earlier` besides those of `t`, and the same variables are bound. -/
structure Fills (root : TypeDef) (out : List Reference) (t : Tree) (earlier : List NodeId)
    (u : Tree) : Prop where
  wellFormed : u.WellFormed root
  accounts : u.Accounts out
  contains_iff : ∀ x, u.contains x ↔ t.contains x ∨ x ∈ earlier
  size_eq : u.size = t.size + earlier.length
  values : t.bindings.SameValues u.bindings

lemma Fills.sprout_eq (h : Fills root out t earlier u) (hp : u.node? c.parent = some p)
    (htype : c.parentType = some p.type) (hdepth : p.depth = depth + c.level) :
    c.verdict? s t depth earlier = match (u.sprout s c.parent c.id c.field c.arguments).1 with
      | .error e => some e
      | .ok _ => none := by
  have hid : p.id = c.parent := h.wellFormed.id_eq hp
  have hobject : c.object? = p.type.object? := by rw [Candidate.object?, htype, Option.bind_some]
  have hunbound : ∀ a, c.arguments.find? (fun a => !t.bindings.contains a.variableId) = some a ↔
      (u.bindings.hold ∅ c.arguments).1 = .error a := fun a => by
    rw [Bindings.hold_error_iff, h.values.unbound_eq]
  unfold sprout typeBelow
  simp only [hp, hdepth, Candidate.verdict?, Check.inOrder, List.findSome?_cons, Candidate.failure?,
    List.findSome?_nil, h.contains_iff, h.size_eq, hobject, Candidate.declared?]
  by_cases hfree : t.contains c.id ∨ c.id ∈ earlier
  · simp [hfree]
  cases hparent : p.type.object? with
  | none => simp [hfree, hid]
  | some object =>
    cases hfield : object.field? c.field with
    | none => simp [hfree, hfield]
    | some declared =>
      cases hresolved : s.resolver.nodeType? declared.type with
      | none => simp [hfree, hfield, hresolved]
      | some type =>
        rcases hhold : u.bindings.hold ∅ c.arguments with ⟨a | held, b⟩
        · have hfirst := (hunbound a).mpr (by rw [hhold])
          simp [hfree, hfield, hresolved, hfirst]
        · have hbound : c.arguments.find? (fun a => !t.bindings.contains a.variableId) = none := by
            refine Option.eq_none_iff_forall_ne_some.mpr fun a ha => ?_
            rw [hunbound, hhold] at ha
            cases ha
          have hlevel : depth + c.level + 1 = depth + 1 + c.level := Nat.add_right_comm ..
          simp only [hfree, hfield, hresolved, hbound, hlevel, Limits.refuse?]
          cases s.limits.depth.filter (· < depth + 1 + c.level) <;>
            cases s.limits.nodes.filter (· ≤ t.size + earlier.length) <;> simp [hfield, hresolved]

/-- A candidate that passes every check is the next one of the earlier ones, and the type it has is
the one that those nested in it are checked with. -/
lemma Fills.attach {parent id : NodeId} {field : String} {arguments : List Argument} {n : Node}
    (h : Fills root out t earlier u) (hp : u.node? parent = some p)
    (hsprout : u.sprout s parent id field arguments = (.ok n, u')) :
    Fills root out t (earlier ++ [id]) (u'.attach parent n) ∧
      (u'.attach parent n).node? id = some n ∧ n.depth = p.depth + 1 ∧
      s.typeOf? p.type field = some n.type := by
  obtain ⟨rfl, hplants⟩ := sprout_plants h.wellFormed hsprout
  obtain ⟨haccounts, hvalues⟩ := hplants.accounts out h.accounts
  obtain ⟨m, type, held, hm, hadmits, hn, rfl⟩ := admits_of_sprout hsprout
  obtain rfl : m = p := Option.some.inj (hm.symm.trans hp)
  obtain ⟨object, declared, hobject, hfield, htype⟩ := hadmits.declared
  have hcontains : ∀ x, (u.charged arguments |>.attach parent n).contains x ↔
      u.contains x ∨ x = n.id := by
    intro x
    simp only [contains_eq_isSome, Option.isSome_iff_exists]
    constructor
    · rintro ⟨k, hk⟩
      cases hx : u.node? x with
      | none => exact .inr (hplants.only x k hk hx)
      | some k => exact .inl ⟨k, rfl⟩
    · rintro (⟨k, hk⟩ | rfl)
      · exact ⟨_, hplants.old x k hk⟩
      · exact ⟨n, hplants.live⟩
  refine ⟨⟨hplants.wellFormed, haccounts, fun x => ?_, ?_, h.values.trans hvalues⟩, hplants.live,
    congrArg Node.depth hn, ?_⟩
  · rw [hcontains, h.contains_iff, List.mem_append, List.mem_singleton, or_assoc]
  · rw [size_planted hplants.absent parent arguments n rfl, h.size_eq, List.length_append]
    rfl
  · rw [Setting.typeOf?, hobject, Option.bind_some, hfield, Option.bind_some, htype]
    exact congrArg (some ·.type) hn.symm

mutual

theorem Fills.grow_verdict {u : Tree} {earlier : List NodeId} {p : Node}
    (h : Fills root out t earlier u) (parent : NodeId)
    (sel : Selection) (hp : u.node? parent = some p) (level : Nat)
    (hdepth : p.depth = depth + level) :
    match grow s parent sel u with
    | ⟨.ok (), u', _⟩ =>
      Candidate.verdictAll? s t depth earlier (sel.candidates s parent (some p.type) level) = none ∧
      Fills root out t
        (earlier ++ (sel.candidates s parent (some p.type) level).map Candidate.id) u'
    | ⟨.error e, _, _⟩ => Candidate.verdictAll? s t depth earlier
        (sel.candidates s parent (some p.type) level) = some e := by
  match sel with
  | ⟨id, field, arguments, children⟩ =>
    have hfirst := h.sprout_eq (s := s)
      (c := ⟨parent, some p.type, level, id, field, arguments⟩) hp rfl hdepth
    rcases hsprout : u.sprout s parent id field arguments with ⟨e | n, v⟩
    · rw [hsprout] at hfirst
      simp only [grow, hsprout, Selection.candidates, Candidate.verdictAll?, hfirst, Option.some_or]
    · rw [hsprout] at hfirst
      obtain ⟨hfills, hn, hndepth, htype⟩ := h.attach hp hsprout
      have hnested := hfills.growAll_verdict id children hn (level + 1)
        (by rw [hndepth, hdepth, Nat.add_assoc])
      simp only [grow, hsprout, Selection.candidates, Candidate.verdictAll?, hfirst, Option.none_or,
        Option.bind_some, htype]
      rcases hgrow : growAll s id children (v.attach parent n) with ⟨e | ⟨⟩, u', ps⟩
      · rw [hgrow] at hnested
        exact hnested
      · rw [hgrow] at hnested
        simpa using hnested

theorem Fills.growAll_verdict {u : Tree} {earlier : List NodeId} {p : Node}
    (h : Fills root out t earlier u) (parent : NodeId)
    (sels : List Selection) (hp : u.node? parent = some p) (level : Nat)
    (hdepth : p.depth = depth + level) :
    match growAll s parent sels u with
    | ⟨.ok (), u', _⟩ => Candidate.verdictAll? s t depth earlier
        (Selection.candidatesAll s parent (some p.type) level sels) = none ∧
      Fills root out t
        (earlier ++ (Selection.candidatesAll s parent (some p.type) level sels).map Candidate.id) u'
    | ⟨.error e, _, _⟩ => Candidate.verdictAll? s t depth earlier
        (Selection.candidatesAll s parent (some p.type) level sels) = some e := by
  match sels with
  | [] => simpa [growAll, Selection.candidatesAll, Candidate.verdictAll?] using h
  | sel :: rest =>
    have hfirst := h.grow_verdict parent sel hp level hdepth
    have hgrows := h.wellFormed.grows (s := s) parent sel
    rw [Selection.candidatesAll, Candidate.verdictAll?_append]
    rcases hgrow : grow s parent sel u with ⟨e | ⟨⟩, u', ps⟩
    · rw [hgrow] at hfirst
      simp only [growAll, hgrow]
      rw [hfirst, Option.some_or]
    · rw [hgrow] at hfirst hgrows
      obtain ⟨hnone, hfills⟩ := hfirst
      have hp' := hgrows.1.old parent p hp
      rw [if_pos rfl] at hp'
      have hrest := hfills.growAll_verdict parent rest hp' level hdepth
      simp only [growAll, hgrow, hnone, Option.none_or]
      rcases hlater : growAll s parent rest u' with ⟨e | ⟨⟩, u'', qs⟩
      · rw [hlater] at hrest
        exact hrest
      · rw [hlater] at hrest
        simpa using hrest

end

/-- The verdict on all candidates is what comes of adding the selection. -/
theorem WellFormed.add_verdict {target : NodeId} {m : Node} (hw : t.WellFormed root)
    (ha : t.Accounts out) (hm : t.node? target = some m) (sel : Selection) :
    (t.add s target sel).result =
      match Candidate.verdictAll? s t m.depth [] (sel.candidates s target (some m.type) 0) with
      | some e => .error e
      | none => .ok sel.id := by
  have hfills : Fills root out t [] t := ⟨hw, ha, by simp, rfl, Bindings.SameValues.refl _⟩
  have hverdict := hfills.grow_verdict (s := s) target sel hm 0 rfl
  rw [Tree.add]
  rcases hgrow : grow s target sel t with ⟨e | ⟨⟩, t', ps⟩
  · rw [hgrow] at hverdict
    dsimp only at hverdict
    rw [hverdict]
    rfl
  · rw [hgrow] at hverdict
    rw [hverdict.1]
    rfl

end

end Tree

namespace Server

/-- Whatever happened before, an addition to a node that is not there is refused for that. Otherwise
it is accepted exactly if every node of the selection passes every check, and refused exactly for the
first check that the first node fails that fails any. -/
theorem addition_verdict (setting : Setting) (root : TypeDef) (count : Nat)
    (cs : List (Nat × Command)) (k : Nat) (a : Session)
    (hk : ((start setting root count).run cs).sessions[k]? = some a) (target : NodeId)
    (sel : Selection) :
    (a.tree.node? target = none →
      (a.tree.add setting target sel).result = .error (.unknownNode target)) ∧
    (∀ m, a.tree.node? target = some m →
      ((a.tree.add setting target sel).result = .ok sel.id ↔
        Candidate.Clear setting a.tree m.depth []
          (sel.candidates setting target (some m.type) 0)) ∧
      ∀ e, (a.tree.add setting target sel).result = .error e ↔
        Candidate.FailsFirst setting a.tree m.depth
          (sel.candidates setting target (some m.type) 0) e) ∧
    (a.tree.isLive →
      (∀ id, (a.tree.add setting target sel).result = .ok id →
        (((start setting root count).run cs).step k (.add target sel)).reply = .added id) ∧
      ∀ e, (a.tree.add setting target sel).result = .error e →
        (((start setting root count).run cs).step k (.add target sel)).reply = .rejected e) := by
  have hs := sound_run setting root count cs
  obtain ⟨-, rfl⟩ := start_of_run hk
  refine ⟨fun hnone => by rw [Tree.add_of_absent hnone], fun m hm => ?_, fun hlive => ?_⟩
  · rw [(hs.wellFormed k a hk).add_verdict (hs.accounted k a hk) hm sel,
      ← Candidate.verdictAll?_eq_none_iff]
    simp only [Candidate.failsFirst_iff]
    cases Candidate.verdictAll? a.setting a.tree m.depth []
      (sel.candidates a.setting target (some m.type) 0) <;> simp
  · refine ⟨fun id hadded => ?_, fun e => step_add_error hk hlive⟩
    rcases hadd : a.tree.add a.setting target sel with ⟨e | id', t, ps⟩
    · rw [hadd] at hadded
      cases hadded
    · rw [hadd] at hadded
      cases hadded
      exact (step_add_ok hk hlive hadd).1

namespace Sample

/-- The second child takes the id of the first, and the third could not be selected. -/
def clashing : Selection where
  id := ⟨2⟩
  field := "friend"
  children := [{ id := ⟨3⟩, field := "name" },
    { id := ⟨3⟩, field := "age", arguments := [⟨"of", ⟨9⟩⟩] },
    { id := ⟨4⟩, field := "age" }]

end Sample

theorem addition_verdict_clashing : ∃ (a : Session) (m : Node),
    ((start Sample.setting Sample.person 1).run Sample.watched).sessions[0]? = some a ∧
    a.tree.node? ⟨1⟩ = some m ∧ a.tree.isLive ∧
    Candidate.Clear Sample.setting a.tree m.depth []
      (Sample.circle.candidates Sample.setting ⟨1⟩ (some m.type) 0) ∧
    Candidate.FailsFirst Sample.setting a.tree m.depth
      (Sample.clashing.candidates Sample.setting ⟨1⟩ (some m.type) 0) (.duplicateId ⟨3⟩) ∧
    (((start Sample.setting Sample.person 1).run Sample.watched).step 0
      (.add ⟨1⟩ Sample.clashing)).reply = .rejected (.duplicateId ⟨3⟩) ∧
    (((start Sample.setting Sample.person 1).run Sample.watched).step 0
      (.add ⟨6⟩ Sample.clashing)).reply = .rejected (.unknownNode ⟨6⟩) := by
  have hstart : (((start Sample.setting Sample.person 1).run Sample.watched).sessions[0]?).bind
      (fun a => (a.tree.node? ⟨1⟩).map fun _ => (a.tree.isLive, (a.tree.node? ⟨6⟩).isSome)) =
        some (true, false) := by cbv
  obtain ⟨a, hk, hend⟩ := Option.bind_eq_some_iff.mp hstart
  obtain ⟨m, hm, hend⟩ := Option.map_eq_some_iff.mp hend
  obtain ⟨hlive, habsent⟩ := Prod.mk.inj hend
  have hadded : (((start Sample.setting Sample.person 1).run Sample.watched).step 0
      (.add ⟨1⟩ Sample.circle)).reply = .added ⟨2⟩ := by cbv
  have hrefused : (((start Sample.setting Sample.person 1).run Sample.watched).step 0
      (.add ⟨1⟩ Sample.clashing)).reply = .rejected (.duplicateId ⟨3⟩) := by cbv
  obtain ⟨-, hcircle, hreplies⟩ := addition_verdict Sample.setting Sample.person 1 Sample.watched 0 a
    hk ⟨1⟩ Sample.circle
  obtain ⟨-, hclashing, hreplies'⟩ := addition_verdict Sample.setting Sample.person 1 Sample.watched
    0 a hk ⟨1⟩ Sample.clashing
  obtain ⟨hunknown, -, hreplies''⟩ := addition_verdict Sample.setting Sample.person 1 Sample.watched
    0 a hk ⟨6⟩ Sample.clashing
  refine ⟨a, m, hk, hm, hlive, (hcircle m hm).1.mp ?_, ((hclashing m hm).2 _).mp ?_, hrefused,
    (hreplies'' hlive).2 _ (hunknown (by simpa using habsent))⟩
  · cases h : (a.tree.add Sample.setting ⟨1⟩ Sample.circle).result with
    | ok id =>
      cases hadded.symm.trans ((hreplies hlive).1 id h)
      rfl
    | error e => cases hadded.symm.trans ((hreplies hlive).2 e h)
  · cases h : (a.tree.add Sample.setting ⟨1⟩ Sample.clashing).result with
    | ok id => cases hrefused.symm.trans ((hreplies' hlive).1 id h)
    | error e =>
      cases hrefused.symm.trans ((hreplies' hlive).2 e h)
      rfl

end Server

end LiveQuery
