import LiveQuery.Proofs.Records
import LiveQuery.Wire.Batch

/-!
# The wire format of batches

Which JSON values represent a batch is said by recursion on the batch, apart from the reader: every
part is a record, in the form its writer chose, and a list that is empty can be missing. What is read
is exactly what is represented.
-/

namespace LiveQuery

namespace Json

/-- No whole number, or one that does not fit into 32 bits. -/
def NoId (j : Json) : Prop :=
  ∀ n : Nat, j = .int n → UInt32.size ≤ n

/-- The record has the member, and it is no list or a list with a bad item. -/
def Spoils (j : Json) (position : Nat) (name : String) (bad : Json → Prop) : Prop :=
  ∃ k, j.member? position name = some k ∧ k.NoList bad

section

variable {α : Type} {decode? : Json → Option α} {j : Json} {xs : List α} {member : Option Json}
  {position : Nat} {name : String}

lemma listOr_eq_some_iff : listOr decode? member = some xs ↔
    StandsFor xs (List.Forall₂ (fun x k => decode? k = some x) xs) member := by
  cases member with
  | none => simp [listOr, StandsFor, eq_comm]
  | some j =>
    simp [listOr, StandsFor, Option.bind_eq_some_iff, array?_eq_some_iff, mapM_eq_some_iff]

lemma standsFor_congr {P Q : List Json → Prop}
    (h : ∀ items, member = some (.array items) → (P items ↔ Q items)) :
    StandsFor xs P member ↔ StandsFor xs Q member := by
  cases member with
  | none => rfl
  | some j => exact exists_congr fun items => and_congr_right fun hitems => h items (by rw [hitems])

lemma standsFor_reads_iff {R : α → Json → Prop}
    (h : ∀ x k, k.Distinct → (decode? k = some x ↔ R x k)) (hj : j.Distinct) :
    StandsFor xs (List.Forall₂ (fun x k => decode? k = some x) xs) (j.member? position name) ↔
      StandsFor xs (List.Forall₂ R xs) (j.member? position name) :=
  standsFor_congr fun _ hitems => forall₂_reads_iff h hj hitems

lemma listOr_encode {encode : α → Json} (h : ∀ x, decode? (encode x) = some x) :
    listOr decode? (some (.array (xs.map encode))) = some xs := by
  refine listOr_eq_some_iff.mpr ⟨_, rfl, ?_⟩
  rw [List.forall₂_map_right_iff, List.forall₂_same]
  exact fun x _ => h x

lemma not_standsFor_of_spoils {P : Json → Prop} (h : j.Spoils position name P)
    (hbad : ∀ k, P k → decode? k = none) :
    ¬ StandsFor xs (List.Forall₂ (fun x k => decode? k = some x) xs) (j.member? position name) := by
  obtain ⟨k, hk, hitems⟩ := h
  rw [hk]
  rintro ⟨items, rfl, hread⟩
  exact not_noList hread hbad hitems

lemma not_noId (n : UInt32) : ¬ (int n.toNat).NoId := fun h =>
  absurd (h n.toNat rfl) (Nat.not_le.mpr n.toNat_lt_size)

lemma reads_index_iff {index : UInt32} :
    (∃ n, j.natBelow? UInt32.size = some n ∧ UInt32.ofNat n = index) ↔ j = .int index.toNat := by
  simp only [natBelow?_eq_some_iff]
  constructor
  · rintro ⟨n, ⟨rfl, hn⟩, rfl⟩
    rw [UInt32.toNat_ofNat_of_lt' hn]
  · rintro rfl
    exact ⟨index.toNat, ⟨rfl, index.toNat_lt_size⟩, by simp⟩

end

end Json

lemma NodeId.decode?_eq_some_iff {j : Json} {id : NodeId} :
    decode? j = some id ↔ j = .int id.index.toNat := by
  obtain ⟨index⟩ := id
  simp [decode?, Option.map_eq_some_iff, Json.reads_index_iff]

lemma VariableId.decode?_eq_some_iff {j : Json} {id : VariableId} :
    decode? j = some id ↔ j = .int id.index.toNat := by
  obtain ⟨index⟩ := id
  simp [decode?, Option.map_eq_some_iff, Json.reads_index_iff]

/-! ### Arguments and assignments -/

namespace Argument

variable {j : Json} {a : Argument}

def Represented (a : Argument) (j : Json) : Prop :=
  j.Records [("name", some (.string a.name)), ("variableId", some (.int a.variableId.index.toNat))]

inductive Flawed (j : Json) : Prop
  | form (h : ¬ j.isRecord 2)
  | name (h : j.Lacks 0 "name" Json.NoText)
  | variableId (h : j.Lacks 1 "variableId" Json.NoId)

lemma decode?_eq_some_iff_members : decode? j = some a ↔ j.isRecord 2 ∧
    j.member? 0 "name" = some (.string a.name) ∧
    j.member? 1 "variableId" = some (.int a.variableId.index.toNat) := by
  obtain ⟨name, id⟩ := a
  simp [decode?, Option.bind_eq_some_iff, Json.string?_eq_some_iff, VariableId.decode?_eq_some_iff]

theorem decode?_eq_some_iff (a : Argument) (j : Json) (h : j.Distinct) :
    decode? j = some a ↔ a.Represented j := by
  rw [Represented, Json.records_iff h, decode?_eq_some_iff_members]
  simp [Json.Answers]

lemma decode?_encode (a : Argument) : decode? a.encode = some a := by
  simp [encode, decode?, Json.string?, VariableId.decode?_encode]

lemma decode?_eq_none (h : Flawed j) : decode? j = none := by
  refine Option.eq_none_iff_forall_ne_some.mpr fun a ha => ?_
  obtain ⟨hform, hname, hvariable⟩ := decode?_eq_some_iff_members.mp ha
  cases h with
  | form h => exact h hform
  | name h => exact Json.ne_some_of_lacks h (Json.not_noText _) hname
  | variableId h => exact Json.ne_some_of_lacks h (Json.not_noId _) hvariable

end Argument

namespace Assignment

variable {j : Json} {a : Assignment}

/-- The value is any JSON value, `null` included. -/
def Represented (a : Assignment) (j : Json) : Prop :=
  j.Records [("id", some (.int a.variableId.index.toNat)), ("value", some a.value)]

inductive Flawed (j : Json) : Prop
  | form (h : ¬ j.isRecord 2)
  | variableId (h : j.Lacks 0 "id" Json.NoId)
  | value (h : j.member? 1 "value" = none)

lemma decode?_eq_some_iff_members : decode? j = some a ↔ j.isRecord 2 ∧
    j.member? 0 "id" = some (.int a.variableId.index.toNat) ∧ j.member? 1 "value" = some a.value := by
  obtain ⟨id, value⟩ := a
  simp [decode?, Option.bind_eq_some_iff, VariableId.decode?_eq_some_iff]

theorem decode?_eq_some_iff (a : Assignment) (j : Json) (h : j.Distinct) :
    decode? j = some a ↔ a.Represented j := by
  rw [Represented, Json.records_iff h, decode?_eq_some_iff_members]
  simp [Json.Answers]

lemma decode?_encode (a : Assignment) : decode? a.encode = some a := by
  simp [encode, decode?, VariableId.decode?_encode]

lemma decode?_eq_none (h : Flawed j) : decode? j = none := by
  refine Option.eq_none_iff_forall_ne_some.mpr fun a ha => ?_
  obtain ⟨hform, hvariable, hvalue⟩ := decode?_eq_some_iff_members.mp ha
  cases h with
  | form h => exact h hform
  | variableId h => exact Json.ne_some_of_lacks h (Json.not_noId _) hvariable
  | value h => simp [h] at hvalue

end Assignment

/-! ### Selections -/

namespace Selection

mutual

/-- A record in which the lists can be missing, if they are empty. Each selection nested in it is
represented in its own form. -/
def Represented : Selection → Json → Prop
  | ⟨id, field, arguments, children⟩, j => ∃ args nested,
    j.Records [("id", some (.int id.index.toNat)), ("fieldName", some (.string field)),
      ("args", args), ("children", nested)] ∧
    Json.StandsFor arguments (List.Forall₂ Argument.Represented arguments) args ∧
    Json.StandsFor children (RepresentedAll children) nested

def RepresentedAll : List Selection → List Json → Prop
  | [], items => items = []
  | s :: rest, items => ∃ j later, items = j :: later ∧ s.Represented j ∧ RepresentedAll rest later

end

inductive Flawed : Json → Prop
  | form {j : Json} (h : ¬ j.isRecord 4) : Flawed j
  | id {j : Json} (h : j.Lacks 0 "id" Json.NoId) : Flawed j
  | field {j : Json} (h : j.Lacks 1 "fieldName" Json.NoText) : Flawed j
  | arguments {j : Json} (h : j.Spoils 2 "args" Argument.Flawed) : Flawed j
  | children {j k : Json} (h : j.member? 3 "children" = some k) (hlist : ∀ items, k ≠ .array items) :
      Flawed j
  | child {j k : Json} {items : List Json} (h : j.member? 3 "children" = some (.array items))
      (hmem : k ∈ items) (hchild : Flawed k) : Flawed j

variable {j : Json}

lemma decodeAll?_eq_mapM (items : List Json) : decodeAll? items = items.mapM decode? := by
  induction items with
  | nil => simp [decodeAll?]
  | cons j rest ih => simp [decodeAll?, ih]

lemma decode?_eq_some_iff_members (s : Selection) : decode? j = some s ↔ j.isRecord 4 ∧
    j.member? 0 "id" = some (.int s.id.index.toNat) ∧
    j.member? 1 "fieldName" = some (.string s.field) ∧
    Json.StandsFor s.arguments (List.Forall₂ (fun a k => Argument.decode? k = some a) s.arguments)
      (j.member? 2 "args") ∧
    Json.StandsFor s.children (fun items => decodeAll? items = some s.children)
      (j.member? 3 "children") := by
  obtain ⟨id, field, arguments, children⟩ := s
  rw [decode?, ← Json.listOr_eq_some_iff]
  by_cases hrec : j.isRecord 4
  · simp only [hrec, if_true, true_and, Option.bind_eq_bind, Option.bind_eq_some_iff,
      Json.string?_eq_some_iff, NodeId.decode?_eq_some_iff]
    cases j.member? 3 "children" with
    | none => simp [Json.StandsFor, eq_comm (b := children)]
    | some k => cases k <;> simp [Json.StandsFor, Option.bind_eq_some_iff]
  · simp [hrec]

mutual

theorem decode?_eq_some_iff (s : Selection) (j : Json) (h : j.Distinct) :
    decode? j = some s ↔ s.Represented j := by
  obtain ⟨id, field, arguments, children⟩ := s
  have hchildren : Json.StandsFor children (fun items => decodeAll? items = some children)
      (j.member? 3 "children") ↔
        Json.StandsFor children (RepresentedAll children) (j.member? 3 "children") :=
    Json.standsFor_congr fun items hitems => decodeAll?_eq_some_iff children items
      (by simpa [Json.Distinct] using h.member? hitems)
  rw [decode?_eq_some_iff_members, hchildren,
    Json.standsFor_reads_iff Argument.decode?_eq_some_iff h]
  simp [Represented, Json.records_iff h, Json.Answers, and_assoc]

theorem decodeAll?_eq_some_iff (ss : List Selection) (items : List Json)
    (h : Json.DistinctAll items) : decodeAll? items = some ss ↔ RepresentedAll ss items := by
  cases ss with
  | nil => cases items <;> simp [decodeAll?, RepresentedAll, Option.bind_eq_some_iff]
  | cons s rest =>
    cases items with
    | nil => simp [decodeAll?, RepresentedAll]
    | cons j later =>
      simp [decodeAll?, RepresentedAll, Option.bind_eq_some_iff, decode?_eq_some_iff s j h.1,
        decodeAll?_eq_some_iff rest later h.2]

end

mutual

lemma decode?_encode (s : Selection) : decode? s.encode = some s := by
  obtain ⟨id, field, arguments, children⟩ := s
  refine (decode?_eq_some_iff_members _).mpr ?_
  simp [encode, NodeId.encode, Json.StandsFor, Argument.decode?_encode,
    decodeAll?_encodeAll children]

lemma decodeAll?_encodeAll (ss : List Selection) : decodeAll? (encodeAll ss) = some ss := by
  cases ss with
  | nil => simp [encodeAll, decodeAll?]
  | cons s rest => simp [encodeAll, decodeAll?, decode?_encode s, decodeAll?_encodeAll rest]

end

lemma decode?_eq_none (h : Flawed j) : decode? j = none := by
  refine Option.eq_none_iff_forall_ne_some.mpr fun s hs => ?_
  induction h generalizing s with
  | form h => exact h ((decode?_eq_some_iff_members s).mp hs).1
  | id h =>
    obtain ⟨-, hid, -⟩ := (decode?_eq_some_iff_members s).mp hs
    exact Json.ne_some_of_lacks h (Json.not_noId _) hid
  | field h =>
    obtain ⟨-, -, hfield, -⟩ := (decode?_eq_some_iff_members s).mp hs
    exact Json.ne_some_of_lacks h (Json.not_noText _) hfield
  | arguments h =>
    obtain ⟨-, -, -, harguments, -⟩ := (decode?_eq_some_iff_members s).mp hs
    exact Json.not_standsFor_of_spoils h (fun _ => Argument.decode?_eq_none) harguments
  | children h hlist =>
    obtain ⟨-, -, -, -, hchildren⟩ := (decode?_eq_some_iff_members s).mp hs
    rw [h] at hchildren
    obtain ⟨items, hitems, -⟩ := hchildren
    exact hlist items hitems
  | @child j k items h hmem hchild ih =>
    obtain ⟨-, -, -, -, hchildren⟩ := (decode?_eq_some_iff_members s).mp hs
    simp only [decodeAll?_eq_mapM, Json.mapM_eq_some_iff] at hchildren
    refine Json.not_standsFor_of_spoils (P := (· = k)) ⟨_, h, ?_⟩ ?_ hchildren
    · rintro _ ⟨⟩
      exact ⟨k, hmem, rfl⟩
    · rintro _ rfl
      exact Option.eq_none_iff_forall_ne_some.mpr ih

end Selection

/-! ### Changes and batches -/

namespace Change

variable {j : Json} {c : Change}

/-- The tag comes first. A removal can have a member `node` like any other that is not its own. -/
def Represented : Change → Json → Prop
  | add target selection, j => ∃ node, j.Records [("operation", some (.string "ADD_CHILD")),
      ("nodeId", some (.int target.index.toNat)), ("node", some node)] ∧ selection.Represented node
  | delete target, j => j.Records [("operation", some (.string "DELETE")),
      ("nodeId", some (.int target.index.toNat))]

inductive Flawed (j : Json) : Prop
  | operation (h : j.Lacks 0 "operation" fun k => k ≠ .string "ADD_CHILD" ∧ k ≠ .string "DELETE")
  | addForm (h : j.member? 0 "operation" = some (.string "ADD_CHILD")) (hform : ¬ j.isRecord 3)
  | deleteForm (h : j.member? 0 "operation" = some (.string "DELETE")) (hform : ¬ j.isRecord 2)
  | target (h : j.Lacks 1 "nodeId" Json.NoId)
  | selection (h : j.member? 0 "operation" = some (.string "ADD_CHILD"))
      (hselection : j.Lacks 2 "node" Selection.Flawed)

lemma decode?_eq_some_add_iff {target : NodeId} {selection : Selection} :
    decode? j = some (add target selection) ↔ j.isRecord 3 ∧
      j.member? 0 "operation" = some (.string "ADD_CHILD") ∧
      j.member? 1 "nodeId" = some (.int target.index.toNat) ∧
      ∃ node, j.member? 2 "node" = some node ∧ Selection.decode? node = some selection := by
  simp only [decode?, Option.bind_eq_bind, Option.bind_eq_some_iff, Json.string?_eq_some_iff]
  constructor
  · rintro ⟨_, htag, tag, rfl, hrest⟩
    split at hrest
    case isTrue hadd =>
      obtain ⟨rfl, hform⟩ := hadd
      simp only [Option.bind_eq_some_iff, NodeId.decode?_eq_some_iff, Option.pure_def,
        Option.some.injEq] at hrest
      obtain ⟨_, hid, _, rfl, node, hnode, _, hselection, heq⟩ := hrest
      cases heq
      exact ⟨hform, htag, hid, node, hnode, hselection⟩
    case isFalse =>
      split at hrest <;> simp [Option.bind_eq_some_iff] at hrest
  · rintro ⟨hform, htag, hid, node, hnode, hselection⟩
    have hread : NodeId.decode? (.int target.index.toNat) = some target := target.decode?_encode
    exact ⟨_, htag, _, rfl, by simp [hform, hid, hread, hnode, hselection]⟩

lemma decode?_eq_some_delete_iff {target : NodeId} :
    decode? j = some (delete target) ↔ j.isRecord 2 ∧
      j.member? 0 "operation" = some (.string "DELETE") ∧
      j.member? 1 "nodeId" = some (.int target.index.toNat) := by
  simp only [decode?, Option.bind_eq_bind, Option.bind_eq_some_iff, Json.string?_eq_some_iff]
  constructor
  · rintro ⟨_, htag, tag, rfl, hrest⟩
    split at hrest
    case isTrue => simp [Option.bind_eq_some_iff] at hrest
    case isFalse =>
      split at hrest
      case isTrue hdelete =>
        obtain ⟨rfl, hform⟩ := hdelete
        simp only [Option.bind_eq_some_iff, NodeId.decode?_eq_some_iff, Option.pure_def,
          Option.some.injEq] at hrest
        obtain ⟨_, hid, _, rfl, heq⟩ := hrest
        cases heq
        exact ⟨hform, htag, hid⟩
      case isFalse => cases hrest
  · rintro ⟨hform, htag, hid⟩
    have hread : NodeId.decode? (.int target.index.toNat) = some target := target.decode?_encode
    exact ⟨_, htag, _, rfl, by simp [hform, hid, hread]⟩

theorem decode?_eq_some_iff (c : Change) (j : Json) (h : j.Distinct) :
    decode? j = some c ↔ c.Represented j := by
  cases c with
  | add target selection =>
    have hselection : ∀ node, j.member? 2 "node" = some node →
        (Selection.decode? node = some selection ↔ selection.Represented node) := fun node hnode =>
      Selection.decode?_eq_some_iff selection node (h.member? hnode)
    rw [decode?_eq_some_add_iff, Represented]
    simp only [Json.records_iff h, Json.Answers, List.length_cons, List.length_nil]
    constructor
    · rintro ⟨hform, htag, hid, node, hnode, hread⟩
      exact ⟨node, ⟨hform, htag, hid, hnode, trivial⟩, (hselection node hnode).mp hread⟩
    · rintro ⟨node, ⟨hform, htag, hid, hnode, -⟩, hread⟩
      exact ⟨hform, htag, hid, node, hnode, (hselection node hnode).mpr hread⟩
  | delete target =>
    rw [decode?_eq_some_delete_iff, Represented, Json.records_iff h]
    simp [Json.Answers]

lemma decode?_encode (c : Change) : decode? c.encode = some c := by
  cases c with
  | add target selection =>
    simp [encode, decode?, Json.string?, NodeId.decode?_encode, Selection.decode?_encode]
  | delete target => simp [encode, decode?, Json.string?, NodeId.decode?_encode]

lemma decode?_eq_none (h : Flawed j) : decode? j = none := by
  refine Option.eq_none_iff_forall_ne_some.mpr fun c hc => ?_
  cases c with
  | add target selection =>
    obtain ⟨hform, htag, hid, node, hnode, hselection⟩ := decode?_eq_some_add_iff.mp hc
    cases h with
    | operation h => exact (h _ htag).1 rfl
    | addForm _ h => exact h hform
    | deleteForm h _ => simp [htag] at h
    | target h => exact Json.ne_some_of_lacks h (Json.not_noId _) hid
    | selection _ h => rw [Selection.decode?_eq_none (h _ hnode)] at hselection; cases hselection
  | delete target =>
    obtain ⟨hform, htag, hid⟩ := decode?_eq_some_delete_iff.mp hc
    cases h with
    | operation h => exact (h _ htag).2 rfl
    | addForm h _ => simp [htag] at h
    | deleteForm _ h => exact h hform
    | target h => exact Json.ne_some_of_lacks h (Json.not_noId _) hid
    | selection h _ => simp [htag] at h

end Change

namespace Batch

variable {j : Json} {b : Batch}

/-- A record of the two lists, of which each can be missing if it is empty. -/
def Represented (b : Batch) (j : Json) : Prop :=
  ∃ assigned made, j.Records [("variables", assigned), ("nodeOperations", made)] ∧
    Json.StandsFor b.assignments (List.Forall₂ Assignment.Represented b.assignments) assigned ∧
    Json.StandsFor b.changes (List.Forall₂ Change.Represented b.changes) made

/-- Something in the batch cannot be read, at any depth. -/
inductive Flawed (j : Json) : Prop
  | form (h : ¬ j.isRecord 2)
  | assignments (h : j.Spoils 0 "variables" Assignment.Flawed)
  | changes (h : j.Spoils 1 "nodeOperations" Change.Flawed)

lemma decode?_eq_some_iff_members : decode? j = some b ↔ j.isRecord 2 ∧
    Json.StandsFor b.assignments
      (List.Forall₂ (fun a k => Assignment.decode? k = some a) b.assignments)
      (j.member? 0 "variables") ∧
    Json.StandsFor b.changes (List.Forall₂ (fun c k => Change.decode? k = some c) b.changes)
      (j.member? 1 "nodeOperations") := by
  obtain ⟨assignments, changes⟩ := b
  simp [decode?, Option.bind_eq_some_iff, ← Json.listOr_eq_some_iff]

theorem decode?_eq_some_iff (b : Batch) (j : Json) (h : j.Distinct) :
    decode? j = some b ↔ b.Represented j := by
  rw [decode?_eq_some_iff_members, Json.standsFor_reads_iff Assignment.decode?_eq_some_iff h,
    Json.standsFor_reads_iff Change.decode?_eq_some_iff h]
  simp [Represented, Json.records_iff h, Json.Answers, and_assoc]

lemma decode?_encode (b : Batch) : decode? b.encode = some b := by
  simp [encode, decode?, Json.listOr_encode Assignment.decode?_encode,
    Json.listOr_encode Change.decode?_encode]

lemma decode?_eq_none (h : Flawed j) : decode? j = none := by
  refine Option.eq_none_iff_forall_ne_some.mpr fun b hb => ?_
  obtain ⟨hform, hassignments, hchanges⟩ := decode?_eq_some_iff_members.mp hb
  cases h with
  | form h => exact h hform
  | assignments h =>
    exact Json.not_standsFor_of_spoils h (fun _ => Assignment.decode?_eq_none) hassignments
  | changes h => exact Json.not_standsFor_of_spoils h (fun _ => Change.decode?_eq_none) hchanges

/-- A value without duplicate members is read as a batch exactly if it represents the batch. What is
written is read as what it was written from, and so is what is written from anything that was read.
A flawed value is refused. -/
theorem batches_read_exactly (b : Batch) (j : Json) :
    (j.Distinct → (decode? j = some b ↔ b.Represented j)) ∧ decode? b.encode = some b ∧
    (∀ c, decode? j = some c → decode? c.encode = decode? j) ∧ (Flawed j → decode? j = none) := by
  refine ⟨decode?_eq_some_iff b j, decode?_encode b, fun c hc => ?_, decode?_eq_none⟩
  rw [hc, decode?_encode]

namespace Sample

def mixed : Batch where
  assignments := [⟨⟨7⟩, .null⟩]
  changes := [.add ⟨0⟩ { id := ⟨1⟩, field := "friend", arguments := [⟨"since", ⟨7⟩⟩] }, .delete ⟨1⟩]

/-- Arrays and objects within each other, with members that are none of the batch's. -/
def mixedForms : Json :=
  .object [("note", .null), ("nodeOperations", .array [
      .array [.string "ADD_CHILD", .int 0, .array [.int 1, .string "friend",
        .array [.object [("variableId", .int 7), ("index", .int 0), ("name", .string "since")]]]],
      .object [("node", .int 5), ("nodeId", .int 1), ("operation", .string "DELETE")]]),
    ("variables", .array [.array [.int 7, .null]])]

/-- The id of the nested child is negative. -/
def negativeId : Json :=
  .array [.array [], .array [.array [.string "ADD_CHILD", .int 0, .object [("id", .int 1),
    ("fieldName", .string "friend"), ("children", .array [.array [.int (-1), .string "name"]])]]]]

end Sample

theorem batches_read_exactly_mixed :
    Sample.mixedForms.Distinct ∧ Sample.mixed.Represented Sample.mixedForms ∧
    decode? Sample.mixed.encode = some Sample.mixed ∧ Flawed Sample.negativeId ∧
    decode? Sample.negativeId = none := by
  have hdistinct : Sample.mixedForms.Distinct := by
    simp [Sample.mixedForms, Json.Distinct, Json.DistinctAll, Json.DistinctMembers]
  have hread : decode? Sample.mixedForms = some Sample.mixed := by with_unfolding_all rfl
  have hflawed : Flawed Sample.negativeId := by
    refine .changes ⟨_, rfl, ?_⟩
    rintro _ ⟨⟩
    refine ⟨_, List.mem_cons_self, .selection rfl ?_⟩
    rintro _ ⟨⟩
    refine .child rfl List.mem_cons_self (.id ?_)
    rintro _ ⟨⟩
    rintro n ⟨⟩
  obtain ⟨hexact, hback, -⟩ := batches_read_exactly Sample.mixed Sample.mixedForms
  obtain ⟨-, -, -, hrefused⟩ := batches_read_exactly Sample.mixed Sample.negativeId
  exact ⟨hdistinct, (hexact hdistinct).mp hread, hback, hflawed, hrefused hflawed⟩

end Batch

end LiveQuery
