import Mathlib.Data.List.Forall2
import LiveQuery.Json

/-!
# Records

A record is written as an object, with its members in any order and among any others, or as an array
of its members in their order, in which those at the end can be missing. A reader need not know which
form it is: it asks for each member by its name and its position.
-/

namespace LiveQuery

namespace Json

mutual

/-- No object has two members of one name, at any depth. -/
def Distinct : Json → Prop
  | .array items => DistinctAll items
  | .object members => (members.map Prod.fst).Nodup ∧ DistinctMembers members
  | _ => True

def DistinctAll : List Json → Prop
  | [] => True
  | j :: rest => j.Distinct ∧ DistinctAll rest

def DistinctMembers : List (String × Json) → Prop
  | [] => True
  | (_, j) :: rest => j.Distinct ∧ DistinctMembers rest

end

/-- The value is a record with these members, of which some can be missing. -/
inductive Records (members : List (String × Option Json)) : Json → Prop
  | object {written : List (String × Json)}
      (named : ∀ name value, (name, value) ∈ members → ∀ j, (name, j) ∈ written ↔ value = some j) :
      Records members (.object written)
  | array {items : List Json} (missing : Nat)
      (placed : members.map Prod.snd = items.map some ++ List.replicate missing none) :
      Records members (.array items)

/-- A member stands for a list if its items do, and a missing member for the empty list. -/
def StandsFor {α : Type} (xs : List α) (P : List Json → Prop) : Option Json → Prop
  | none => xs = []
  | some j => ∃ items, j = .array items ∧ P items

/-- Whoever asks for these members one after the other, the first at position `start`, gets these
answers. -/
def Answers (j : Json) : (start : Nat) → List (String × Option Json) → Prop
  | _, [] => True
  | start, (name, value) :: rest => j.member? start name = value ∧ j.Answers (start + 1) rest

section

variable {j : Json} {items : List Json} {written : List (String × Json)} {name : String}
  {members : List (String × Option Json)} {i position : Nat} {value : Option Json}

lemma distinct_of_mem (h : DistinctAll items) (hj : j ∈ items) : j.Distinct := by
  induction items with
  | nil => cases hj
  | cons k rest ih =>
    obtain rfl | hj := List.mem_cons.mp hj
    · exact h.1
    · exact ih h.2 hj

lemma distinct_of_mem_members (h : DistinctMembers written) (hj : (name, j) ∈ written) :
    j.Distinct := by
  induction written with
  | nil => cases hj
  | cons k rest ih =>
    obtain rfl | hj := List.mem_cons.mp hj
    · exact h.1
    · exact ih h.2 hj

lemma Distinct.member? {k : Json} (h : j.Distinct) (hk : j.member? position name = some k) :
    k.Distinct := by
  cases j with
  | array items => exact distinct_of_mem (by simpa [Distinct] using h) (List.mem_of_getElem? hk)
  | object written =>
    rw [Distinct] at h
    exact distinct_of_mem_members h.2 (mem_of_lookup hk)
  | _ => simp [Json.member?] at hk

lemma lookup_eq_some_iff (h : (written.map Prod.fst).Nodup) :
    written.lookup name = some j ↔ (name, j) ∈ written := by
  refine ⟨mem_of_lookup, fun hmem => ?_⟩
  induction written with
  | nil => cases hmem
  | cons m rest ih =>
    obtain ⟨key, k⟩ := m
    obtain ⟨hkey, hrest⟩ := List.nodup_cons.mp h
    obtain heq | hlater := List.mem_cons.mp hmem
    · cases heq
      simp
    · have hne : name ≠ key := by
        rintro rfl
        exact hkey (List.mem_map.mpr ⟨(name, j), hlater, rfl⟩)
      rw [List.lookup_cons, beq_eq_false_iff_ne.mpr hne]
      exact ih hrest hlater

lemma answers_object_iff : (object written).Answers i members ↔
    ∀ name value, (name, value) ∈ members → written.lookup name = value := by
  induction members generalizing i with
  | nil => simp [Answers]
  | cons m rest ih =>
    obtain ⟨name, value⟩ := m
    simp only [Answers, member?, ih, List.mem_cons, Prod.mk.injEq]
    constructor
    · rintro ⟨hfirst, hrest⟩ name' value' (⟨rfl, rfl⟩ | hmem)
      · exact hfirst
      · exact hrest name' value' hmem
    · intro h
      exact ⟨h name value (.inl ⟨rfl, rfl⟩), fun name' value' hmem => h name' value' (.inr hmem)⟩

/-- The items from `i` on are the answers, and what is missing is missing at the end. -/
lemma answers_array_iff :
    ((items.drop i).length ≤ members.length ∧ (array items).Answers i members) ↔
    ∃ missing, members.map Prod.snd =
      (items.drop i).map some ++ List.replicate missing none := by
  induction members generalizing i with
  | nil => simp [Answers, Nat.sub_eq_zero_iff_le]
  | cons m rest ih =>
    obtain ⟨name, value⟩ := m
    simp only [Answers, member?_array, List.map_cons, List.length_cons]
    cases hdrop : items.drop i with
    | nil =>
      have hget : items[i]? = none := by
        rw [← List.head?_drop, hdrop, List.head?_nil]
      have hnext : items.drop (i + 1) = [] := by
        rw [← List.drop_drop, hdrop, List.drop_nil]
      have hrest := ih (i := i + 1)
      simp only [hnext, List.length_nil, Nat.zero_le, true_and, List.map_nil,
        List.nil_append] at hrest
      simp only [hget, hrest, List.length_nil, Nat.zero_le, true_and, List.map_nil, List.nil_append]
      constructor
      · rintro ⟨rfl, missing, hmissing⟩
        exact ⟨missing + 1, by rw [hmissing, List.replicate_succ]⟩
      · rintro ⟨missing, hmissing⟩
        cases missing with
        | zero => simp at hmissing
        | succ missing =>
          rw [List.replicate_succ] at hmissing
          obtain ⟨rfl, hrest⟩ := List.cons.inj hmissing
          exact ⟨rfl, missing, hrest⟩
    | cons j later =>
      have hget : items[i]? = some j := by
        rw [← List.head?_drop, hdrop, List.head?_cons]
      have hnext : items.drop (i + 1) = later := by
        rw [← List.drop_drop, hdrop, List.drop_one, List.tail_cons]
      have hrest := ih (i := i + 1)
      rw [hnext] at hrest
      simp only [hget, List.length_cons, Nat.add_le_add_iff_right, List.map_cons, List.cons_append,
        List.cons.injEq, exists_and_left, ← hrest, eq_comm (a := value)]
      exact and_left_comm

/-- A record with certain members is what answers accordingly, and is not too long an array. -/
theorem records_iff (h : j.Distinct) :
    j.Records members ↔ j.isRecord members.length ∧ j.Answers 0 members := by
  cases j with
  | object written =>
    rw [Distinct] at h
    have hlookup : ∀ name (value : Option Json), written.lookup name = value ↔
        ∀ j, (name, j) ∈ written ↔ value = some j := by
      intro name value
      simp only [← lookup_eq_some_iff h.1]
      exact ⟨fun heq j => by rw [heq], fun hall => Option.ext hall⟩
    simp only [isRecord_object, true_and, answers_object_iff, hlookup]
    constructor
    · rintro ⟨hnamed⟩
      exact hnamed
    · exact .object
  | array items =>
    have hanswers : (items.drop 0).length ≤ members.length ∧ (array items).Answers 0 members ↔ _ :=
      answers_array_iff
    rw [List.drop_zero] at hanswers
    rw [isRecord_array, decide_eq_true_eq, hanswers]
    constructor
    · rintro (_ | ⟨missing, hplaced⟩)
      exact ⟨missing, hplaced⟩
    · rintro ⟨missing, hplaced⟩
      exact .array missing hplaced
  | _ =>
    simp only [isRecord, Bool.false_eq_true, false_and, iff_false]
    rintro ⟨⟩

/-! ### Lists in records -/

lemma mapM_eq_some_iff {α : Type} {f : Json → Option α} {xs : List α} :
    items.mapM f = some xs ↔ List.Forall₂ (fun x j => f j = some x) xs items := by
  induction items generalizing xs with
  | nil => simp [eq_comm]
  | cons j rest ih =>
    simp only [List.mapM_cons, Option.bind_eq_bind, Option.bind_eq_some_iff, ih, Option.pure_def,
      Option.some.injEq]
    constructor
    · rintro ⟨x, hx, later, hlater, rfl⟩
      exact .cons hx hlater
    · rintro (_ | ⟨hx, hlater⟩)
      exact ⟨_, hx, _, hlater, rfl⟩

lemma forall₂_congr {α : Type} {R S : α → Json → Prop} {xs : List α}
    (h : ∀ x, ∀ j ∈ items, R x j ↔ S x j) : List.Forall₂ R xs items ↔ List.Forall₂ S xs items := by
  induction items generalizing xs with
  | nil => simp
  | cons j rest ih =>
    have hrest : ∀ xs, List.Forall₂ R xs rest ↔ List.Forall₂ S xs rest := fun xs =>
      ih fun x k hk => h x k (List.mem_cons_of_mem _ hk)
    simp only [List.forall₂_cons_right_iff, hrest, h _ j List.mem_cons_self]

lemma string?_eq_some_iff {s : String} : j.string? = some s ↔ j = .string s := by
  cases j <;> simp [string?]

lemma forall₂_reads_iff {α : Type} {decode? : Json → Option α} {R : α → Json → Prop} {xs : List α}
    (h : ∀ x k, k.Distinct → (decode? k = some x ↔ R x k)) (hj : j.Distinct)
    (hitems : j.member? position name = some (.array items)) :
    List.Forall₂ (fun x k => decode? k = some x) xs items ↔ List.Forall₂ R xs items := by
  have hdistinct : DistinctAll items := by simpa [Distinct] using hj.member? hitems
  exact forall₂_congr fun x k hk => h x k (distinct_of_mem hdistinct hk)

lemma array?_eq_some_iff : j.array? = some items ↔ j = .array items := by
  cases j <;> simp [array?]

end

/-! ### Flawed records -/

def NoText (j : Json) : Prop :=
  ∀ s, j ≠ .string s

/-- No list, or one with a bad item. -/
def NoList (bad : Json → Prop) (j : Json) : Prop :=
  ∀ items, j = .array items → ∃ item ∈ items, bad item

/-- The record does not have the member, or has a bad one. -/
def Lacks (j : Json) (position : Nat) (name : String) (bad : Json → Prop) : Prop :=
  ∀ k, j.member? position name = some k → bad k

section

variable {α : Type} {decode? : Json → Option α} {j k : Json} {xs : List α} {items : List Json}
  {position : Nat} {name : String} {bad : Json → Prop}

lemma ne_some_of_lacks (h : j.Lacks position name bad) (hk : ¬ bad k) :
    j.member? position name ≠ some k := fun hmember => hk (h k hmember)

lemma string?_eq_none (h : j.NoText) : j.string? = none :=
  Option.eq_none_iff_forall_ne_some.mpr fun s hs => h s (string?_eq_some_iff.mp hs)

lemma not_noText (s : String) : ¬ (string s).NoText := fun h => h s rfl

lemma not_noList (h : List.Forall₂ (fun x k => decode? k = some x) xs items)
    (hbad : ∀ k, bad k → decode? k = none) : ¬ (array items).NoList bad := by
  intro hitems
  obtain ⟨item, hitem, hflaw⟩ := hitems items rfl
  obtain ⟨i, hi, rfl⟩ := List.getElem_of_mem hitem
  have hx := h.get (h.length_eq ▸ hi) hi
  rw [List.get_eq_getElem, List.get_eq_getElem, hbad _ hflaw] at hx
  cases hx

end

end Json

end LiveQuery
