import LiveQuery.Proofs.Outlines

/-!
# Reading lines back

As long as the marks that an outline is written with do not occur in names, a line tells where it ends, and
what of a node is written in it: the id, the depth, the field, the type, and the arguments with their
variables. So a list of lines written one after the other can be read back line by line.
-/

namespace LiveQuery

/-- The marks that an outline is written with, apart from those that begin an id. -/
def marks : List Char := [' ', '\n', ':', '=', ',', '(', ')']

/-- None of the marks is in the name. -/
def Legible (name : String) : Prop := ∀ c ∈ name.toList, c ∉ marks

instance (name : String) : Decidable (Legible name) := List.decidableBAll (· ∉ marks) name.toList

lemma Legible.not_mem {name : String} (h : Legible name) {c : Char} (hc : c ∈ marks) :
    c ∉ name.toList := fun hmem => h c hmem hc

lemma append_cons_inj {α : Type} {x x' z z' : List α} {c c' : α} (hx : c' ∉ x) (hx' : c ∉ x')
    (h : x ++ c :: z = x' ++ c' :: z') : x = x' ∧ c = c' ∧ z = z' := by
  induction x generalizing x' with
  | nil =>
    cases x' with
    | nil => simpa using h
    | cons a x' =>
      obtain ⟨rfl, -⟩ := List.cons.inj h
      simp at hx'
  | cons a x ih =>
    cases x' with
    | nil =>
      obtain ⟨rfl, -⟩ := List.cons.inj h
      simp at hx
    | cons a' x' =>
      obtain ⟨rfl, htail⟩ := List.cons.inj h
      obtain ⟨rfl, hc, hz⟩ := ih (List.not_mem_of_not_mem_cons hx) (List.not_mem_of_not_mem_cons hx')
        htail
      exact ⟨rfl, hc, hz⟩

/-- A number ends where the digits end. -/
lemma toDigits_append_inj {i j : UInt32} {c c' : Char} {z z' : List Char} (hc : ¬ c.isDigit)
    (hc' : ¬ c'.isDigit)
    (h : Nat.toDigits 10 i.toNat ++ c :: z = Nat.toDigits 10 j.toNat ++ c' :: z') :
    i = j ∧ c = c' ∧ z = z' := by
  have hdigit : ∀ {n : Nat} {c : Char}, c ∈ Nat.toDigits 10 n → c.isDigit := fun hmem =>
    Nat.isDigit_of_mem_toDigits (by decide) (by decide) hmem
  obtain ⟨hij, hrest⟩ := append_cons_inj (fun hmem => hc' (hdigit hmem))
    (fun hmem => hc (hdigit hmem)) h
  have hvalue := congrArg (Nat.ofDigitChars 10 · 0) hij
  simp only [Nat.ofDigitChars_ten_toDigits] at hvalue
  exact ⟨UInt32.toNat_inj.mp hvalue, hrest⟩

lemma indent_append_inj {level level' : Nat} {z z' : List Char}
    (h : List.replicate (2 * level) ' ' ++ '#' :: z = List.replicate (2 * level') ' ' ++ '#' :: z') :
    level = level' ∧ z = z' := by
  obtain ⟨hindent, -, hz⟩ := append_cons_inj (by simp) (by simp) h
  have hlength := congrArg List.length hindent
  simp only [List.length_replicate] at hlength
  exact ⟨by omega, hz⟩

/-! ### Arguments -/

/-- An argument as it is written, character by character. -/
def argumentChars (a : String × VariableId) : List Char :=
  a.1.toList ++ '=' :: '$' :: Nat.toDigits 10 a.2.index.toNat

lemma argumentChars_append_inj {a a' : String × VariableId} (ha : Legible a.1) (ha' : Legible a'.1)
    {c c' : Char} {z z' : List Char} (hc : ¬ c.isDigit) (hc' : ¬ c'.isDigit)
    (h : argumentChars a ++ c :: z = argumentChars a' ++ c' :: z') : a = a' ∧ c = c' ∧ z = z' := by
  simp only [argumentChars, List.append_assoc, List.cons_append] at h
  obtain ⟨hname, -, h⟩ := append_cons_inj (ha.not_mem (by decide)) (ha'.not_mem (by decide)) h
  obtain ⟨hindex, hrest⟩ := toDigits_append_inj hc hc' (List.cons.inj h).2
  exact ⟨Prod.ext (String.toList_inj.mp hname) (VariableId.ext hindex), hrest⟩

theorem arguments_append_inj : ∀ {l l' : List (String × VariableId)} {z z' : List Char},
    l ≠ [] → l' ≠ [] → (∀ a ∈ l, Legible a.1) → (∀ a ∈ l', Legible a.1) →
    [',', ' '].intercalate (l.map argumentChars) ++ ')' :: z =
      [',', ' '].intercalate (l'.map argumentChars) ++ ')' :: z' → l = l' ∧ z = z'
  | [a], [a'], z, z', _, _, hl, hl', h => by
    simp only [List.map_cons, List.map_nil, List.intercalate_singleton] at h
    obtain ⟨rfl, -, rfl⟩ := argumentChars_append_inj (hl a List.mem_cons_self)
      (hl' a' List.mem_cons_self) (by decide) (by decide) h
    exact ⟨rfl, rfl⟩
  | [a], a' :: b' :: rest', z, z', _, _, hl, hl', h => by
    simp only [List.map_cons, List.map_nil, List.intercalate_singleton, List.intercalate_cons_cons,
      List.append_assoc, List.cons_append] at h
    obtain ⟨-, hmark, -⟩ := argumentChars_append_inj (hl a List.mem_cons_self)
      (hl' a' List.mem_cons_self) (by decide) (by decide) h
    exact absurd hmark (by decide)
  | a :: b :: rest, [a'], z, z', _, _, hl, hl', h => by
    simp only [List.map_cons, List.map_nil, List.intercalate_singleton, List.intercalate_cons_cons,
      List.append_assoc, List.cons_append] at h
    obtain ⟨-, hmark, -⟩ := argumentChars_append_inj (hl a List.mem_cons_self)
      (hl' a' List.mem_cons_self) (by decide) (by decide) h
    exact absurd hmark (by decide)
  | a :: b :: rest, a' :: b' :: rest', z, z', _, _, hl, hl', h => by
    simp only [List.map_cons, List.intercalate_cons_cons, List.append_assoc, List.cons_append] at h
    obtain ⟨ha, hrest⟩ := List.forall_mem_cons.mp hl
    obtain ⟨ha', hrest'⟩ := List.forall_mem_cons.mp hl'
    obtain ⟨rfl, -, h⟩ := argumentChars_append_inj ha ha' (by decide) (by decide) h
    simp only [List.nil_append, List.cons.injEq, true_and] at h
    obtain ⟨hbound, rfl⟩ := arguments_append_inj (List.cons_ne_nil b rest)
      (List.cons_ne_nil b' rest') hrest hrest' h
    exact ⟨congrArg _ hbound, rfl⟩

/-- What is written after the type of a node. -/
def lineEnd (bound : List (String × VariableId)) : List Char :=
  if bound = [] then ['\n']
  else ' ' :: '(' :: ([',', ' '].intercalate (bound.map argumentChars) ++ [')', '\n'])

lemma exists_lineEnd (bound : List (String × VariableId)) :
    ∃ c w, lineEnd bound = c :: w ∧ c ∈ marks := by
  unfold lineEnd
  split
  · exact ⟨_, _, rfl, by decide⟩
  · exact ⟨_, _, rfl, by decide⟩

lemma lineEnd_append_inj {l l' : List (String × VariableId)} (hl : ∀ a ∈ l, Legible a.1)
    (hl' : ∀ a ∈ l', Legible a.1) {z z' : List Char} (h : lineEnd l ++ z = lineEnd l' ++ z') :
    l = l' ∧ z = z' := by
  unfold lineEnd at h
  split_ifs at h with hnil hnil' hnil'
  · exact ⟨hnil.trans hnil'.symm, (List.cons.inj h).2⟩
  · simp at h
  · simp at h
  · simp only [List.cons_append, List.append_assoc, List.nil_append, List.cons.injEq,
      true_and] at h
    obtain ⟨hbound, hz⟩ := arguments_append_inj hnil hnil' hl hl' h
    exact ⟨hbound, (List.cons.inj hz).2⟩

/-- The mark after the type of a node shows whether arguments follow. -/
lemma type_append_inj {type type' : String} {l l' : List (String × VariableId)}
    (htype : Legible type) (htype' : Legible type') (hl : ∀ a ∈ l, Legible a.1)
    (hl' : ∀ a ∈ l', Legible a.1) {z z' : List Char}
    (h : type.toList ++ (lineEnd l ++ z) = type'.toList ++ (lineEnd l' ++ z')) :
    type = type' ∧ l = l' ∧ z = z' := by
  obtain ⟨c, w, hw, hc⟩ := exists_lineEnd l
  obtain ⟨c', w', hw', hc'⟩ := exists_lineEnd l'
  rw [hw, hw', List.cons_append, List.cons_append] at h
  obtain ⟨hname, rfl, hrest⟩ := append_cons_inj (htype.not_mem hc') (htype'.not_mem hc) h
  refine ⟨String.toList_inj.mp hname, lineEnd_append_inj hl hl' ?_⟩
  rw [hw, hw', List.cons_append, List.cons_append, hrest]

/-! ### Lines -/

/-- What the outline tells about a node, besides its children. -/
structure Told where
  id : NodeId
  depth : Nat
  field : String
  type : String
  bound : List (String × VariableId)

namespace Node

def told (n : Node) : Told := ⟨n.id, n.depth, n.field, n.type.name, n.bound⟩

/-- The names in a node can be told from the marks around them. -/
structure Legible (n : Node) : Prop where
  field : LiveQuery.Legible n.field
  type : LiveQuery.Legible n.type.name
  argument : ∀ name r, n.arguments[name]? = some r → LiveQuery.Legible name

/-- The line of the node can be read: the root alone is written without a field, and has none. -/
structure Readable (n : Node) : Prop where
  legible : n.Legible
  field_eq : n.id = .root → n.field = ""
  line_eq : n.line = n.lineWith n.depth n.bound

section

variable {n n' : Node}

lemma Legible.bound (h : n.Legible) : ∀ a ∈ n.bound, LiveQuery.Legible a.1 := by
  rintro ⟨name, v⟩ ha
  obtain ⟨r, hr, -⟩ := mem_bound_iff.mp ha
  exact h.argument name r hr

lemma toList_lineWith (n : Node) (level : Nat) (bound : List (String × VariableId)) :
    (n.lineWith level bound).toList = List.replicate (2 * level) ' ' ++
      '#' :: (Nat.toDigits 10 n.id.index.toNat ++ ' ' ::
        ((if n.id = .root then [] else n.field.toList ++ [':', ' ']) ++
          (n.type.name.toList ++ lineEnd bound))) := by
  have hargument : argumentChars = fun a : String × VariableId =>
      a.1.toList ++ '=' :: '$' :: Nat.toDigits 10 a.2.index.toNat := rfl
  unfold lineWith lineEnd
  split_ifs <;>
    simp only [String.toList_append, String.toList_ofList, String.toList_intercalate,
      String.reduceToList, List.map_map, Function.comp_def, hargument, Nat.toList_repr,
      List.append_assoc, List.cons_append, List.nil_append]

lemma line_ne_nil (hn : n.Readable) : n.line.toList ≠ [] := by
  simp [hn.line_eq, toList_lineWith]

theorem line_append_inj (hn : n.Readable) (hn' : n'.Readable) {z z' : List Char}
    (h : n.line.toList ++ z = n'.line.toList ++ z') : n.told = n'.told ∧ z = z' := by
  rw [hn.line_eq, hn'.line_eq] at h
  simp only [toList_lineWith, List.append_assoc, List.cons_append] at h
  obtain ⟨hdepth, h⟩ := indent_append_inj h
  obtain ⟨hindex, -, h⟩ := toDigits_append_inj (by decide) (by decide) h
  have hid : n.id = n'.id := NodeId.ext hindex
  obtain ⟨hfield, h⟩ : n.field = n'.field ∧ n.type.name.toList ++ (lineEnd n.bound ++ z) =
      n'.type.name.toList ++ (lineEnd n'.bound ++ z') := by
    rw [← hid] at h
    split_ifs at h with hroot
    · exact ⟨(hn.field_eq hroot).trans (hn'.field_eq (hid ▸ hroot)).symm, h⟩
    · simp only [List.append_assoc, List.cons_append, List.nil_append] at h
      obtain ⟨hname, -, h⟩ := append_cons_inj (hn.legible.field.not_mem (by decide))
        (hn'.legible.field.not_mem (by decide)) h
      exact ⟨String.toList_inj.mp hname, (List.cons.inj h).2⟩
  obtain ⟨htype, hbound, hz⟩ := type_append_inj hn.legible.type hn'.legible.type hn.legible.bound
    hn'.legible.bound h
  exact ⟨by rw [told, told, hid, hdepth, hfield, htype, hbound], hz⟩

/-- Lines that are written one after the other can be read back. -/
theorem told_of_lines : ∀ {ns ns' : List Node}, (∀ n ∈ ns, n.Readable) → (∀ n ∈ ns', n.Readable) →
    (ns.flatMap fun n => n.line.toList) = (ns'.flatMap fun n => n.line.toList) →
    ns.map told = ns'.map told
  | [], [], _, _, _ => rfl
  | [], n' :: _, _, hns', h => by
    have hline := line_ne_nil (hns' n' List.mem_cons_self)
    simp [hline] at h
  | n :: _, [], hns, _, h => by
    have hline := line_ne_nil (hns n List.mem_cons_self)
    simp [hline] at h
  | n :: ns, n' :: ns', hns, hns', h => by
    obtain ⟨hn, hns⟩ := List.forall_mem_cons.mp hns
    obtain ⟨hn', hns'⟩ := List.forall_mem_cons.mp hns'
    obtain ⟨htold, h⟩ := line_append_inj hn hn' h
    rw [List.map_cons, List.map_cons, htold, told_of_lines hns hns' h]

end

end Node

end LiveQuery
