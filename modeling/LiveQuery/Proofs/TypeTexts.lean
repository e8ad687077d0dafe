import LiveQuery.Proofs.Lines
import LiveQuery.Tree.Rejection

/-!
# Type expressions read back

The last character of a type expression tells its outermost wrapper, as long as the innermost name has none of the
marks that wrappers are written with. So there is one expression only for each text, and a rejection whose
message ends in a type expression can be told from its message.
-/

namespace LiveQuery

namespace TypeExpr

/-- The marks that wrappers are written with. -/
def wrapperMarks : List Char := ['[', ']', '!']

/-- None of the marks is in the innermost name. -/
def Unmarked (t : TypeExpr) : Prop := ∀ c ∈ t.base.toList, c ∉ wrapperMarks

instance (t : TypeExpr) : Decidable t.Unmarked :=
  List.decidableBAll (· ∉ wrapperMarks) t.base.toList

section

variable {t u : TypeExpr} {name : String}

lemma toList_display_list (item : TypeExpr) :
    (list item).display.toList = '[' :: item.display.toList ++ [']'] := by
  simp [display]

lemma toList_display_nonNull (inner : TypeExpr) :
    (nonNull inner).display.toList = inner.display.toList ++ ['!'] := by
  simp [display]

lemma Unmarked.ne_wrapped (h : (named name).Unmarked) {c : Char} (hc : c ∈ wrapperMarks)
    {l : List Char} : (named name).display.toList ≠ l ++ [c] := by
  intro heq
  exact h c (heq ▸ List.mem_append_right l List.mem_cons_self) hc

/-- The wrappers are taken off both expressions at once, the last mark telling which. -/
theorem display_inj (ht : t.Unmarked) (hu : u.Unmarked)
    (h : t.display.toList = u.display.toList) : t = u := by
  induction t generalizing u with
  | named name =>
    cases u with
    | named name' => exact congrArg named (String.toList_inj.mp h)
    | list item => exact absurd (h.trans (toList_display_list item)) (ht.ne_wrapped (by decide))
    | nonNull inner =>
      exact absurd (h.trans (toList_display_nonNull inner)) (ht.ne_wrapped (by decide))
  | list item ih =>
    rw [toList_display_list] at h
    cases u with
    | named name => exact absurd h.symm (hu.ne_wrapped (by decide))
    | list item' =>
      rw [toList_display_list] at h
      obtain ⟨hitem, -⟩ := List.append_inj' h rfl
      exact congrArg list (ih ht hu (List.cons.inj hitem).2)
    | nonNull inner =>
      rw [toList_display_nonNull] at h
      obtain ⟨-, hmark⟩ := List.append_inj' h rfl
      exact absurd hmark (by decide)
  | nonNull inner ih =>
    rw [toList_display_nonNull] at h
    cases u with
    | named name => exact absurd h.symm (hu.ne_wrapped (by decide))
    | list item =>
      rw [toList_display_list] at h
      obtain ⟨-, hmark⟩ := List.append_inj' h rfl
      exact absurd hmark (by decide)
    | nonNull inner' =>
      rw [toList_display_nonNull] at h
      obtain ⟨hinner, -⟩ := List.append_inj' h rfl
      exact congrArg nonNull (ih ht hu hinner)

end

end TypeExpr

/-- Where a type is refused the message names the node, up to a colon, and ends in the type. -/
lemma Rejection.toList_unresolvedType (node : NodeId) (type : TypeExpr) :
    (unresolvedType node type).message.toList = "Invalid node #".toList ++
      (Nat.toDigits 10 node.index.toNat ++ ':' :: (" unable to resolve type ".toList ++
        (type.display.toList ++ ['.']))) := by
  change ("Invalid node " ++ ("#" ++ node.index.toNat.repr) ++ ": unable to resolve type " ++
    type.display ++ ".").toList = _
  simp

/-- There is one type expression only for each text, and the message by which a type is refused tells the type. -/
theorem type_texts_unambiguous (t u : TypeExpr) (ht : t.Unmarked) (hu : u.Unmarked) :
    (t.display = u.display → t = u) ∧ ∀ node node' : NodeId,
      (Rejection.unresolvedType node t).message = (Rejection.unresolvedType node' u).message →
        node = node' ∧ t = u := by
  refine ⟨fun h => TypeExpr.display_inj ht hu (congrArg String.toList h), fun node node' h => ?_⟩
  have hchars := congrArg String.toList h
  rw [Rejection.toList_unresolvedType, Rejection.toList_unresolvedType,
    List.append_cancel_left_eq] at hchars
  obtain ⟨hindex, -, htext⟩ := toDigits_append_inj (by decide) (by decide) hchars
  rw [List.append_cancel_left_eq, List.append_cancel_right_eq] at htext
  exact ⟨NodeId.ext hindex, TypeExpr.display_inj ht hu htext⟩

/-- Two marks that stand apart in one text and together in the other, around no name at all. -/
theorem type_texts_unambiguous_nameless :
    (TypeExpr.nonNull (.list (.nonNull (.named "")))).Unmarked ∧
    (TypeExpr.list (.nonNull (.nonNull (.named "")))).Unmarked ∧
    (TypeExpr.nonNull (.list (.nonNull (.named "")))).display = "[!]!" ∧
    (TypeExpr.list (.nonNull (.nonNull (.named "")))).display = "[!!]" ∧
    (Rejection.unresolvedType ⟨1⟩ (.nonNull (.list (.nonNull (.named ""))))).message ≠
      (Rejection.unresolvedType ⟨1⟩ (.list (.nonNull (.nonNull (.named ""))))).message := by
  have hfirst : (TypeExpr.nonNull (.list (.nonNull (.named "")))).Unmarked := by decide
  have hsecond : (TypeExpr.list (.nonNull (.nonNull (.named "")))).Unmarked := by decide
  refine ⟨hfirst, hsecond, by decide, by decide, fun h => ?_⟩
  obtain ⟨-, heq⟩ := (type_texts_unambiguous _ _ hfirst hsecond).2 _ _ h
  exact absurd heq (by decide)

/-- A mark in the name can be taken for a wrapper. -/
example : (TypeExpr.named "A!").display = (TypeExpr.nonNull (.named "A")).display := by decide

end LiveQuery
