import Mathlib.Tactic.Lemma
import LiveQuery.Hub.Event

/-!
# The life of a hub

The events on one hub follow the life of one node. While it lives they add and remove children. When
it goes, the hub says so, lets the children go that were left, one by one in order, and is silent from
then on.
-/

namespace LiveQuery

/-- How far the life of a hub has come: its node lives with some children, or it has gone and some of
its children are still to be let go. -/
inductive Life where
  | living (children : List Child)
  | leaving (left : List Child)

namespace Life

/-- What an event makes of a life, if it fits. -/
def next : Life → Event → Option Life
  | living children, .childAdded c =>
    if c.id ∈ children.map (·.id) then none else some (living (children ++ [c]))
  | living children, .childRemoved c =>
    if c ∈ children then some (living (children.erase c)) else none
  | living children, .deleted => some (leaving children)
  | leaving (c :: rest), .childRemoved c' => if c' = c then some (leaving rest) else none
  | leaving _, _ => none

/-- What some events make of a life, in order. -/
def after (l : Life) (events : List Event) : Option Life := events.foldlM next l

/-- If the node has gone, all its children have been let go. -/
def Settled (l : Life) : Prop := ∀ left, l = leaving left → left = []

lemma settled_living (children : List Child) : (living children).Settled := by
  simp [Settled]

@[simp] lemma after_nil (l : Life) : l.after [] = some l := rfl

lemma after_cons (l : Life) (e : Event) (events : List Event) :
    l.after (e :: events) = (l.next e).bind (·.after events) :=
  rfl

lemma after_append (l : Life) (events later : List Event) :
    l.after (events ++ later) = (l.after events).bind (·.after later) := by
  simp [after, List.foldlM_append]

lemma after_added {children : List Child} {c : Child} (h : c.id ∉ children.map (·.id)) :
    (living children).after [.childAdded c] = some (living (children ++ [c])) := by
  rw [after_cons, next, if_neg h]
  rfl

lemma after_removed {children : List Child} {c : Child} (h : c ∈ children) :
    (living children).after [.childRemoved c] = some (living (children.erase c)) := by
  rw [after_cons, next, if_pos h]
  rfl

lemma leaving_after (left : List Child) :
    (leaving left).after (left.map .childRemoved) = some (leaving []) := by
  induction left with
  | nil => rfl
  | cons c rest ih =>
    rw [List.map_cons, after_cons, next, if_pos rfl]
    exact ih

lemma after_deleted (children : List Child) :
    (living children).after (.deleted :: children.map .childRemoved) = some (leaving []) :=
  leaving_after children

/-! ### The events of a life -/

lemma of_leaving_after {left : List Child} {events : List Event} {life : Life}
    (h : (leaving left).after events = some life) : ∃ gone rest, left = gone ++ rest ∧
      events = gone.map .childRemoved ∧ life = leaving rest := by
  induction events generalizing left with
  | nil =>
    cases h
    exact ⟨[], left, rfl, rfl, rfl⟩
  | cons e events ih =>
    rw [after_cons] at h
    cases left with
    | nil => cases h
    | cons c left =>
      cases e with
      | childAdded c' => cases h
      | deleted => cases h
      | childRemoved c' =>
        by_cases hc : c' = c
        · subst hc
          rw [next, if_pos rfl, Option.bind_some] at h
          obtain ⟨gone, rest, rfl, rfl, rfl⟩ := ih h
          exact ⟨c' :: gone, rest, rfl, rfl, rfl⟩
        · rw [next, if_neg hc] at h
          cases h

lemma eq_nil_of_leaving_after {events : List Event} {life : Life}
    (h : (leaving []).after events = some life) : events = [] := by
  obtain ⟨gone, rest, hleft, rfl, -⟩ := of_leaving_after h
  rw [(List.append_eq_nil_iff.mp hleft.symm).1]
  rfl

lemma of_next_leaving {known left : List Child} {e : Event}
    (h : (living known).next e = some (leaving left)) : e = .deleted ∧ left = known := by
  cases e with
  | childAdded c =>
    rw [next] at h
    split at h <;> cases h
  | childRemoved c =>
    rw [next] at h
    split at h <;> cases h
  | deleted =>
    cases h
    exact ⟨rfl, rfl⟩

/-- A life is either all additions and removals of children, or these end with the node: it goes, and
then the children go that were left. -/
theorem of_living_after {known : List Child} {events : List Event} {life : Life}
    (h : (living known).after events = some life) (hsettled : life.Settled) :
    ∃ early children, .deleted ∉ early ∧ (living known).after early = some (living children) ∧
      (events = early ∨ events = early ++ .deleted :: children.map .childRemoved) := by
  induction events generalizing known with
  | nil => exact ⟨[], known, by simp, rfl, .inl rfl⟩
  | cons e events ih =>
    rw [after_cons] at h
    cases hnext : (living known).next e with
    | none =>
      rw [hnext] at h
      cases h
    | some l =>
      rw [hnext, Option.bind_some] at h
      cases l with
      | living known' =>
        obtain ⟨early, children, hnot, hearly, hevents⟩ := ih h
        have he : e ≠ .deleted := by
          rintro rfl
          cases hnext
        refine ⟨e :: early, children, by simp [he.symm, hnot], ?_, ?_⟩
        · rw [after_cons, hnext, Option.bind_some, hearly]
        · exact hevents.imp (congrArg _) (congrArg _)
      | leaving left =>
        obtain ⟨rfl, rfl⟩ := of_next_leaving hnext
        obtain ⟨gone, rest, rfl, rfl, rfl⟩ := of_leaving_after h
        obtain rfl := hsettled rest rfl
        exact ⟨[], gone ++ [], by simp, rfl, .inr (by simp)⟩

lemma mem_of_living_after {known children : List Child} {events : List Event} {c : Child}
    (h : (living known).after events = some (living children)) (hc : c ∈ children) :
    c ∈ known ∨ .childAdded c ∈ events := by
  induction events generalizing known with
  | nil =>
    cases h
    exact .inl hc
  | cons e events ih =>
    rw [after_cons, Option.bind_eq_some_iff] at h
    obtain ⟨l, hnext, hl⟩ := h
    cases l with
    | leaving left =>
      obtain ⟨_, _, _, _, hliving⟩ := of_leaving_after hl
      cases hliving
    | living known' =>
      have hmem : c ∈ known' → c ∈ known ∨ e = .childAdded c := by
        intro hc'
        cases e with
        | childAdded c' =>
          rw [next] at hnext
          split at hnext
          · cases hnext
          · cases hnext
            simpa [eq_comm] using hc'
        | childRemoved c' =>
          rw [next] at hnext
          split at hnext
          · cases hnext
            exact .inl (List.mem_of_mem_erase hc')
          · cases hnext
        | deleted => cases hnext
      obtain hc' | hlater := ih hl
      · obtain hknown | rfl := hmem hc'
        · exact .inl hknown
        · exact .inr List.mem_cons_self
      · exact .inr (List.mem_cons_of_mem _ hlater)

/-- Events that add and remove children, beginning with none, and leave some. -/
structure Leaves (events : List Event) (children : List Child) : Prop where
  not_deleted : .deleted ∉ events
  after : (living []).after events = some (living children)

lemma leaves_of_after {events : List Event} {children : List Child}
    (h : (living []).after events = some (living children)) : Leaves events children := by
  obtain ⟨early, left, hnot, hearly, rfl | rfl⟩ := of_living_after h (settled_living _)
  · exact ⟨hnot, h⟩
  · rw [after_append, hearly, Option.bind_some, after_deleted] at h
    cases h

end Life

end LiveQuery
