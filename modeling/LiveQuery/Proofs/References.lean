import Mathlib.Tactic.Lemma
import Mathlib.Algebra.BigOperators.Group.List.Basic
import Mathlib.Algebra.GroupWithZero.Nat
import Mathlib.Data.List.Nodup
import LiveQuery.Bindings.References

/-!
# Exact reference counts

Bindings are exact for a list of references if each binding counts precisely those references of
the list that refer to it, and unbound variables are referred to by none. Taking a reference adds
it to the list and giving one back removes it, whatever the order of the list is.
-/

namespace LiveQuery

/-! ### Enumerating a map -/

section Enumeration

variable {α β : Type} {cmp : α → α → Ordering} [Std.TransCmp cmp] [Std.LawfulEqCmp cmp]

lemma nodup_toList (m : Std.ExtTreeMap α β cmp) : m.toList.Nodup := by
  refine m.distinct_keys_toList.imp ?_
  rintro a b h rfl
  exact h Std.ReflCmp.compare_self

lemma toList_perm_erase {m : Std.ExtTreeMap α β cmp} {k : α} {v : β} (h : m[k]? = some v) :
    m.toList.Perm ((k, v) :: (m.erase k).toList) := by
  have hnew : (k, v) ∉ (m.erase k).toList := by simp
  refine (List.perm_ext_iff_of_nodup (nodup_toList m)
    (List.nodup_cons.mpr ⟨hnew, nodup_toList _⟩)).mpr ?_
  rintro ⟨k', v'⟩
  simp only [Std.ExtTreeMap.mem_toList_iff_getElem?_eq_some, List.mem_cons, Prod.mk.injEq,
    Std.ExtTreeMap.getElem?_erase, Std.LawfulEqCmp.compare_eq_iff_eq]
  by_cases hk : k = k'
  · subst hk
    simp [h, eq_comm]
  · simp [hk, Ne.symm hk]

lemma insert_toList_perm (m : Std.ExtTreeMap α β cmp) (k : α) (v : β) :
    (m.insert k v).toList.Perm ((k, v) :: (m.erase k).toList) := by
  have herase : (m.insert k v).erase k = m.erase k := by
    apply Std.ExtTreeMap.ext_getElem?
    intro k'
    simp only [Std.ExtTreeMap.getElem?_erase, Std.ExtTreeMap.getElem?_insert]
    split <;> rfl
  rw [← herase]
  exact toList_perm_erase Std.ExtTreeMap.getElem?_insert_self

lemma erase_eq_of_absent {m : Std.ExtTreeMap α β cmp} {k : α} (h : m[k]? = none) :
    m.erase k = m := by
  apply Std.ExtTreeMap.ext_getElem?
  intro k'
  rw [Std.ExtTreeMap.getElem?_erase]
  split
  · next hk => rw [← Std.LawfulEqCmp.eq_of_compare hk, h]
  · rfl

end Enumeration

/-- The held references without their argument names. -/
def References.all (held : References) : List Reference := held.toList.map (·.2)

lemma References.all_empty : References.all ∅ = [] := by
  simp [References.all]

lemma References.all_perm_erase {held : References} {name : String} {r : Reference}
    (h : held[name]? = some r) : held.all.Perm (r :: References.all (held.erase name)) :=
  (toList_perm_erase h).map _

lemma References.all_insert_perm (held : References) (name : String) (r : Reference) :
    (References.all (held.insert name r)).Perm (r :: References.all (held.erase name)) :=
  (insert_toList_perm held name r).map _

namespace Bindings

/-- The counts are those of the references that are `out`, and none was given back in excess. -/
structure Exact (b : Bindings) (out : List Reference) : Prop where
  count : ∀ id, (b.count? id).getD 0 = out.countP (·.variableId = id)
  unmatched : b.unmatched = 0

/-- The same variables are bound, to the same values. -/
def SameValues (b c : Bindings) : Prop :=
  ∀ id, (b.get? id).map (·.value) = (c.get? id).map (·.value)

lemma SameValues.refl (b : Bindings) : b.SameValues b := fun _ => rfl

lemma SameValues.trans {b c d : Bindings} (h : b.SameValues c) (h' : c.SameValues d) :
    b.SameValues d := fun id => (h id).trans (h' id)

section

variable {b c : Bindings} {out : List Reference}

lemma exact_empty : empty.Exact [] where
  count id := by simp [count?]
  unmatched := rfl

lemma Exact.perm {out' : List Reference} (h : b.Exact out) (hp : out.Perm out') : b.Exact out' where
  count id := (h.count id).trans (hp.countP_eq _)
  unmatched := h.unmatched

lemma Exact.count_of_bound (h : b.Exact out) {id : VariableId} {binding : Binding}
    (hb : b.get? id = some binding) : binding.count = out.countP (·.variableId = id) := by
  have := h.count id
  simpa [count?, hb] using this

lemma Exact.count_of_unbound (h : b.Exact out) {id : VariableId} (hb : b.get? id = none) :
    out.countP (·.variableId = id) = 0 := by
  have := h.count id
  simpa [count?, hb] using this.symm

lemma Exact.bound_of_mem (h : b.Exact out) {r : Reference} (hr : r ∈ out) :
    ∃ binding, b.get? r.variableId = some binding := by
  cases hb : b.get? r.variableId with
  | some binding => exact ⟨binding, rfl⟩
  | none =>
    have hzero := h.count_of_unbound hb
    rw [List.countP_eq_zero] at hzero
    exact absurd (by simp) (hzero r hr)

/-- Exact counts and values determine the bindings. -/
lemma Exact.eq_of_sameValues (hb : b.Exact out) (hc : c.Exact out) (h : b.SameValues c) :
    b = c := by
  refine ext_get? (fun id => ?_) (hb.unmatched.trans hc.unmatched.symm)
  have hv := h id
  cases hbid : b.get? id with
  | none =>
    rw [hbid] at hv
    cases hcid : c.get? id with
    | none => rfl
    | some y => simp [hcid] at hv
  | some x =>
    cases hcid : c.get? id with
    | none => simp [hbid, hcid] at hv
    | some y =>
      have hvalue : x.value = y.value := by simpa [hbid, hcid] using hv
      have hcount : x.count = y.count :=
        (hb.count_of_bound hbid).trans (hc.count_of_bound hcid).symm
      cases x
      cases y
      simp_all

lemma Exact.put (h : b.Exact out) (id : VariableId) (value : Json) : (b.put id value).Exact out where
  count other := by
    rw [← h.count other]
    simp only [count?, get?_put]
    split
    · next hid => subst hid; simp
    · rfl
  unmatched := h.unmatched

lemma Exact.acquire (h : b.Exact out) {id : VariableId} {r : Reference}
    (ha : b.acquire? id = some (r, c)) : c.Exact (r :: out) := by
  obtain ⟨binding, hb, rfl, rfl⟩ := acquire?_eq_some_iff.mp ha
  refine ⟨fun other => ?_, h.unmatched⟩
  simp only [count?, get?_insert, List.countP_cons, decide_eq_true_eq]
  by_cases hid : id = other
  · subst hid
    simp [h.count_of_bound hb]
  · simpa [hid, count?] using h.count other

lemma Exact.release {r : Reference} (h : b.Exact (r :: out)) :
    (b.release r.variableId).Exact out := by
  obtain ⟨binding, hb⟩ := h.bound_of_mem (List.mem_cons_self (a := r) (l := out))
  have hcount : binding.count = out.countP (·.variableId = r.variableId) + 1 := by
    simpa using h.count_of_bound hb
  constructor
  · intro id
    simp only [count?, get?_release]
    by_cases hid : r.variableId = id
    · subst hid
      simp [hb, hcount]
    · have := h.count id
      simpa [hid, count?] using this
  · have hpos : (b.count? r.variableId).getD 0 ≠ 0 := by simp [count?, hb, hcount]
    simp only [Bindings.release, hpos, if_false]
    exact h.unmatched

lemma Exact.sweep (h : b.Exact out) : b.sweep.2.Exact out where
  count id := by
    rw [← h.count id]
    simp only [count?, get?_sweep]
    cases b.get? id with
    | none => rfl
    | some binding => cases hc : binding.count <;> simp [Option.filter, hc]
  unmatched := h.unmatched

lemma sweep_get?_of_mem {id : VariableId} (h : id ∈ b.sweep.1) : b.sweep.2.get? id = none := by
  obtain ⟨binding, hb, hc⟩ := mem_sweep_iff.mp h
  simp [get?_sweep, hb, hc, Option.filter]

lemma sweep_ascending (b : Bindings) : b.sweep.1.Pairwise fun v w => v.index < w.index := by
  refine Std.ExtTreeMap.ordered_keys.imp ?_
  intro v w h
  change compare v.index w.index = .lt at h
  exact Std.compare_eq_lt.mp h

lemma sameValues_acquire {id : VariableId} {r : Reference} (h : b.acquire? id = some (r, c)) :
    b.SameValues c := by
  obtain ⟨binding, hb, -, rfl⟩ := acquire?_eq_some_iff.mp h
  intro other
  rw [get?_insert]
  split
  · next hid => subst hid; simp [hb]
  · rfl

lemma sameValues_release (b : Bindings) (id : VariableId) : b.SameValues (b.release id) := by
  intro other
  rw [get?_release]
  split
  · cases b.get? other <;> rfl
  · rfl

/-! ### References held by name -/

lemma releaseAll_eq (b : Bindings) (held : References) :
    b.releaseAll held = held.all.foldl (fun b r => b.release r.variableId) b := by
  rw [releaseAll, Std.ExtTreeMap.foldl_eq_foldl_toList, References.all, List.foldl_map]

lemma Exact.releaseAll {held : References} (h : b.Exact (held.all ++ out)) :
    (b.releaseAll held).Exact out := by
  rw [releaseAll_eq]
  revert h
  generalize held.all = rs
  intro h
  induction rs generalizing b with
  | nil => exact h
  | cons r rs ih => exact ih h.release

lemma sameValues_releaseAll (b : Bindings) (held : References) :
    b.SameValues (b.releaseAll held) := by
  rw [releaseAll_eq]
  generalize held.all = rs
  induction rs generalizing b with
  | nil => exact SameValues.refl b
  | cons r rs ih => exact (sameValues_release b r.variableId).trans (ih _)

/-- A reference put under a name that was taken comes out even: the old one goes back. -/
lemma Exact.keep {held : References} {r : Reference} (h : b.Exact (r :: (held.all ++ out)))
    (name : String) : (b.keep held name r).2.Exact ((b.keep held name r).1.all ++ out) := by
  have hnew : (References.all (held.insert name r) ++ out).Perm
      (r :: (References.all (held.erase name) ++ out)) :=
    (held.all_insert_perm name r).append_right out
  cases hold : held[name]? with
  | none =>
    simp only [Bindings.keep, hold]
    rw [erase_eq_of_absent hold] at hnew
    exact h.perm hnew.symm
  | some old =>
    simp only [Bindings.keep, hold]
    have hout : (r :: (held.all ++ out)).Perm
        (old :: r :: (References.all (held.erase name) ++ out)) :=
      (((References.all_perm_erase hold).append_right out).cons r).trans (List.Perm.swap ..)
    exact (h.perm hout).release.perm hnew.symm

lemma sameValues_keep (b : Bindings) (held : References) (name : String) (r : Reference) :
    b.SameValues (b.keep held name r).2 := by
  cases hold : held[name]? with
  | none => simpa [keep, hold] using SameValues.refl b
  | some old => simpa [keep, hold] using sameValues_release b old.variableId

/-- What taking references for a list of arguments leaves: all of them are held, or none is. -/
theorem Exact.hold {held : References} (h : b.Exact (held.all ++ out)) (args : List Argument) :
    match b.hold held args with
    | (.ok held', c) => c.Exact (held'.all ++ out) ∧ b.SameValues c
    | (.error _, c) => c.Exact out ∧ b.SameValues c := by
  induction args generalizing b held with
  | nil => exact ⟨h, SameValues.refl b⟩
  | cons a rest ih =>
    cases ha : b.acquire? a.variableId with
    | none =>
      simp only [Bindings.hold, ha]
      exact ⟨h.releaseAll, sameValues_releaseAll b held⟩
    | some rc =>
      obtain ⟨r, c⟩ := rc
      have hvalues := (sameValues_acquire ha).trans (sameValues_keep c held a.name r)
      have hrest := ih ((h.acquire ha).keep a.name)
      simp only [Bindings.hold, ha]
      revert hrest
      split
      · exact fun ⟨he, hs⟩ => ⟨he, hvalues.trans hs⟩
      · exact fun ⟨he, hs⟩ => ⟨he, hvalues.trans hs⟩

/-! ### The total -/

lemma sum_countP_eq_length {ids : List VariableId} (hids : ids.Nodup)
    (hout : ∀ r ∈ out, r.variableId ∈ ids) :
    (ids.map fun id => out.countP (·.variableId = id)).sum = out.length := by
  induction out with
  | nil => simp
  | cons r rest ih =>
    have hone : (ids.map fun id => if r.variableId = id then 1 else 0).sum = 1 := by
      rw [List.sum_map_eq_nsmul_single r.variableId _ fun id hne _ => if_neg hne.symm,
        List.count_eq_one_of_mem hids (hout r List.mem_cons_self)]
      simp
    simp only [List.countP_cons, decide_eq_true_eq, List.sum_map_add, hone, List.length_cons]
    rw [ih fun r hr => hout r (List.mem_cons_of_mem _ hr)]

lemma Exact.total (h : b.Exact out) : b.total = out.length := by
  have hids : ∀ r ∈ out, r.variableId ∈ b.entries.keys := by
    intro r hr
    obtain ⟨binding, hb⟩ := h.bound_of_mem hr
    simp only [Std.ExtTreeMap.mem_keys, Std.ExtTreeMap.mem_iff_isSome_getElem?]
    exact Option.isSome_of_eq_some hb
  have hcounts : b.toList.map (fun entry => entry.2.count) =
      b.entries.keys.map fun id => out.countP (·.variableId = id) := by
    rw [← Std.ExtTreeMap.map_fst_toList_eq_keys, List.map_map]
    refine List.map_congr_left ?_
    rintro ⟨id, binding⟩ hmem
    exact h.count_of_bound (Std.ExtTreeMap.mem_toList_iff_getElem?_eq_some.mp hmem)
  have hsum : b.total = (b.toList.map fun entry => entry.2.count).sum := by
    rw [Bindings.total]
    induction b.toList with
    | nil => rfl
    | cons entry rest ih => simp [ih]
  rw [hsum, hcounts, sum_countP_eq_length b.entries.nodup_keys hids]

end

end Bindings

end LiveQuery
