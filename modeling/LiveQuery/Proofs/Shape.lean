import Mathlib.Data.List.Nodup
import LiveQuery.Tree.Growth

/-!
# The shape of a tree

Every node is linked twice, by its parent field and by the list of its parent's children. A tree is
well formed if both links agree and depths count them; then every node is reached from the root on
exactly one path. Putting a new leaf in keeps a tree well formed, and so does taking a node out
together with all nodes below it.
-/

namespace LiveQuery

namespace Tree

/-- Both kinds of links agree, and the only node without a parent is the root as it was made. -/
structure WellFormed (root : TypeDef) (t : Tree) : Prop where
  id_eq {i : NodeId} {n : Node} : t.node? i = some n → n.id = i
  root_eq {n : Node} : t.node? .root = some n →
    n.parent = none ∧ n.depth = 0 ∧ n.type = .defined root ∧ n.hub = ⟨0, .root⟩
  eq_root {i : NodeId} {n : Node} : t.node? i = some n → n.parent = none → i = .root
  parent_live {i p : NodeId} {n : Node} : t.node? i = some n → n.parent = some p →
    ∃ m, t.node? p = some m ∧ i ∈ m.children ∧ n.depth = m.depth + 1
  child_live {p c : NodeId} {m : Node} : t.node? p = some m → c ∈ m.children →
    ∃ n, t.node? c = some n ∧ n.parent = some p
  nodup {p : NodeId} {m : Node} : t.node? p = some m → m.children.Nodup
  hub {i : NodeId} {n : Node} : t.node? i = some n → n.hub.node = i ∧ n.hub.serial < t.nextHub

/-- `a` is `x` or one of the nodes above it. -/
inductive Below (t : Tree) (a : NodeId) : NodeId → Prop
  | refl : Below t a a
  | step {p x : NodeId} : t.parentOf x = some p → Below t a p → Below t a x

/-- The nodes passed on the way down from one node to another, the first left out. -/
inductive Path (t : Tree) (a : NodeId) : List NodeId → NodeId → Prop
  | nil : Path t a [] a
  | snoc {l : List NodeId} {p c : NodeId} :
      Path t a l p → c ∈ t.childrenOf p → Path t a (l ++ [c]) c

section

variable {root : TypeDef} {t : Tree} {a b i p x : NodeId} {m n : Node}

lemma contains_iff : t.contains x ↔ ∃ n, t.node? x = some n := by
  rw [contains_eq_isSome, Option.isSome_iff_exists]

lemma isLive_iff : t.isLive ↔ ∃ r, t.node? .root = some r := contains_iff

lemma parentOf_eq (h : t.node? x = some n) : t.parentOf x = n.parent := by
  simp [parentOf, h]

lemma childrenOf_eq (h : t.node? x = some n) : t.childrenOf x = n.children := by
  simp [childrenOf, h]

lemma node?_congr {t' : Tree} (h : t'.nodes = t.nodes) (y : NodeId) : t'.node? y = t.node? y := by
  rw [node?, node?, h]

lemma live_of_parentOf (h : t.parentOf x = some p) : ∃ n, t.node? x = some n ∧ n.parent = some p := by
  simpa [parentOf, Option.bind_eq_some_iff] using h

lemma live_of_mem_childrenOf (h : x ∈ t.childrenOf p) : ∃ m, t.node? p = some m ∧ x ∈ m.children := by
  cases hp : t.node? p with
  | none => simp [childrenOf, hp] at h
  | some m => exact ⟨m, rfl, by simpa [childrenOf, hp] using h⟩

lemma Below.trans {c : NodeId} (h : t.Below a b) (h' : t.Below b c) : t.Below a c := by
  induction h' with
  | refl => exact h
  | step hp _ ih => exact .step hp ih

lemma Below.eq_or_child (h : t.Below a x) : x = a ∨ ∃ c, t.parentOf c = some a ∧ t.Below c x := by
  induction h with
  | refl => exact .inl rfl
  | step hp h ih =>
    right
    obtain rfl | ⟨c, hc, hcp⟩ := ih
    · exact ⟨_, hp, .refl⟩
    · exact ⟨c, hc, .step hp hcp⟩

lemma Below.live (h : t.Below a x) (ha : t.node? a = some m) : ∃ n, t.node? x = some n := by
  cases h with
  | refl => exact ⟨m, ha⟩
  | step hp _ =>
    obtain ⟨n, hn, -⟩ := live_of_parentOf hp
    exact ⟨n, hn⟩

lemma Below.mono {t' : Tree} (h : t.Below a x)
    (hp : ∀ y p, t.parentOf y = some p → t'.parentOf y = some p) : t'.Below a x := by
  induction h with
  | refl => exact .refl
  | step hy _ ih => exact .step (hp _ _ hy) ih

namespace WellFormed

lemma mem_children_iff (h : t.WellFormed root) :
    x ∈ t.childrenOf p ↔ t.parentOf x = some p := by
  constructor
  · intro hx
    obtain ⟨m, hm, hmem⟩ := live_of_mem_childrenOf hx
    obtain ⟨n, hn, hnp⟩ := h.child_live hm hmem
    rw [parentOf_eq hn, hnp]
  · intro hx
    obtain ⟨n, hn, hnp⟩ := live_of_parentOf hx
    obtain ⟨m, hm, hmem, -⟩ := h.parent_live hn hnp
    rwa [childrenOf_eq hm]

lemma live_of_below (h : t.WellFormed root) (hb : t.Below a x) (hx : t.node? x = some n) :
    ∃ m, t.node? a = some m := by
  induction hb generalizing n with
  | refl => exact ⟨n, hx⟩
  | step hp _ ih =>
    rw [parentOf_eq hx] at hp
    obtain ⟨m, hm, -⟩ := h.parent_live hx hp
    exact ih hm

lemma eq_or_depth_lt (h : t.WellFormed root) (hb : t.Below a x) (ha : t.node? a = some m)
    (hx : t.node? x = some n) : a = x ∨ m.depth < n.depth := by
  induction hb generalizing n with
  | refl => exact .inl rfl
  | step hp _ ih =>
    right
    rw [parentOf_eq hx] at hp
    obtain ⟨q, hq, -, hdepth⟩ := h.parent_live hx hp
    obtain rfl | hlt := ih hq
    · rw [ha] at hq
      cases hq
      omega
    · omega

lemma eq_of_below (h : t.WellFormed root) (ha : t.node? a = some m) (hb : t.node? b = some n)
    (hdepth : m.depth = n.depth) (hx : t.Below a x) (hx' : t.Below b x) (hlive : t.contains x) :
    a = b := by
  rw [contains_eq_isSome, Option.isSome_iff_exists] at hlive
  obtain ⟨y, hy⟩ := hlive
  induction hx generalizing y with
  | refl =>
    obtain rfl | hlt := h.eq_or_depth_lt hx' hb hy
    · rfl
    · rw [ha] at hy
      cases hy
      omega
  | step hp hbelow ih =>
    cases hx' with
    | refl =>
      obtain rfl | hlt := h.eq_or_depth_lt (.step hp hbelow) ha hb
      · rfl
      · omega
    | step hp' hx' =>
      obtain rfl : _ = _ := Option.some.inj (hp.symm.trans hp')
      rw [parentOf_eq hy] at hp
      obtain ⟨q, hq, -⟩ := h.parent_live hy hp
      exact ih hx' q hq

lemma not_below_child (h : t.WellFormed root) (hx : t.parentOf x = some p) : ¬ t.Below x p := by
  intro hb
  obtain ⟨n, hn, hnp⟩ := live_of_parentOf hx
  obtain ⟨m, hm, -, hdepth⟩ := h.parent_live hn hnp
  obtain rfl | hlt := h.eq_or_depth_lt hb hn hm
  · rw [hm] at hn
    cases hn
    omega
  · omega

lemma eq_of_below_siblings (h : t.WellFormed root) (ha : t.parentOf a = some p)
    (hb : t.parentOf b = some p) (hx : t.Below a x) (hx' : t.Below b x) : a = b := by
  obtain ⟨n, hn, hnp⟩ := live_of_parentOf ha
  obtain ⟨n', hn', hnp'⟩ := live_of_parentOf hb
  obtain ⟨m, hm, -, hdepth⟩ := h.parent_live hn hnp
  obtain ⟨m', hm', -, hdepth'⟩ := h.parent_live hn' hnp'
  rw [hm] at hm'
  cases hm'
  have hlive : t.contains x := by
    obtain ⟨k, hk⟩ := hx.live hn
    simp [contains_eq_isSome, hk]
  exact h.eq_of_below hn hn' (by omega) hx hx' hlive

lemma below_root (h : t.WellFormed root) (hx : t.node? x = some n) : t.Below .root x := by
  -- the parent has a smaller depth
  induction hd : n.depth using Nat.strongRecOn generalizing x n with
  | ind d ih =>
    cases hp : n.parent with
    | none =>
      rw [h.eq_root hx hp]
      exact .refl
    | some p =>
      obtain ⟨m, hm, -, hdepth⟩ := h.parent_live hx hp
      exact .step ((parentOf_eq hx).trans hp) (ih m.depth (by omega) hm rfl)

lemma root_live (h : t.WellFormed root) (hx : t.node? x = some n) : ∃ r, t.node? .root = some r :=
  h.live_of_below (h.below_root hx) hx

lemma parentOf_root (h : t.WellFormed root) : t.parentOf .root = none := by
  cases hr : t.node? .root with
  | none => simp [parentOf, hr]
  | some r => rw [parentOf_eq hr, (h.root_eq hr).1]

lemma eq_root_of_below (h : t.WellFormed root) (hb : t.Below a .root) : a = .root := by
  cases hb with
  | refl => rfl
  | step hp _ => simp [h.parentOf_root] at hp

/-! ### Paths -/

lemma path_of_below (h : t.WellFormed root) (hb : t.Below a x) : ∃ l, t.Path a l x := by
  induction hb with
  | refl => exact ⟨[], .nil⟩
  | step hp _ ih =>
    obtain ⟨l, hl⟩ := ih
    exact ⟨l ++ [_], .snoc hl (h.mem_children_iff.mpr hp)⟩

lemma path_unique (h : t.WellFormed root) {l l' : List NodeId} (hl : t.Path .root l x)
    (hl' : t.Path .root l' x) : l = l' := by
  induction hl generalizing l' with
  | nil =>
    cases hl' with
    | nil => rfl
    | snoc _ hc => simp [h.mem_children_iff, h.parentOf_root] at hc
  | snoc _ hc ih =>
    cases hl' with
    | nil => simp [h.mem_children_iff, h.parentOf_root] at hc
    | snoc hl' hc' =>
      rw [h.mem_children_iff] at hc hc'
      obtain rfl : _ = _ := Option.some.inj (hc.symm.trans hc')
      rw [ih hl']

lemma path_depth (h : t.WellFormed root) {l : List NodeId} (hl : t.Path a l x)
    (ha : t.node? a = some m) : ∃ n, t.node? x = some n ∧ n.depth = m.depth + l.length := by
  induction hl with
  | nil => exact ⟨m, ha, rfl⟩
  | snoc _ hc ih =>
    obtain ⟨q, hq, hdepth⟩ := ih
    rw [h.mem_children_iff] at hc
    obtain ⟨n, hn, hp⟩ := live_of_parentOf hc
    obtain ⟨q', hq', -, hn'⟩ := h.parent_live hn hp
    rw [hq] at hq'
    cases hq'
    refine ⟨n, hn, ?_⟩
    simp only [List.length_append, List.length_singleton]
    omega

/-- The links lead nowhere in a circle. -/
lemma path_self (h : t.WellFormed root) {l : List NodeId} (hl : t.Path x l x) : l = [] := by
  cases hl with
  | nil => rfl
  | snoc hl hc =>
    obtain ⟨n, hn, -⟩ := live_of_parentOf (h.mem_children_iff.mp hc)
    obtain ⟨n', hn', hdepth⟩ := h.path_depth (.snoc hl hc) hn
    rw [hn] at hn'
    cases hn'
    simp at hdepth

lemma path_iff_mem_keys (h : t.WellFormed root) (hlive : t.isLive) :
    (∃ l, t.Path .root l x) ↔ x ∈ t.nodes.keys := by
  obtain ⟨r, hr⟩ := isLive_iff.mp hlive
  rw [Std.ExtTreeMap.mem_keys, Std.ExtTreeMap.mem_iff_isSome_getElem?, Option.isSome_iff_exists]
  constructor
  · rintro ⟨l, hl⟩
    obtain ⟨n, hn, -⟩ := h.path_depth hl hr
    exact ⟨n, hn⟩
  · rintro ⟨n, hn⟩
    exact h.path_of_below (h.below_root hn)

/-! ### What keeps a tree well formed -/

lemma congr {t' : Tree} (h : t.WellFormed root) (hnodes : t'.nodes = t.nodes)
    (hhub : t.nextHub ≤ t'.nextHub) : t'.WellFormed root := by
  constructor <;> simp only [node?_congr hnodes]
  · exact h.id_eq
  · exact h.root_eq
  · exact h.eq_root
  · exact h.parent_live
  · exact h.child_live
  · exact h.nodup
  · intro i n hn
    exact ⟨(h.hub hn).1, Nat.lt_of_lt_of_le (h.hub hn).2 hhub⟩

lemma attach (h : t.WellFormed root) {leaf : Node} (hp : t.node? p = some m)
    (hnew : t.node? leaf.id = none) (hparent : leaf.parent = some p)
    (hchildren : leaf.children = []) (hdepth : leaf.depth = m.depth + 1)
    (hhub : leaf.hub.node = leaf.id ∧ leaf.hub.serial < t.nextHub) :
    (t.attach p leaf).WellFormed root := by
  have hne : leaf.id ≠ p := by
    rintro rfl
    simp [hnew] at hp
  have hroot : leaf.id ≠ .root := by
    intro hid
    obtain ⟨r, hr⟩ := h.root_live hp
    simp [← hid, hnew] at hr
  have hchild : ∀ {q q' : NodeId} {k : Node}, t.node? q = some k → q' ∈ k.children →
      q' ≠ leaf.id := by
    rintro q q' k hk hmem rfl
    obtain ⟨n, hn, -⟩ := h.child_live hk hmem
    simp [hnew] at hn
  have hpar : ∀ {q q' : NodeId} {k : Node}, t.node? q = some k → k.parent = some q' →
      q' ≠ leaf.id := by
    rintro q q' k hk hkp rfl
    obtain ⟨n, hn, -⟩ := h.parent_live hk hkp
    simp [hnew] at hn
  have hnode := node?_attach (t := t) hne
  have hnext : (t.attach p leaf).nextHub = t.nextHub := rfl
  constructor <;> simp only [hnode, hnext]
  · grind [h.id_eq]
  · grind [h.root_eq]
  · grind [h.eq_root]
  · grind [h.parent_live]
  · grind [h.child_live]
  · grind [h.nodup]
  · grind [h.hub]

lemma without (h : t.WellFormed root) {t' : Tree} {gone : List NodeId}
    (hdown : ∀ c p, t.parentOf c = some p → p ∈ gone → c ∈ gone)
    (hnode : ∀ y, t'.node? y = if y ∈ gone then none else
      (t.node? y).map fun n => { n with children := n.children.filter (· ∉ gone) })
    (hnext : t'.nextHub = t.nextHub) : t'.WellFormed root := by
  have hkeep : ∀ {y : NodeId} {k : Node}, t.node? y = some k → y ∉ gone →
      t'.node? y = some { k with children := k.children.filter (· ∉ gone) } :=
    fun hk hy => by simp [hnode, hk, hy]
  have hold : ∀ {y : NodeId} {k : Node}, t'.node? y = some k → y ∉ gone ∧
      ∃ k', t.node? y = some k' ∧ k = { k' with children := k'.children.filter (· ∉ gone) } := by
    intro y k hk
    rw [hnode] at hk
    by_cases hy : y ∈ gone
    · simp [hy] at hk
    · rw [if_neg hy, Option.map_eq_some_iff] at hk
      obtain ⟨k', hk', rfl⟩ := hk
      exact ⟨hy, k', hk', rfl⟩
  constructor
  · intro i n hn
    obtain ⟨-, k, hk, rfl⟩ := hold hn
    exact (h.id_eq hk :)
  · intro n hn
    obtain ⟨-, k, hk, rfl⟩ := hold hn
    exact (h.root_eq hk :)
  · intro i n hn hp
    obtain ⟨-, k, hk, rfl⟩ := hold hn
    exact h.eq_root hk hp
  · intro i q n hn hp
    obtain ⟨hi, k, hk, rfl⟩ := hold hn
    obtain ⟨m, hm, hmem, hdepth⟩ := h.parent_live hk hp
    have hq : q ∉ gone := fun hq => hi (hdown _ _ ((parentOf_eq hk).trans hp) hq)
    exact ⟨_, hkeep hm hq, List.mem_filter.mpr ⟨hmem, by simpa using hi⟩, hdepth⟩
  · intro q c m hm hc
    obtain ⟨-, k, hk, rfl⟩ := hold hm
    rw [List.mem_filter, decide_eq_true_eq] at hc
    obtain ⟨n, hn, hp⟩ := h.child_live hk hc.1
    exact ⟨_, hkeep hn hc.2, hp⟩
  · intro q m hm
    obtain ⟨-, k, hk, rfl⟩ := hold hm
    exact (h.nodup hk).filter _
  · intro i n hn
    obtain ⟨-, k, hk, rfl⟩ := hold hn
    rw [hnext]
    exact (h.hub hk :)

end WellFormed

lemma wellFormed_ofRoot (root : TypeDef) : (ofRoot root).WellFormed root := by
  constructor <;> simp only [node?_ofRoot] <;> grind [ofRoot]

end

end Tree

end LiveQuery
