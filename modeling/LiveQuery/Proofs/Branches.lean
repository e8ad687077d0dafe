import LiveQuery.Proofs.Shape

/-!
# Branches

A node of a well-formed tree carries a branch: itself and, recursively, the branches of its
children. Walks that follow the links one by one are described by recursion on the branch, and what
a finished removal has taken out is the list of its ids.
-/

namespace LiveQuery

inductive Branch where
  | mk (id : NodeId) (children : List Branch)

namespace Branch

def id : Branch → NodeId
  | ⟨id, _⟩ => id

mutual

/-- All ids of a branch, each node before what is below it. -/
def ids : Branch → List NodeId
  | ⟨id, children⟩ => id :: idsAll children

def idsAll : List Branch → List NodeId
  | [] => []
  | b :: rest => b.ids ++ idsAll rest

end

lemma idsAll_eq (bs : List Branch) : idsAll bs = bs.flatMap ids := by
  induction bs with
  | nil => rfl
  | cons b rest ih => rw [idsAll, ih, List.flatMap_cons]

lemma id_mem_ids (b : Branch) : b.id ∈ b.ids := by
  cases b
  simp [id, ids]

lemma mem_idsAll {bs : List Branch} {x : NodeId} : x ∈ idsAll bs ↔ ∃ b ∈ bs, x ∈ b.ids := by
  rw [idsAll_eq, List.mem_flatMap]

theorem induct {motive : Branch → Prop}
    (mk : ∀ id children, (∀ b ∈ children, motive b) → motive ⟨id, children⟩) (b : Branch) :
    motive b :=
  @Branch.rec motive (fun bs => ∀ b ∈ bs, motive b) mk (by simp)
    (fun _ _ hb hrest => by simpa using ⟨hb, hrest⟩) b

end Branch

namespace Tree

/-- The branch is the one its node carries in the tree. -/
inductive Holds (t : Tree) : Branch → Prop
  | mk {id : NodeId} {children : List Branch} {n : Node} :
      t.node? id = some n → n.children = children.map Branch.id →
      (∀ b ∈ children, t.parentOf b.id = some id) → (∀ b ∈ children, Holds t b) →
      Holds t ⟨id, children⟩

/-- The branch is in the tree and lists the nodes below its own once each. -/
structure Carries (t : Tree) (b : Branch) : Prop where
  holds : t.Holds b
  nodup : b.ids.Nodup
  mem_ids : ∀ y, y ∈ b.ids ↔ t.Below b.id y

section

variable {root : TypeDef} {t t' : Tree} {x : NodeId} {n : Node}

lemma Holds.congr {b : Branch} (h : t.Holds b) (hnode : ∀ y ∈ b.ids, t'.node? y = t.node? y) :
    t'.Holds b := by
  induction b using Branch.induct with
  | mk id children ih =>
    cases h with
    | mk hn hchildren hparent hbelow =>
      have hsub : ∀ b ∈ children, ∀ y ∈ b.ids, t'.node? y = t.node? y := fun b hb y hy =>
        hnode y (List.mem_cons_of_mem _ (Branch.mem_idsAll.mpr ⟨b, hb, hy⟩))
      refine .mk ((hnode id List.mem_cons_self).trans hn) hchildren (fun b hb => ?_)
        (fun b hb => ih b hb (hbelow b hb) (hsub b hb))
      rw [parentOf, hsub b hb _ b.id_mem_ids]
      exact hparent b hb

lemma exists_depth_bound (t : Tree) : ∃ d, ∀ x n, t.node? x = some n → n.depth < d := by
  have hlist : ∀ l : List (NodeId × Node), ∃ d, ∀ e ∈ l, e.2.depth < d := by
    intro l
    induction l with
    | nil => exact ⟨0, by simp⟩
    | cons e rest ih =>
      obtain ⟨d, hd⟩ := ih
      refine ⟨d + e.2.depth + 1, fun e' he' => ?_⟩
      rcases List.mem_cons.mp he' with rfl | he'
      · omega
      · have := hd e' he'
        omega
  obtain ⟨d, hd⟩ := hlist t.nodes.toList
  exact ⟨d, fun x n hx => hd (x, n) (Std.ExtTreeMap.mem_toList_iff_getElem?_eq_some.mpr hx)⟩

lemma exists_map_eq {α β : Type} {f : β → α} {P : β → Prop} {l : List α}
    (h : ∀ a ∈ l, ∃ b, f b = a ∧ P b) : ∃ bs : List β, bs.map f = l ∧ ∀ b ∈ bs, P b := by
  induction l with
  | nil => exact ⟨[], rfl, by simp⟩
  | cons a rest ih =>
    obtain ⟨b, rfl, hb⟩ := h a List.mem_cons_self
    obtain ⟨bs, rfl, hbs⟩ := ih fun a ha => h a (List.mem_cons_of_mem _ ha)
    exact ⟨b :: bs, rfl, by simpa using ⟨hb, hbs⟩⟩

namespace WellFormed

lemma mem_idsAll_iff (h : t.WellFormed root) (hx : t.node? x = some n) {bs : List Branch}
    (hbs : bs.map Branch.id = n.children)
    (hcarries : ∀ b ∈ bs, t.parentOf b.id = some x ∧ t.Carries b) (y : NodeId) :
    y ∈ Branch.idsAll bs ↔ ∃ c, t.parentOf c = some x ∧ t.Below c y := by
  rw [Branch.mem_idsAll]
  constructor
  · rintro ⟨b, hb, hy⟩
    obtain ⟨hparent, hcarried⟩ := hcarries b hb
    exact ⟨b.id, hparent, (hcarried.mem_ids y).mp hy⟩
  · rintro ⟨c, hc, hy⟩
    have hmem : c ∈ bs.map Branch.id := by
      rw [hbs, ← childrenOf_eq hx]
      exact h.mem_children_iff.mpr hc
    obtain ⟨b, hb, rfl⟩ := List.mem_map.mp hmem
    exact ⟨b, hb, ((hcarries b hb).2.mem_ids y).mpr hy⟩

lemma nodup_idsAll (h : t.WellFormed root) (hx : t.node? x = some n) {bs : List Branch}
    (hbs : bs.map Branch.id = n.children)
    (hcarries : ∀ b ∈ bs, t.parentOf b.id = some x ∧ t.Carries b) :
    (Branch.idsAll bs).Nodup := by
  rw [Branch.idsAll_eq, List.nodup_flatMap]
  refine ⟨fun b hb => (hcarries b hb).2.nodup, ?_⟩
  have hne : bs.Pairwise (fun b b' => b.id ≠ b'.id) := by
    rw [← List.pairwise_map, hbs]
    exact h.nodup hx
  refine hne.imp_of_mem ?_
  intro b b' hb hb' hne y hy hy'
  obtain ⟨hparent, hcarried⟩ := hcarries b hb
  obtain ⟨hparent', hcarried'⟩ := hcarries b' hb'
  exact hne (h.eq_of_below_siblings hparent hparent' ((hcarried.mem_ids y).mp hy)
    ((hcarried'.mem_ids y).mp hy'))

lemma carries_mk (h : t.WellFormed root) (hx : t.node? x = some n) {bs : List Branch}
    (hbs : bs.map Branch.id = n.children)
    (hcarries : ∀ b ∈ bs, t.parentOf b.id = some x ∧ t.Carries b) : t.Carries ⟨x, bs⟩ where
  holds := .mk hx hbs.symm (fun b hb => (hcarries b hb).1) fun b hb => (hcarries b hb).2.holds
  nodup := by
    refine List.nodup_cons.mpr ⟨fun hmem => ?_, h.nodup_idsAll hx hbs hcarries⟩
    obtain ⟨c, hc, hcx⟩ := (h.mem_idsAll_iff hx hbs hcarries x).mp hmem
    exact h.not_below_child hc hcx
  mem_ids y := by
    rw [Branch.ids, List.mem_cons, h.mem_idsAll_iff hx hbs hcarries]
    constructor
    · rintro (rfl | ⟨c, hc, hcy⟩)
      · exact .refl
      · exact Below.trans (.step hc .refl) hcy
    · exact Below.eq_or_child

theorem exists_branch (h : t.WellFormed root) (hx : t.node? x = some n) :
    ∃ b : Branch, b.id = x ∧ t.Carries b := by
  obtain ⟨d, hd⟩ := t.exists_depth_bound
  -- the induction is on how far the node is from the greatest depth
  induction hk : d - n.depth using Nat.strongRecOn generalizing x n with
  | ind k ih =>
    have hchild : ∀ c ∈ n.children, ∃ b : Branch, b.id = c ∧
        (t.parentOf b.id = some x ∧ t.Carries b) := by
      intro c hc
      obtain ⟨m, hm, hp⟩ := h.child_live hx hc
      obtain ⟨n', hn', -, hdepth⟩ := h.parent_live hm hp
      rw [hx] at hn'
      cases hn'
      have hlt := hd x n hx
      obtain ⟨b, rfl, hb⟩ := ih (d - m.depth) (by omega) hm rfl
      exact ⟨b, rfl, (parentOf_eq hm).trans hp, hb⟩
    obtain ⟨bs, hbs, hcarries⟩ := exists_map_eq hchild
    exact ⟨⟨x, bs⟩, rfl, h.carries_mk hx hbs hcarries⟩

end WellFormed

/-! ### Taking nodes out -/

/-- `t'` has the nodes of `t` that are not `gone`, and these only have lost children. -/
def Without (t : Tree) (gone : List NodeId) (t' : Tree) : Prop :=
  ∀ y, t'.node? y = if y ∈ gone then none else
    (t.node? y).map fun n => { n with children := n.children.filter (· ∉ gone) }

lemma Without.nil (t : Tree) : t.Without [] t := by
  intro y
  simp

lemma Without.of_mem_iff {gone gone' : List NodeId} (h : t.Without gone t')
    (hmem : ∀ y, y ∈ gone ↔ y ∈ gone') : t.Without gone' t' := by
  intro y
  rw [h y]
  simp only [hmem]

lemma Without.trans {t'' : Tree} {gone gone' : List NodeId} (h : t.Without gone t')
    (h' : t'.Without gone' t'') : t.Without (gone ++ gone') t'' := by
  intro y
  rw [h' y, h y]
  by_cases hy : y ∈ gone
  · simp [hy]
  · by_cases hy' : y ∈ gone'
    · simp [hy']
    · simp only [hy, hy', if_false, List.mem_append, or_self, Option.map_map]
      congr 1
      funext n
      simp [List.filter_filter, Bool.and_comm]

end

end Tree

end LiveQuery
