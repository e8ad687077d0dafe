import LiveQuery.Proofs.HeldValues
import LiveQuery.Proofs.Lines

/-!
# Outlines read back

The lines of an outline tell the depth of every node, each node comes before what is below it, and children
come in order. So there is one tree only that the outline can be of: where the depth grows a child follows,
and where it does not, the branch of the node before has ended.
-/

namespace LiveQuery

namespace Branch

mutual

/-- The ids of a branch with their depths, each node before what is below it. -/
def levels (depth : Nat) : Branch → List (NodeId × Nat)
  | ⟨id, children⟩ => (id, depth) :: levelsAll (depth + 1) children

def levelsAll (depth : Nat) : List Branch → List (NodeId × Nat)
  | [] => []
  | b :: rest => b.levels depth ++ levelsAll depth rest

end

/-- What is listed next is less deep. -/
def EndsBefore (depth : Nat) (u : List (NodeId × Nat)) : Prop := ∀ e ∈ u.head?, e.2 < depth

section

variable {depth : Nat} {u v : List (NodeId × Nat)}

lemma head?_levels_append (b : Branch) (depth : Nat) (u : List (NodeId × Nat)) :
    (b.levels depth ++ u).head? = some (b.id, depth) := by
  cases b
  rfl

lemma endsBefore_levelsAll_append (bs : List Branch) (hu : EndsBefore depth u) :
    EndsBefore (depth + 1) (levelsAll depth bs ++ u) := by
  cases bs with
  | nil => exact fun e he => Nat.lt_succ_of_lt (hu e he)
  | cons b rest =>
    intro e he
    rw [levelsAll, List.append_assoc, head?_levels_append, Option.mem_some] at he
    rw [← he]
    exact Nat.lt_succ_self depth

lemma not_endsBefore_levels_append (b : Branch) : ¬ EndsBefore depth (b.levels depth ++ u) := by
  intro h
  exact Nat.lt_irrefl _ (h _ (head?_levels_append b depth u))

mutual

theorem levels_append_inj (b b' : Branch) (depth : Nat) (u v : List (NodeId × Nat))
    (hu : EndsBefore (depth + 1) u) (hv : EndsBefore (depth + 1) v)
    (h : b.levels depth ++ u = b'.levels depth ++ v) : b = b' ∧ u = v := by
  match b, b' with
  | ⟨id, children⟩, ⟨id', children'⟩ =>
    obtain ⟨hid, hrest⟩ := List.cons.inj h
    obtain ⟨rfl, -⟩ := Prod.mk.inj hid
    obtain ⟨rfl, rfl⟩ := levelsAll_append_inj children children' (depth + 1) u v hu hv hrest
    exact ⟨rfl, rfl⟩

theorem levelsAll_append_inj (bs bs' : List Branch) (depth : Nat) (u v : List (NodeId × Nat))
    (hu : EndsBefore depth u) (hv : EndsBefore depth v)
    (h : levelsAll depth bs ++ u = levelsAll depth bs' ++ v) : bs = bs' ∧ u = v := by
  match bs, bs' with
  | [], [] => exact ⟨rfl, h⟩
  | [], b' :: rest' =>
    rw [levelsAll, levelsAll, List.nil_append, List.append_assoc] at h
    exact absurd (h ▸ hu) b'.not_endsBefore_levels_append
  | b :: rest, [] =>
    rw [levelsAll, levelsAll, List.nil_append, List.append_assoc] at h
    exact absurd (h ▸ hv) b.not_endsBefore_levels_append
  | b :: rest, b' :: rest' =>
    rw [levelsAll, levelsAll, List.append_assoc, List.append_assoc] at h
    obtain ⟨rfl, hrest⟩ := levels_append_inj b b' depth _ _ (endsBefore_levelsAll_append rest hu)
      (endsBefore_levelsAll_append rest' hv) h
    obtain ⟨rfl, rfl⟩ := levelsAll_append_inj rest rest' depth u v hu hv hrest
    exact ⟨rfl, rfl⟩

end

lemma levels_inj {b b' : Branch} (h : b.levels depth = b'.levels depth) : b = b' := by
  have hends : EndsBefore (depth + 1) [] := by simp [EndsBefore]
  exact (levels_append_inj b b' depth [] [] hends hends (congrArg (· ++ []) h)).1

end

end Branch

lemma Node.arguments_eq_of_bound_eq {n n' : Node} (h : n.bound = n'.bound) (name : String) :
    (n.arguments[name]?).map Reference.variableId =
      (n'.arguments[name]?).map Reference.variableId := by
  apply Option.ext
  intro v
  rw [Option.map_eq_some_iff, Option.map_eq_some_iff, ← mem_bound_iff, ← mem_bound_iff, h]

namespace Tree

/-- No name in the tree has a mark in it that outlines are written with. -/
def Legible (t : Tree) : Prop := ∀ x n, t.node? x = some n → n.Legible

/-- All names that the outline of a tree is written with. -/
def names (t : Tree) : List String :=
  t.nodes.toList.flatMap fun e => e.2.field :: e.2.type.name :: e.2.arguments.keys

lemma legible_of_names {t : Tree} (h : ∀ name ∈ t.names, LiveQuery.Legible name) : t.Legible := by
  intro x n hn
  have hnames : ∀ name ∈ n.field :: n.type.name :: n.arguments.keys, LiveQuery.Legible name := by
    intro name hname
    have hmem : (x, n) ∈ t.nodes.toList := Std.ExtTreeMap.mem_toList_iff_getElem?_eq_some.mpr hn
    exact h name (List.mem_flatMap.mpr ⟨(x, n), hmem, hname⟩)
  obtain ⟨hfield, htype, harguments⟩ : LiveQuery.Legible n.field ∧ LiveQuery.Legible n.type.name ∧
      ∀ name ∈ n.arguments.keys, LiveQuery.Legible name := by simpa using hnames
  refine ⟨hfield, htype, fun name r hr => harguments name ?_⟩
  rw [Std.ExtTreeMap.mem_keys, Std.ExtTreeMap.mem_iff_isSome_getElem?, hr]
  rfl

/-- The same nodes are in both trees, with the same links, and both say the same of them. -/
structure Alike (t t' : Tree) : Prop where
  contains_eq : ∀ x, t.contains x = t'.contains x
  parentOf_eq : ∀ x, t.parentOf x = t'.parentOf x
  childrenOf_eq : ∀ x, t.childrenOf x = t'.childrenOf x
  node_eq : ∀ x n n', t.node? x = some n → t'.node? x = some n' →
    n.depth = n'.depth ∧ n.field = n'.field ∧ n.type.name = n'.type.name ∧
    ∀ name : String, (n.arguments[name]?).map Reference.variableId =
      (n'.arguments[name]?).map Reference.variableId

/-- The nodes of a branch, each before what is below it. -/
def nodesOf (t : Tree) (b : Branch) : List Node := b.ids.filterMap t.node?

section

variable {root root' : TypeDef} {t t' : Tree} {x : NodeId} {n n' : Node} {b : Branch}

lemma mem_nodesOf : n ∈ t.nodesOf b ↔ ∃ x ∈ b.ids, t.node? x = some n :=
  List.mem_filterMap

lemma flatMap_lineAt (t : Tree) (b : Branch) : b.ids.flatMap t.lineAt = (t.nodesOf b).map Node.line := by
  rw [nodesOf, List.filterMap_eq_flatMap_toList, List.map_flatMap]
  rfl

lemma toList_outline (hlive : t.isLive) (hb : t.Carries b) (hid : b.id = .root) :
    t.outline.toList = (t.nodesOf b).flatMap fun n => n.line.toList := by
  rw [outline, outlineLines_eq hlive hb hid, flatMap_lineAt, String.toList_join, List.flatMap_map]

mutual

theorem WellFormed.levels_eq (h : t.WellFormed root) (b : Branch) (hb : t.Holds b) (n : Node)
    (hn : t.node? b.id = some n) :
    (t.nodesOf b).map (fun m => (m.id, m.depth)) = b.levels n.depth := by
  match b with
  | ⟨id, children⟩ =>
    obtain @⟨_, _, m, hm, hchildren, hparent, hbelow⟩ := hb
    obtain rfl : n = m := Option.some.inj (hn.symm.trans hm)
    rw [nodesOf, Branch.ids, List.filterMap_cons_some hm, List.map_cons, h.id_eq hm, Branch.levels,
      h.levelsAll_eq children hbelow _ fun b hb k hk => ?_]
    obtain ⟨m', hm', -, hdepth⟩ := h.parent_live hk ((parentOf_eq hk).symm.trans (hparent b hb))
    obtain rfl : n = m' := Option.some.inj (hm.symm.trans hm')
    exact hdepth

theorem WellFormed.levelsAll_eq (h : t.WellFormed root) (bs : List Branch)
    (hbs : ∀ b ∈ bs, t.Holds b) (depth : Nat)
    (hdepth : ∀ b ∈ bs, ∀ k, t.node? b.id = some k → k.depth = depth) :
    ((Branch.idsAll bs).filterMap t.node?).map (fun m => (m.id, m.depth)) =
      Branch.levelsAll depth bs := by
  match bs with
  | [] => rfl
  | b :: rest =>
    obtain ⟨hb, hrest⟩ := List.forall_mem_cons.mp hbs
    obtain ⟨hfirst, hlater⟩ := List.forall_mem_cons.mp hdepth
    obtain ⟨n, hn⟩ := hb.live
    have hlevels := h.levels_eq b hb n hn
    rw [hfirst n hn, nodesOf] at hlevels
    rw [Branch.idsAll, List.filterMap_append, List.map_append, hlevels,
      h.levelsAll_eq rest hrest depth hlater, Branch.levelsAll]

end

lemma Holds.same_children (hb : t.Holds b) (hb' : t'.Holds b) :
    ∀ x ∈ b.ids, t.childrenOf x = t'.childrenOf x := by
  induction b using Branch.induct with
  | mk id children ih =>
    obtain @⟨_, _, n, hn, hchildren, -, hbelow⟩ := hb
    obtain @⟨_, _, n', hn', hchildren', -, hbelow'⟩ := hb'
    intro x hx
    rw [Branch.ids, List.mem_cons, Branch.mem_idsAll] at hx
    obtain rfl | ⟨c, hc, hx⟩ := hx
    · rw [childrenOf_eq hn, childrenOf_eq hn', hchildren, hchildren']
    · exact ih c hc (hbelow c hc) (hbelow' c hc) x hx

lemma WellFormed.told_eq (h : t.WellFormed root) (h' : t'.WellFormed root')
    (htold : (t.nodesOf b).map Node.told = (t'.nodesOf b).map Node.told) (hx : x ∈ b.ids)
    (hn : t.node? x = some n) (hn' : t'.node? x = some n') : n.told = n'.told := by
  have hmem : n.told ∈ (t'.nodesOf b).map Node.told :=
    htold ▸ List.mem_map_of_mem (mem_nodesOf.mpr ⟨x, hx, hn⟩)
  obtain ⟨m, hm, hsame⟩ := List.mem_map.mp hmem
  obtain ⟨y, -, hy⟩ := mem_nodesOf.mp hm
  have hid : m.id = n.id := congrArg Told.id hsame
  rw [h'.id_eq hy, h.id_eq hn] at hid
  obtain rfl : n' = m := Option.some.inj (hn'.symm.trans (hid ▸ hy))
  exact hsame.symm

/-- The tree can be read from its outline. -/
structure Readable (root : TypeDef) (t : Tree) : Prop where
  wellFormed : t.WellFormed root
  isLive : t.isLive
  node : ∀ x n, t.node? x = some n → n.Readable

namespace Readable

lemma exists_root_branch (h : t.Readable root) : ∃ b : Branch, b.id = .root ∧ t.Carries b := by
  obtain ⟨r, hr⟩ := isLive_iff.mp h.isLive
  exact h.wellFormed.exists_branch hr

lemma levels_root (h : t.Readable root) (hb : t.Holds b) (hid : b.id = .root) :
    (t.nodesOf b).map (fun n => (n.id, n.depth)) = b.levels 0 := by
  obtain ⟨r, hr⟩ := isLive_iff.mp h.isLive
  rw [h.wellFormed.levels_eq b hb r (hid ▸ hr), (h.wellFormed.root_eq hr).2.1]

lemma nodes (h : t.Readable root) (b : Branch) : ∀ n ∈ t.nodesOf b, n.Readable := by
  intro n hn
  obtain ⟨x, -, hx⟩ := mem_nodesOf.mp hn
  exact h.node x n hx

/-- Trees of one outline have their nodes in one branch, and say the same of them. -/
lemma exists_branch_of_outline (h : t.Readable root) (h' : t'.Readable root')
    (htext : t.outline = t'.outline) : ∃ b : Branch, b.id = .root ∧ t.Carries b ∧ t'.Carries b ∧
      (t.nodesOf b).map Node.told = (t'.nodesOf b).map Node.told := by
  obtain ⟨b, hid, hb⟩ := h.exists_root_branch
  obtain ⟨b', hid', hb'⟩ := h'.exists_root_branch
  have htold : (t.nodesOf b).map Node.told = (t'.nodesOf b').map Node.told := by
    apply Node.told_of_lines (h.nodes b) (h'.nodes b')
    rw [← toList_outline h.isLive hb hid, ← toList_outline h'.isLive hb' hid', htext]
  have hlevels := congrArg (List.map fun e : Told => (e.id, e.depth)) htold
  rw [List.map_map, List.map_map] at hlevels
  obtain rfl : b = b' := Branch.levels_inj ((h.levels_root hb.holds hid).symm.trans
    (hlevels.trans (h'.levels_root hb'.holds hid')))
  exact ⟨b, hid, hb, hb', htold⟩

theorem alike_of_outline (h : t.Readable root) (h' : t'.Readable root')
    (htext : t.outline = t'.outline) : t.Alike t' := by
  obtain ⟨b, hid, hb, hb', htold⟩ := h.exists_branch_of_outline h' htext
  have hmem := h.wellFormed.mem_ids_iff h.isLive hb hid
  have hmem' := h'.wellFormed.mem_ids_iff h'.isLive hb' hid
  have hcontains : ∀ x, t.contains x = t'.contains x := by
    intro x
    rw [Bool.eq_iff_iff, ← hmem, hmem']
  have hchildren : ∀ x, t.childrenOf x = t'.childrenOf x := by
    intro x
    by_cases hx : x ∈ b.ids
    · exact hb.holds.same_children hb'.holds x hx
    · have habsent := mt (hmem x).mpr hx
      have habsent' := mt (hmem' x).mpr hx
      rw [contains_eq_isSome, Option.not_isSome_iff_eq_none] at habsent habsent'
      rw [childrenOf, habsent, childrenOf, habsent']
  refine ⟨hcontains, fun x => ?_, hchildren, fun x n n' hn hn' => ?_⟩
  · apply Option.ext
    intro p
    rw [← h.wellFormed.mem_children_iff, hchildren, h'.wellFormed.mem_children_iff]
  · have hx : x ∈ b.ids := (hmem x).mpr (contains_iff.mpr ⟨n, hn⟩)
    have hsame := h.wellFormed.told_eq h'.wellFormed htold hx hn hn'
    exact ⟨congrArg Told.depth hsame, congrArg Told.field hsame, congrArg Told.type hsame,
      Node.arguments_eq_of_bound_eq (congrArg Told.bound hsame)⟩

end Readable

end

end Tree

namespace Server

section

variable {setting : Setting} {root : TypeDef} {count k : Nat} {cs : List (Nat × Command)}
  {a : Session} {n : Node}

/-- The root stays as it was made, but for its children. -/
theorem root_of_run (hk : ((start setting root count).run cs).sessions[k]? = some a)
    (hn : a.tree.node? .root = some n) : n.lasting =
      { id := .root, parent := none, depth := 0, field := "", type := .defined root,
        hub := ⟨0, .root⟩ } := by
  induction cs using List.reverseRecOn generalizing a n with
  | nil =>
    obtain rfl := List.eq_of_mem_replicate (List.mem_of_getElem? hk)
    rw [Session.start, Tree.node?_ofRoot, if_pos rfl, Option.some.injEq] at hn
    rw [← hn]
    rfl
  | append_singleton cs c ih =>
    obtain ⟨hparent, -⟩ := ((sound_run setting root count (cs ++ [c])).wellFormed k a hk).root_eq hn
    rw [run_concat] at hk
    obtain ⟨b, hb, hstems⟩ := (sound_run setting root count cs).stems_step hk
    obtain ⟨m, hm, hsame⟩ | ⟨p, sel, v, -, m, v', hsprout, hsame⟩ := hstems .root n hn
    · exact hsame.symm.trans (ih hb hm)
    · obtain ⟨q, type, held, -, -, rfl, -⟩ := Tree.admits_of_sprout hsprout
      obtain ⟨-, hmade, -⟩ := Node.lasting_eq_iff.mp hsame
      rw [hparent] at hmade
      cases hmade

lemma readable_of_run (hk : ((start setting root count).run cs).sessions[k]? = some a)
    (hlive : a.tree.isLive) (hlegible : a.tree.Legible) : a.tree.Readable root := by
  have hw := (sound_run setting root count cs).wellFormed k a hk
  refine ⟨hw, hlive, fun x n hn => ⟨hlegible x n hn, fun hid => ?_, ?_⟩⟩
  · rw [hw.id_eq hn] at hid
    exact congrArg Node.field (root_of_run hk (hid ▸ hn))
  · exact Node.line_eq (hw.parent_eq_none_iff hn)

end

/-- Of two trees without marks in their names, whatever was done to them, the outlines are equal only if
they have the same nodes, with the same links, depths, fields, types and arguments. -/
theorem outline_determines_tree (setting setting' : Setting) (root root' : TypeDef)
    (count count' : Nat) (cs cs' : List (Nat × Command)) (k k' : Nat) (a a' : Session)
    (hk : ((start setting root count).run cs).sessions[k]? = some a)
    (hk' : ((start setting' root' count').run cs').sessions[k']? = some a')
    (hlive : a.tree.isLive) (hlive' : a'.tree.isLive) (hlegible : a.tree.Legible)
    (hlegible' : a'.tree.Legible) (htext : a.tree.outline = a'.tree.outline) :
    a.tree.Alike a'.tree :=
  (readable_of_run hk hlive hlegible).alike_of_outline (readable_of_run hk' hlive' hlegible') htext

namespace Sample

/-- The same tree comes to be in another way, with other values and within narrower limits. -/
def redated : List (Nat × Command) :=
  [(0, .put ⟨12⟩ (.int 5)), (0, .put ⟨7⟩ .null),
    (0, .add .root { id := ⟨30⟩, field := "friend",
                     arguments := [⟨"most", ⟨7⟩⟩, ⟨"since", ⟨7⟩⟩, ⟨"most", ⟨12⟩⟩] }),
    (0, .add .root { id := ⟨5⟩, field := "name" }), (0, .add ⟨30⟩ { id := ⟨4⟩, field := "name" })]

def narrow : Setting := { setting with limits := ⟨some 2, some 4⟩ }

def datedNames : List String :=
  ["", "Person", "name", "String", "name", "String", "friend", "Person", "most", "since"]

end Sample

theorem outline_determines_tree_dated : ∃ a a' : Session,
    ((start Sample.setting Sample.person 1).run Sample.dated).sessions[0]? = some a ∧
    ((start Sample.narrow Sample.person 1).run Sample.redated).sessions[0]? = some a' ∧
    a.tree.isLive ∧ a'.tree.isLive ∧ a.tree.Legible ∧ a'.tree.Legible ∧
    a.tree.outline = a'.tree.outline ∧ a.tree.nextHub ≠ a'.tree.nextHub ∧ a.tree.Alike a'.tree := by
  have hend : (((start Sample.setting Sample.person 1).run Sample.dated).sessions[0]?).map
      (fun a => (a.tree.isLive, a.tree.names, a.tree.outline, a.tree.nextHub)) =
        some (true, Sample.datedNames, Sample.datedText, 5) := by
    decide +kernel
  have hend' : (((start Sample.narrow Sample.person 1).run Sample.redated).sessions[0]?).map
      (fun a => (a.tree.isLive, a.tree.names, a.tree.outline, a.tree.nextHub)) =
        some (true, Sample.datedNames, Sample.datedText, 4) := by
    decide +kernel
  have hnames : ∀ name ∈ Sample.datedNames, Legible name := by decide
  obtain ⟨a, hk, hend⟩ := Option.map_eq_some_iff.mp hend
  obtain ⟨a', hk', hend'⟩ := Option.map_eq_some_iff.mp hend'
  simp only [Prod.mk.injEq] at hend hend'
  obtain ⟨hlive, hlisted, htext, hnext⟩ := hend
  obtain ⟨hlive', hlisted', htext', hnext'⟩ := hend'
  have hlegible := Tree.legible_of_names (hlisted ▸ hnames)
  have hlegible' := Tree.legible_of_names (hlisted' ▸ hnames)
  have hsame := htext.trans htext'.symm
  have hdiffer : a.tree.nextHub ≠ a'.tree.nextHub := by
    rw [hnext, hnext']
    decide
  exact ⟨a, a', hk, hk', hlive, hlive', hlegible, hlegible', hsame, hdiffer,
    outline_determines_tree Sample.setting Sample.narrow Sample.person Sample.person 1 1
      Sample.dated Sample.redated 0 0 a a' hk hk' hlive hlive' hlegible hlegible' hsame⟩

end Server

end LiveQuery
