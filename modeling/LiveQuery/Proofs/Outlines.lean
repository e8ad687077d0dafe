import LiveQuery.Proofs.ByteOrder
import LiveQuery.Proofs.Disposal
import LiveQuery.Tree.Outline

/-!
# Outlines by recursion

The outline is written by a walk that keeps a list of the nodes to come. What it writes is what a recursion
over the links says: the line of a node, indented by two spaces for each link between the root and the node,
and then what the recursion says for its children, in order. Every node has one line.
-/

namespace LiveQuery

namespace Node

/-- The arguments in ascending order of their names, each with the variable it is bound to. -/
def bound (n : Node) : List (String × VariableId) :=
  n.arguments.toList.map fun e => (e.1, e.2.variableId)

/-- The line of a node `level` links below the root, with the arguments as they are listed. -/
def lineWith (n : Node) (level : Nat) (bound : List (String × VariableId)) : String :=
  String.ofList (List.replicate (2 * level) ' ') ++ "#" ++ n.id.index.toNat.repr ++ " " ++
    (if n.id = .root then "" else n.field ++ ": ") ++ n.type.name ++
    (if bound = [] then "" else " (" ++
      ", ".intercalate (bound.map fun a => a.1 ++ "=$" ++ a.2.index.toNat.repr) ++ ")") ++ "\n"

/-- `text` is the line of a node `level` links below the root: all its arguments are listed, by the bytes of
their names. -/
def Reads (n : Node) (level : Nat) (text : String) : Prop :=
  ∃ bound : List (String × VariableId),
    bound.Pairwise (fun a b => utf8 a.1 < utf8 b.1) ∧
    (∀ name v, (name, v) ∈ bound ↔ ∃ r, n.arguments[name]? = some r ∧ r.variableId = v) ∧
    text = n.lineWith level bound

section

variable {n : Node}

lemma bound_ascending (n : Node) : n.bound.Pairwise fun a b => utf8 a.1 < utf8 b.1 :=
  List.pairwise_map.mpr (toList_ascending n.arguments)

lemma mem_bound_iff {name : String} {v : VariableId} :
    (name, v) ∈ n.bound ↔ ∃ r, n.arguments[name]? = some r ∧ r.variableId = v := by
  simp only [bound, List.mem_map, Prod.exists, Prod.mk.injEq,
    Std.ExtTreeMap.mem_toList_iff_getElem?_eq_some]
  constructor
  · rintro ⟨name, r, hr, rfl, rfl⟩
    exact ⟨r, hr, rfl⟩
  · rintro ⟨r, hr, rfl⟩
    exact ⟨name, r, hr, rfl, rfl⟩

lemma eq_bound {bound : List (String × VariableId)}
    (hascending : bound.Pairwise fun a b => utf8 a.1 < utf8 b.1)
    (hmem : ∀ name v, (name, v) ∈ bound ↔ ∃ r, n.arguments[name]? = some r ∧ r.variableId = v) :
    bound = n.bound := by
  have hnodup : ∀ {l : List (String × VariableId)},
      (l.Pairwise fun a b => utf8 a.1 < utf8 b.1) → l.Nodup := by
    intro l hl
    refine hl.imp ?_
    rintro a b h rfl
    exact List.lt_irrefl _ h
  refine List.Perm.eq_of_pairwise (fun a b _ _ h h' => absurd h' (List.lt_asymm h)) hascending
    n.bound_ascending ?_
  rw [List.perm_ext_iff_of_nodup (hnodup hascending) (hnodup n.bound_ascending)]
  rintro ⟨name, v⟩
  rw [hmem, mem_bound_iff]

lemma indent_eq (depth : Nat) : String.join (List.replicate depth "  ") =
    String.ofList (List.replicate (2 * depth) ' ') := by
  apply String.toList_inj.mp
  rw [String.toList_join, String.toList_ofList, Nat.mul_comm]
  induction depth with
  | zero => rfl
  | succ depth ih =>
    rw [List.replicate_succ, List.flatMap_cons, ih, Nat.succ_mul, Nat.add_comm, List.replicate_add]
    rfl

lemma argumentText_eq (n : Node) : n.argumentText = if n.bound = [] then "" else " (" ++
    ", ".intercalate (n.bound.map fun a => a.1 ++ "=$" ++ a.2.index.toNat.repr) ++ ")" := by
  have hempty : n.arguments.isEmpty = true ↔ n.bound = [] := by
    rw [bound, List.map_eq_nil_iff, ← List.isEmpty_iff, Std.ExtTreeMap.isEmpty_toList]
  have hargument : ∀ e : String × Reference, e.1 ++ "=" ++ toString e.2.variableId =
      e.1 ++ "=$" ++ e.2.variableId.index.toNat.repr := by
    intro e
    apply String.toList_inj.mp
    simp [toString]
  simp only [argumentText, hempty, hargument, bound, List.map_map]
  rfl

lemma line_eq (hparent : n.parent = none ↔ n.id = .root) : n.line = n.lineWith n.depth n.bound := by
  rw [line, lineWith, indent_eq, argumentText_eq]
  cases hp : n.parent with
  | none => simp [hparent.mp hp, toString, String.append_assoc]
  | some p =>
    have hid : n.id ≠ .root := by simp [← hparent, hp]
    simp [hid, toString, String.append_assoc]

lemma reads_iff (hparent : n.parent = none ↔ n.id = .root) (text : String) :
    n.Reads n.depth text ↔ text = n.line := by
  rw [line_eq hparent]
  constructor
  · rintro ⟨bound, hascending, hmem, rfl⟩
    rw [eq_bound hascending hmem]
  · rintro rfl
    exact ⟨n.bound, n.bound_ascending, fun _ _ => mem_bound_iff, rfl⟩

end

end Node

namespace Tree

open Worklist

/-- The walk that writes the outline from a node on, after some steps. -/
def writing (t : Tree) (x : NodeId) (steps : Nat) : Worklist NodeId Unit String :=
  Worklist.run t.writeLine steps ⟨[x], (), #[]⟩

/-- The line of a node, if it is there. -/
def lineAt (t : Tree) (x : NodeId) : List String := (t.node? x).toList.map Node.line

/-- The lines of a branch, one after the other. -/
def sketch (t : Tree) (b : Branch) : String := String.join (b.ids.flatMap t.lineAt)

/-- What `R` says for a node is its line, and then what it says for its children, in order. -/
def Outlines (t : Tree) (R : NodeId → String) : Prop :=
  ∀ x n l, t.node? x = some n → t.Path .root l x →
    ∃ line, n.Reads l.length line ∧ R x = line ++ String.join (n.children.map R)

/-- The outline is the one that the recursion gives, and the walk meets every node once. -/
structure Outlined (t : Tree) : Prop where
  recursive : ∀ R, t.Outlines R → t.outline = R .root
  exists_recursion : ∃ R, t.Outlines R
  lines : ∃ order : List NodeId, order.Nodup ∧ (∀ x, x ∈ order ↔ t.contains x) ∧
    List.Forall₂ (fun x line => ∃ n l, t.node? x = some n ∧ t.Path .root l x ∧
      n.Reads l.length line) order t.outlineLines
  /-- No node that the walk takes up is missing. -/
  present : ∀ steps x rest, (t.writing .root steps).pending = x :: rest → t.contains x
  finished : ∀ steps, t.size ≤ steps →
    (t.writing .root steps).pending = [] ∧ (t.writing .root steps).output.toList = t.outlineLines

section

variable {root : TypeDef} {t : Tree} {x : NodeId} {n : Node} {R : NodeId → String}

/-! ### The walk -/

lemma lineAt_eq (hn : t.node? x = some n) : t.lineAt x = [n.line] := by
  simp [lineAt, hn]

lemma step_writeLine (hn : t.node? x = some n) (rest : List NodeId) (output : Array String) :
    Worklist.step t.writeLine ⟨x :: rest, (), output⟩ =
      ⟨n.children ++ rest, (), output ++ t.lineAt x⟩ := by
  simp [step_cons, writeLine, hn, lineAt_eq hn]

mutual

/-- The walk takes up the nodes of a branch, all of them there, writes their lines and goes on with what was
pending behind. -/
theorem takes_writeLine_branch (b : Branch) (hb : t.Holds b) (rest : List NodeId)
    (output : Array String) :
    Takes t.writeLine (fun x _ => t.contains x) ⟨b.id :: rest, (), output⟩ b.ids
      ⟨rest, (), output ++ b.ids.flatMap t.lineAt⟩ := by
  match b with
  | ⟨id, children⟩ =>
    obtain @⟨_, _, n, hn, hchildren, -, hbelow⟩ := hb
    refine .next (contains_iff.mpr ⟨n, hn⟩) ?_
    rw [Branch.id, step_writeLine hn, hchildren, Branch.ids, List.flatMap_cons, ← append_list_assoc]
    exact takes_writeLine_branches children hbelow rest _

theorem takes_writeLine_branches (bs : List Branch) (hbs : ∀ b ∈ bs, t.Holds b)
    (rest : List NodeId) (output : Array String) :
    Takes t.writeLine (fun x _ => t.contains x) ⟨bs.map Branch.id ++ rest, (), output⟩
      (Branch.idsAll bs) ⟨rest, (), output ++ (Branch.idsAll bs).flatMap t.lineAt⟩ := by
  match bs with
  | [] => simpa [Branch.idsAll] using .refl _
  | b :: bs =>
    obtain ⟨hb, hbs⟩ := List.forall_mem_cons.mp hbs
    rw [Branch.idsAll, List.flatMap_append, ← append_list_assoc]
    exact (takes_writeLine_branch b hb _ output).trans (takes_writeLine_branches bs hbs rest _)

end

lemma writing_eq {b : Branch} (hb : t.Holds b) {steps : Nat} (hsteps : b.ids.length ≤ steps) :
    t.writing b.id steps = ⟨[], (), (b.ids.flatMap t.lineAt).toArray⟩ := by
  rw [writing, (takes_writeLine_branch b hb [] #[]).run_eq rfl hsteps]
  simp

lemma WellFormed.run_writeLine_present (h : t.WellFormed root) (steps : Nat)
    {w : Worklist NodeId Unit String} (hw : ∀ y ∈ w.pending, t.contains y) :
    ∀ y ∈ (run t.writeLine steps w).pending, t.contains y := by
  induction steps generalizing w with
  | zero => exact hw
  | succ steps ih =>
    rw [run_succ]
    apply ih
    obtain ⟨pending, ⟨⟩, output⟩ := w
    cases pending with
    | nil => exact hw
    | cons y rest =>
      obtain ⟨hy, hrest⟩ := List.forall_mem_cons.mp hw
      obtain ⟨m, hm⟩ := contains_iff.mp hy
      rw [step_writeLine hm]
      intro z hz
      obtain hz | hz := List.mem_append.mp hz
      · obtain ⟨k, hk, -⟩ := h.child_live hm hz
        exact contains_iff.mpr ⟨k, hk⟩
      · exact hrest z hz

/-! ### The recursion -/

lemma join_flatMap {α : Type} (l : List α) (f : α → List String) :
    String.join (l.flatMap f) = String.join (l.map fun a => String.join (f a)) := by
  induction l with
  | nil => rfl
  | cons a rest ih => rw [List.flatMap_cons, String.join_append, ih, List.map_cons, String.join_cons]

lemma sketch_mk {children : List Branch} (hn : t.node? x = some n) :
    t.sketch ⟨x, children⟩ = n.line ++ String.join (children.map t.sketch) := by
  rw [sketch, Branch.ids, List.flatMap_cons, lineAt_eq hn, String.join_append, Branch.idsAll_eq,
    List.flatMap_assoc, join_flatMap, String.join_cons, String.join_nil, String.append_empty]
  rfl

lemma WellFormed.parent_eq_none_iff (h : t.WellFormed root) (hn : t.node? x = some n) :
    n.parent = none ↔ n.id = .root := by
  rw [h.id_eq hn]
  refine ⟨h.eq_root hn, ?_⟩
  rintro rfl
  exact (h.root_eq hn).1

lemma WellFormed.reads_iff (h : t.WellFormed root) {l : List NodeId} (hn : t.node? x = some n)
    (hl : t.Path .root l x) (text : String) : n.Reads l.length text ↔ text = n.line := by
  obtain ⟨r, hr⟩ := h.root_live hn
  obtain ⟨n', hn', hdepth⟩ := h.path_depth hl hr
  obtain rfl : n = n' := Option.some.inj (hn.symm.trans hn')
  rw [(h.root_eq hr).2.1, Nat.zero_add] at hdepth
  rw [← hdepth]
  exact Node.reads_iff (h.parent_eq_none_iff hn) text

/-- The recursion has one solution at most. -/
lemma Outlines.eq (hR : t.Outlines R) (h : t.WellFormed root) {b : Branch} (hb : t.Holds b)
    {l : List NodeId} (hl : t.Path .root l b.id) : R b.id = t.sketch b := by
  induction b using Branch.induct generalizing l with
  | mk id children ih =>
    obtain @⟨_, _, n, hn, hchildren, hparent, hbelow⟩ := hb
    obtain ⟨line, hline, hRid⟩ := hR id n l hn hl
    have hrest : ∀ b ∈ children, R b.id = t.sketch b := fun b hb =>
      ih b hb (hbelow b hb) (hl.snoc (h.mem_children_iff.mpr (hparent b hb)))
    rw [(h.reads_iff hn hl line).mp hline, hchildren, List.map_map] at hRid
    rw [Branch.id, hRid, sketch_mk hn, ← List.map_congr_left hrest]
    rfl

lemma WellFormed.written_eq (h : t.WellFormed root) {b : Branch} (hb : t.Holds b) :
    String.join (t.writing b.id t.size).output.toList = t.sketch b := by
  obtain ⟨n, hn⟩ := hb.live
  rw [writing_eq hb ((h.carries hb).length_le hn)]
  rfl

lemma WellFormed.outlines (h : t.WellFormed root) :
    t.Outlines fun x => String.join (t.writing x t.size).output.toList := by
  intro x n l hn hl
  refine ⟨n.line, (h.reads_iff hn hl _).mpr rfl, ?_⟩
  obtain ⟨b, rfl, hb⟩ := h.exists_branch hn
  obtain @⟨id, children, n', hn', hchildren, -, hbelow⟩ := hb.holds
  obtain rfl : n = n' := Option.some.inj (hn.symm.trans hn')
  have hrest : ∀ b ∈ children, String.join (t.writing b.id t.size).output.toList = t.sketch b :=
    fun b hb => h.written_eq (hbelow b hb)
  dsimp only
  rw [h.written_eq hb.holds, sketch_mk hn', ← List.map_congr_left hrest, hchildren, List.map_map]
  rfl

lemma WellFormed.lines (h : t.WellFormed root) {ids : List NodeId}
    (hids : ∀ x ∈ ids, t.contains x) : List.Forall₂ (fun x line => ∃ n l, t.node? x = some n ∧
      t.Path .root l x ∧ n.Reads l.length line) ids (ids.flatMap t.lineAt) := by
  induction ids with
  | nil => exact .nil
  | cons x rest ih =>
    obtain ⟨hx, hrest⟩ := List.forall_mem_cons.mp hids
    obtain ⟨n, hn⟩ := contains_iff.mp hx
    obtain ⟨l, hl⟩ := h.path_of_below (h.below_root hn)
    rw [List.flatMap_cons, lineAt_eq hn]
    exact .cons ⟨n, l, hn, hl, (h.reads_iff hn hl _).mpr rfl⟩ (ih hrest)

lemma WellFormed.mem_ids_iff (h : t.WellFormed root) (hlive : t.isLive) {b : Branch}
    (hb : t.Carries b) (hid : b.id = .root) (x : NodeId) : x ∈ b.ids ↔ t.contains x := by
  obtain ⟨r, hr⟩ := isLive_iff.mp hlive
  rw [hb.mem_ids, hid, contains_iff]
  exact ⟨fun hx => hx.live hr, fun ⟨_, hn⟩ => h.below_root hn⟩

lemma writing_root (hlive : t.isLive) {b : Branch} (hb : t.Carries b) (hid : b.id = .root)
    {steps : Nat} (hsteps : t.size ≤ steps) :
    t.writing .root steps = ⟨[], (), (b.ids.flatMap t.lineAt).toArray⟩ := by
  obtain ⟨r, hr⟩ := isLive_iff.mp hlive
  rw [← hid] at hr ⊢
  exact writing_eq hb.holds (Nat.le_trans (hb.length_le hr) hsteps)

lemma outlineLines_eq (hlive : t.isLive) {b : Branch} (hb : t.Carries b) (hid : b.id = .root) :
    t.outlineLines = b.ids.flatMap t.lineAt :=
  congrArg (·.output.toList) (writing_root hlive hb hid (Nat.le_refl _))

theorem WellFormed.outlined (h : t.WellFormed root) (hlive : t.isLive) : t.Outlined := by
  obtain ⟨r, hr⟩ := isLive_iff.mp hlive
  obtain ⟨b, hid, hb⟩ := h.exists_branch hr
  have hmem := h.mem_ids_iff hlive hb hid
  have hlines := outlineLines_eq hlive hb hid
  refine ⟨fun R hR => ?_, ⟨_, h.outlines⟩, ⟨b.ids, hb.nodup, hmem, ?_⟩, fun steps x rest hx => ?_,
    fun steps hsteps => ?_⟩
  · have hpath : t.Path .root [] b.id := hid ▸ Path.nil
    rw [outline, hlines, ← hid, hR.eq h hb.holds hpath, sketch]
  · rw [hlines]
    exact h.lines fun x hx => (hmem x).mp hx
  · have hstart : ∀ y ∈ [NodeId.root], t.contains y := List.forall_mem_singleton.mpr hlive
    exact h.run_writeLine_present steps hstart x (hx ▸ List.mem_cons_self)
  · rw [writing_root hlive hb hid hsteps, hlines]
    exact ⟨rfl, rfl⟩

end

end Tree

namespace Server

/-- As long as a session's tree lives, whatever was done to it, its outline is that of the recursion. -/
theorem outline_recursive (setting : Setting) (root : TypeDef) (count : Nat)
    (cs : List (Nat × Command)) (k : Nat) (a : Session)
    (hk : ((start setting root count).run cs).sessions[k]? = some a) (hlive : a.tree.isLive) :
    a.tree.Outlined :=
  ((sound_run setting root count cs).wellFormed k a hk).outlined hlive

namespace Sample

def introduced : Selection where
  id := ⟨30⟩
  field := "friend"
  arguments := [⟨"since", year⟩, ⟨"most", ⟨12⟩⟩]
  children := [{ id := ⟨4⟩, field := "name" }]

/-- A person with two arguments and a name is added, and an earlier child of the root is removed. -/
def dated : List (Nat × Command) :=
  watched ++ [(0, .put ⟨12⟩ (.int 3)), (0, .add .root introduced),
    (0, .add .root { id := ⟨5⟩, field := "name" }), (0, .remove ⟨1⟩)]

def datedText : String :=
  "#0 Person\n  #30 friend: Person (most=$12, since=$7)\n    #4 name: String\n  #5 name: String\n"

end Sample

theorem outline_recursive_dated : ∃ a : Session,
    ((start Sample.setting Sample.person 1).run Sample.dated).sessions[0]? = some a ∧
    a.tree.isLive ∧ a.tree.Outlined ∧ a.tree.outline = Sample.datedText := by
  have hend : (((start Sample.setting Sample.person 1).run Sample.dated).sessions[0]?).map
      (fun a => (a.tree.isLive, a.tree.outline)) = some (true, Sample.datedText) := by
    decide +kernel
  obtain ⟨a, hk, hend⟩ := Option.map_eq_some_iff.mp hend
  obtain ⟨hlive, htext⟩ := Prod.mk.inj hend
  exact ⟨a, hk, hlive, outline_recursive Sample.setting Sample.person 1 Sample.dated 0 a hk hlive,
    htext⟩

end Server

end LiveQuery
