import LiveQuery.Proofs.Composition
import LiveQuery.Proofs.Origins

/-!
# Bounds

No tree is larger or deeper than its limits allow, at any moment, the middle of an addition included
that is refused in the end. An insertion never calls itself for a node that would be more than one
step too deep, however deep a selection is nested.
-/

namespace LiveQuery

lemma Node.MadeFor.depth_le {s : Setting} {n : Node} {p : NodeId} {sel : Selection} {v : Tree}
    (h : n.MadeFor s p sel v) : ∀ limit ∈ s.limits.depth, n.depth ≤ limit := by
  obtain ⟨m, v', hsprout, hsame⟩ := h
  obtain ⟨k, type, held, -, hadmits, rfl, -⟩ := Tree.admits_of_sprout hsprout
  obtain ⟨-, -, hdepth, -⟩ := lasting_eq_iff.mp hsame
  exact fun limit hlimit => hdepth ▸ hadmits.depth_le limit hlimit

namespace Tree

/-- The tree is not larger or deeper than is allowed. A root alone is always allowed. -/
structure Respects (t : Tree) (l : Limits) : Prop where
  size_le : ∀ limit ∈ l.nodes, t.size ≤ max 1 limit
  depth_le : ∀ limit ∈ l.depth, ∀ x n, t.node? x = some n → n.depth ≤ limit

section

variable {root : TypeDef} {s : Setting} {t t' u v : Tree} {parent p : NodeId}
  {sel sel' : Selection} {n : Node} {ps : List Publication} {c : Command}
  {called : NodeId → Selection → Tree → Prop}

lemma respects_ofRoot (root : TypeDef) (l : Limits) : (ofRoot root).Respects l where
  size_le limit _ := by
    have hone : (ofRoot root).size = 1 := by simp [ofRoot, size, Std.ExtTreeMap.size_insert]
    exact hone ▸ Nat.le_max_left 1 limit
  depth_le limit _ x n hn := by
    rw [node?_ofRoot] at hn
    split at hn
    · cases hn
      exact Nat.zero_le limit
    · cases hn

lemma respects_discard (t : Tree) (l : Limits) : t.discard.Respects l where
  size_le limit _ := by simp [size, discard]
  depth_le limit _ x n hn := by simp [node?, discard] at hn

namespace Respects

lemma congr {l : Limits} (h : t.Respects l) (hnodes : t'.nodes = t.nodes) : t'.Respects l where
  size_le := by
    rw [size, hnodes]
    exact h.size_le
  depth_le limit hlimit x n hn := by
    rw [node?_congr hnodes] at hn
    exact h.depth_le limit hlimit x n hn

/-- Nodes that are made do not break the limit of depth, so that their number alone matters. -/
lemma of_stems (h : t.Respects s.limits) (hstems : Stems s t called t')
    (hsize : ∀ limit ∈ s.limits.nodes, t'.size ≤ max 1 limit) : t'.Respects s.limits where
  size_le := hsize
  depth_le limit hlimit x n hn := by
    obtain ⟨m, hm, hsame⟩ | ⟨p, sel, v, -, hmade⟩ := hstems x n hn
    · obtain ⟨-, -, hdepth, -⟩ := Node.lasting_eq_iff.mp hsame
      exact hdepth ▸ h.depth_le limit hlimit x m hm
    · exact hmade.depth_le limit hlimit

lemma attach {id : NodeId} {field : String} {arguments : List Argument} (h : t.Respects s.limits)
    (hsprout : t.sprout s parent id field arguments = (.ok n, t')) :
    (t'.attach parent n).Respects s.limits ∧
      ∀ limit ∈ s.limits.nodes, (t'.attach parent n).size ≤ limit := by
  have hstems := stems_attach [] hsprout
  obtain ⟨m, type, held, -, hadmits, rfl, rfl⟩ := admits_of_sprout hsprout
  have hsize : ∀ limit ∈ s.limits.nodes, ((t.charged arguments).attach parent
      (t.sprouted m id parent field type held)).size ≤ limit := by
    intro limit hlimit
    rw [size_planted hadmits.absent parent arguments _ rfl]
    exact hadmits.size_lt limit hlimit
  refine ⟨h.of_stems hstems fun limit hlimit => ?_, hsize⟩
  exact Nat.le_trans (hsize limit hlimit) (Nat.le_max_right ..)

theorem calls (h : t.Respects s.limits) (hcalls : Calls s parent sel t p sel' v) :
    v.Respects s.limits := by
  induction hcalls with
  | here => exact h
  | @nested parent id p field arguments before after child sel' t t' u v n ps made earlier _ ih =>
    obtain ⟨hplanted, hsize⟩ := h.attach made
    refine ih (hplanted.of_stems (stems_growAll id before earlier) fun limit hlimit => ?_)
    exact Nat.le_trans (size_le_of_growAll id before earlier limit hlimit (hsize limit hlimit))
      (Nat.le_max_right ..)

lemma add (h : t.Respects s.limits) (hw : t.WellFormed root) (target : NodeId) (sel : Selection) :
    (t.add s target sel).tree.Respects s.limits := by
  have hrefused := hw.grows (s := s) target sel
  rw [Tree.add]
  rcases hgrow : grow s target sel t with ⟨e | ⟨⟩, t', ps⟩
  · rw [hgrow] at hrefused
    exact h.congr hrefused.nodes_eq
  · refine h.of_stems (stems_grow target sel hgrow) fun limit hlimit => ?_
    exact Nat.le_trans (size_le_of_grow target sel hgrow limit hlimit) (Nat.le_max_right ..)

lemma of_without {gone : List NodeId} (h : t.Respects s.limits) (hgone : t.Without gone t') :
    t'.Respects s.limits := by
  have hstems : Stems s t (fun _ _ _ => False) t' := Stems.of_without hgone
  have hsize : t'.size ≤ t.size := by
    refine size_le_of_live fun x hx => ?_
    rw [contains_eq_isSome, Option.isSome_iff_exists] at hx ⊢
    obtain ⟨n, hn⟩ := hx
    obtain ⟨m, hm, -⟩ | ⟨_, _, _, hnone, -⟩ := hstems x n hn
    · exact ⟨m, hm⟩
    · exact hnone.elim
  exact h.of_stems hstems fun limit hlimit => Nat.le_trans hsize (h.size_le limit hlimit)

lemma dismantle (h : t.Respects s.limits) (hw : t.WellFormed root) (id : NodeId) :
    (t.dismantle id).tree.Respects s.limits := by
  cases hn : t.node? id with
  | none =>
    rw [dismantle_of_absent hn]
    exact h
  | some n =>
    obtain ⟨gone, -, hwithout⟩ := hw.without_dismantle hn
    exact h.of_without hwithout

end Respects

theorem compositional_respects (root : TypeDef) (s : Setting) :
    Compositional root s fun t _ t' => t.Respects s.limits → t'.Respects s.limits where
  bindings _ _ h := h.congr rfl
  trans _ _ _ hfirst hlater h := hlater (hfirst h)
  add hw target sel h := h.add hw target sel
  dismantle hw id h := h.dismantle hw id

lemma Respects.begins (h : t.Respects s.limits) (hw : t.WellFormed root)
    (hbegins : c.Begins s t p sel u) : u.Respects s.limits := by
  have hR := compositional_respects root s
  induction hbegins with
  | add _ => exact h
  | link _ => exact h
  | @change batch before after target sel t u split made live =>
    have hput := hw.evolves_bindings fun _ hb => hb.putAll batch.assignments
    rw [← made]
    exact hR.changeAll hput.wellFormed 0 before (h.congr rfl)
  | @later target first id p count field sel t t' u ps added _ ih =>
    have he := hw.evolves_add (s := s) target { id := first, field }
    have hadd := h.add hw target { id := first, field }
    rw [added] at he hadd
    exact ih hadd he.wellFormed

end

end Tree

namespace Server

section

variable {root : TypeDef} {s : Server} {k : Nat} {a : Session}

lemma Sound.respects_step (hs : s.Sound root) (hk : s.sessions[k]? = some a)
    (h : a.tree.Respects a.setting.limits) (j : Nat) (c : Command) : ∃ b : Session,
      (s.step j c).server.sessions[k]? = some b ∧ b.tree.Respects b.setting.limits := by
  obtain ⟨b, hb, hcase⟩ := s.step_session j c hk
  refine ⟨b, hb, ?_⟩
  rw [setting_step hk hb]
  rcases hcase with ⟨hnodes, -⟩ | ⟨-, -, t, ps, heffect, -, rfl⟩
  · exact h.congr hnodes
  · by_cases hc : c = .discard
    · subst hc
      cases heffect
      exact a.tree.respects_discard a.setting.limits
    · exact (Tree.compositional_respects root a.setting).effect (hs.wellFormed k a hk) hc heffect h

lemma Sound.respects_run (hs : s.Sound root) (hk : s.sessions[k]? = some a)
    (h : a.tree.Respects a.setting.limits) (cs : List (Nat × Command)) : ∃ b : Session,
      (s.run cs).sessions[k]? = some b ∧ b.tree.Respects b.setting.limits := by
  induction cs generalizing s a with
  | nil => exact ⟨a, hk, h⟩
  | cons d rest ih =>
    obtain ⟨b, hb, hrespects⟩ := hs.respects_step hk h d.1 d.2
    exact ih (hs.step d.1 d.2) hb hrespects

lemma respects_of_run {setting : Setting} {count : Nat} {cs : List (Nat × Command)}
    (hk : ((start setting root count).run cs).sessions[k]? = some a) :
    a.tree.Respects setting.limits := by
  obtain ⟨hstart, hsetting⟩ := start_of_run hk
  obtain ⟨b, hb, hrespects⟩ := (sound_start setting root count).respects_run hstart
    (Tree.respects_ofRoot root setting.limits) cs
  obtain rfl : a = b := Option.some.inj (hk.symm.trans hb)
  rwa [hsetting] at hrespects

end

/-- Whatever was sent, the limits are respected, and whatever is sent next, they are respected in
the middle of it: each time a selection is to be inserted, nested or not, and right after its node
is made. The node for which an insertion is called is at most one step deeper than is allowed. -/
theorem limits_respected_throughout (setting : Setting) (root : TypeDef) (count : Nat)
    (cs : List (Nat × Command)) (k : Nat) (a : Session)
    (hk : ((start setting root count).run cs).sessions[k]? = some a) :
    a.tree.Respects setting.limits ∧
    ∀ (c : Command) (p : NodeId) (sel : Selection) (v : Tree), c.Calls setting a.tree p sel v →
      v.Respects setting.limits ∧
      (∃ m, v.node? p = some m ∧ ∀ limit ∈ setting.limits.depth, m.depth + 1 ≤ limit + 1) ∧
      ∀ n v', v.sprout setting p sel.id sel.field sel.arguments = (.ok n, v') →
        (v'.attach p n).Respects setting.limits := by
  have hrespects := respects_of_run hk
  have hw := (sound_run setting root count cs).wellFormed k a hk
  refine ⟨hrespects, fun c p sel v hcall => ?_⟩
  obtain ⟨m, hm⟩ := (hcall.reaches hw).parent_live
  obtain ⟨target, top, u, hbegins, hcalls⟩ := hcall
  have hv := (hrespects.begins hw hbegins).calls hcalls
  refine ⟨hv, ⟨m, hm, fun limit hlimit => ?_⟩, fun n v' hsprout => (hv.attach hsprout).1⟩
  exact Nat.succ_le_succ (hv.depth_le limit hlimit p m hm)

namespace Sample

/-- There is room for two nodes, and nothing can be below a child of the root. -/
def cramped : Setting := { setting with limits := ⟨some 1, some 2⟩ }

/-- The first child would have a child, so it is not added. The second is, and there is no room for
the third. -/
def crowded : List (Nat × Command) := [
  (0, .add .root { id := ⟨1⟩, field := "friend", children := [{ id := ⟨2⟩, field := "name" }] }),
  (0, .add .root { id := ⟨3⟩, field := "friend" }), (0, .add .root { id := ⟨4⟩, field := "name" })]

def deep : Selection where
  id := ⟨5⟩
  field := "friend"
  children := [{ id := ⟨6⟩, field := "name" }]

end Sample

theorem limits_respected_throughout_crowded : ∃ (a : Session) (m : Node),
    ((start Sample.cramped Sample.person 1).run Sample.crowded).sessions[0]? = some a ∧
    a.tree.Respects Sample.cramped.limits ∧ a.tree.size = 2 ∧ a.tree.node? ⟨3⟩ = some m ∧
    m.depth = 1 ∧ m.depth + 1 ≤ 1 + 1 ∧
    (Command.add ⟨3⟩ Sample.deep).Calls Sample.cramped a.tree ⟨3⟩ Sample.deep a.tree ∧
    (((start Sample.cramped Sample.person 1).run Sample.crowded).step 0
      (.add ⟨3⟩ Sample.deep)).reply = .rejected (.tooDeep ⟨5⟩ 1) := by
  have hend : (((start Sample.cramped Sample.person 1).run Sample.crowded).sessions[0]?).bind
      (fun a => (a.tree.node? ⟨3⟩).map fun m => (a.tree.size, m.depth)) = some (2, 1) := by
    decide +kernel
  obtain ⟨a, hk, hend⟩ := Option.bind_eq_some_iff.mp hend
  obtain ⟨m, hm, hend⟩ := Option.map_eq_some_iff.mp hend
  obtain ⟨hsize, hdepth⟩ := Prod.mk.inj hend
  obtain ⟨hrespects, hcalls⟩ := limits_respected_throughout Sample.cramped Sample.person 1
    Sample.crowded 0 a hk
  have hlive : a.tree.contains ⟨3⟩ := by simp [Tree.contains_eq_isSome, hm]
  have hcall : (Command.add ⟨3⟩ Sample.deep).Calls Sample.cramped a.tree ⟨3⟩ Sample.deep a.tree :=
    ⟨_, _, _, .add hlive, .here⟩
  obtain ⟨-, ⟨m', hm', hlimit⟩, -⟩ := hcalls _ _ _ _ hcall
  obtain rfl : m' = m := Option.some.inj (hm'.symm.trans hm)
  exact ⟨a, m', hk, hrespects, hsize, hm, hdepth, hlimit 1 rfl, hcall, by cbv⟩

end Server

end LiveQuery
