import LiveQuery.Proofs.Announcements

/-!
# Histories of sessions

All that one session publishes while commands are sent to a server, whether anybody listens or not. A
history recounts what became of the hubs of the session's tree, up to the moment when the tree is
dropped in silence, if it ever is. From then on there is nothing to publish.
-/

namespace LiveQuery

namespace Tree

/-- Everything that happened to hubs from `t` to `t'` is in `published`. -/
structure Recounts (root : TypeDef) (t : Tree) (published : List Publication) (t' : Tree) :
    Prop where
  advances : Advances root t published t'
  chronicles : Chronicles t published t'
  introduces : Introduces root t published t'

section

variable {root : TypeDef} {s : Setting} {t t' t'' : Tree} {ps qs : List Publication}

lemma Recounts.of_nodes_eq (h : t.WellFormed root) (hnodes : t'.nodes = t.nodes)
    (hnext : t'.nextHub = t.nextHub) : Recounts root t [] t' where
  advances := Advances.of_nodes_eq h hnodes hnext
  chronicles := Chronicles.of_nodes_eq hnodes
  introduces := Introduces.of_nodes_eq hnodes

lemma Recounts.trans (hw : t.WellFormed root) (h : Recounts root t ps t')
    (h' : Recounts root t' qs t'') : Recounts root t (ps ++ qs) t'' where
  advances := h.advances.trans h'.advances
  chronicles := Chronicles.trans hw h.advances h'.advances h.chronicles h'.chronicles
  introduces := h.introduces.trans h.advances h'.advances h'.introduces

lemma WellFormed.recounts_effect (h : t.WellFormed root) {c : Command} (hc : c ≠ .discard)
    (heffect : c.effect? s t = some (t', ps)) : Recounts root t ps t' where
  advances := by
    obtain ⟨hdiscard, -⟩ | ⟨-, hevolves⟩ := Server.effect?_cases heffect
    · exact absurd hdiscard hc
    · exact (hevolves h).advances
  chronicles := (compositional_chronicles root s).effect h hc heffect
  introduces := (compositional_introduces root s).effect h hc heffect

end

end Tree

namespace Server

/-- What session `k` publishes when a command is sent to session `j`. -/
def publishes (s : Server) (k j : Nat) (c : Command) : List Publication :=
  match s.live? k with
  | .ok a =>
    match c.effect? a.setting a.tree with
    | some (_, published) => if j = k then published else []
    | none => []
  | .error _ => []

/-- All that session `k` publishes while commands are carried out, in order. -/
def history (s : Server) (k : Nat) : List (Nat × Command) → List Publication
  | [] => []
  | (j, c) :: rest => s.publishes k j c ++ (s.step j c).server.history k rest

section

variable {root : TypeDef} {s : Server} {k : Nat} {a b : Session}

lemma history_append (s : Server) (k : Nat) (cs later : List (Nat × Command)) :
    s.history k (cs ++ later) = s.history k cs ++ (s.run cs).history k later := by
  induction cs generalizing s with
  | nil => rfl
  | cons c rest ih => simp [history, run, ih]

lemma publishes_of_live (hk : s.sessions[k]? = some a) (hlive : a.tree.isLive) {c : Command}
    {t : Tree} {ps : List Publication} (heffect : c.effect? a.setting a.tree = some (t, ps)) :
    s.publishes k k c = ps := by
  simp only [publishes, live?_eq_ok_iff.mpr ⟨hk, hlive⟩, heffect, if_true]

lemma publishes_eq_nil (hk : s.sessions[k]? = some a) {j : Nat} {c : Command}
    (hnot : ¬ (j = k ∧ a.tree.isLive ∧ c.isOperation)) : s.publishes k j c = [] := by
  unfold publishes
  split
  · next b hb =>
    obtain ⟨hb, hlive⟩ := live?_eq_ok_iff.mp hb
    obtain rfl : a = b := Option.some.inj (hk.symm.trans hb)
    split
    · next heffect =>
      refine if_neg fun hjk => hnot ⟨hjk, hlive, ?_⟩
      by_contra hc
      cases c <;> first | exact hc rfl | cases heffect
    · rfl
  · rfl

/-- What a command means for one session: nothing that its observers notice, or an effect that is
published and delivered. -/
theorem step_published (s : Server) (j : Nat) (c : Command) (hk : s.sessions[k]? = some a) :
    ∃ b : Session, (s.step j c).server.sessions[k]? = some b ∧
      ((s.publishes k j c = [] ∧ b.tree.nodes = a.tree.nodes ∧ b.tree.nextHub = a.tree.nextHub ∧
          (j = k → (s.step j c).notices = [])) ∨
        ∃ t, j = k ∧ c.effect? a.setting a.tree = some (t, s.publishes k j c) ∧
          (s.step j c).notices = (a.switchboard.deliverAll (s.publishes k j c)).1 ∧
          b = a.after t (s.publishes k j c)) := by
  by_cases heffective : j = k ∧ a.tree.isLive ∧ c.isOperation
  · obtain ⟨rfl, hlive, hc⟩ := heffective
    obtain ⟨t, ps, hd⟩ := step_of_live hc hk hlive
    have hpublishes := publishes_of_live hk hlive hd.effect
    refine ⟨a.after t ps, ?_, .inr ⟨t, rfl, ?_, ?_, ?_⟩⟩
    · rw [hd.server, setSession_eq hk, getElem?_modifySession, if_pos rfl, hk]
      rfl
    · rw [hpublishes, hd.effect]
    · rw [hpublishes, hd.notices]
    · rw [hpublishes]
  · have hpublishes := publishes_eq_nil hk heffective
    obtain ⟨b, hb, ⟨hnodes, hnext, -, hnotices⟩ | ⟨hjk, hlive, t, ps, heffect, -⟩⟩ :=
      s.step_session j c hk
    · exact ⟨b, hb, .inl ⟨hpublishes, hnodes, hnext, hnotices⟩⟩
    · refine absurd ⟨hjk, hlive, ?_⟩ heffective
      cases c <;> first | rfl | cases heffect

lemma notices_eq (hk : s.sessions[k]? = some a) (c : Command) :
    (s.step k c).notices = (a.switchboard.deliverAll (s.publishes k k c)).1 := by
  obtain ⟨b, -, ⟨hpublishes, -, -, hnotices⟩ | ⟨t, -, -, hnotices, -⟩⟩ := s.step_published k c hk
  · rw [hnotices rfl, hpublishes]
    rfl
  · exact hnotices

lemma history_of_empty (hk : s.sessions[k]? = some a) (hempty : a.tree.nodes = ∅)
    {cs : List (Nat × Command)} (hb : (s.run cs).sessions[k]? = some b) :
    s.history k cs = [] ∧ b.tree.nodes = ∅ ∧ b.tree.nextHub = a.tree.nextHub := by
  induction cs generalizing s a with
  | nil =>
    obtain rfl : a = b := Option.some.inj (hk.symm.trans hb)
    exact ⟨rfl, hempty, rfl⟩
  | cons c rest ih =>
    obtain ⟨j, c⟩ := c
    have hdead : ¬ a.tree.isLive := by
      simp [Tree.isLive, Tree.contains, hempty]
    obtain ⟨a', hk', hcase⟩ := s.step_session j c hk
    obtain ⟨hnodes, hnext, -⟩ | ⟨-, hlive, -⟩ := hcase
    · obtain ⟨hrest, hempty', hnext'⟩ := ih hk' (hnodes.trans hempty) hb
      refine ⟨?_, hempty', hnext'.trans hnext⟩
      rw [history, hrest, publishes_eq_nil hk fun h => hdead h.2.1]
      rfl
    · exact absurd hlive hdead

/-- A history recounts what became of a tree, until the tree was dropped. -/
theorem Sound.recounts_run (hs : s.Sound root) (hk : s.sessions[k]? = some a)
    {cs : List (Nat × Command)} (hb : (s.run cs).sessions[k]? = some b) :
    ∃ t, (t = b.tree ∨ (k, .discard) ∈ cs ∧ b.tree.nodes = ∅) ∧ b.tree.nextHub = t.nextHub ∧
      Tree.Recounts root a.tree (s.history k cs) t := by
  induction cs generalizing s a with
  | nil =>
    obtain rfl : a = b := Option.some.inj (hk.symm.trans hb)
    exact ⟨a.tree, .inl rfl, rfl, .of_nodes_eq (hs.wellFormed k a hk) rfl rfl⟩
  | cons c rest ih =>
    obtain ⟨j, c⟩ := c
    have hw := hs.wellFormed k a hk
    obtain ⟨a', hk', hcase⟩ := s.step_published j c hk
    have hrest : Tree.Recounts root a.tree (s.publishes k j c) a'.tree → ∃ t,
        (t = b.tree ∨ (k, .discard) ∈ (j, c) :: rest ∧ b.tree.nodes = ∅) ∧
        b.tree.nextHub = t.nextHub ∧ Tree.Recounts root a.tree (s.history k ((j, c) :: rest)) t := by
      intro hfirst
      obtain ⟨t, hlast, hnext, hrest⟩ := ih (hs.step j c) hk' hb
      exact ⟨t, hlast.imp id fun h => ⟨List.mem_cons_of_mem _ h.1, h.2⟩, hnext, hfirst.trans hw hrest⟩
    rcases hcase with ⟨hsilent, hnodes, hnext, -⟩ | ⟨t, rfl, heffect, -, rfl⟩
    · exact hrest (hsilent ▸ .of_nodes_eq hw hnodes hnext)
    · by_cases hc : c = .discard
      · subst hc
        obtain ⟨rfl, hsilent⟩ := Prod.mk.inj (Option.some.inj heffect)
        obtain ⟨hlater, hempty, hnext⟩ := history_of_empty hk' rfl hb
        refine ⟨a.tree, .inr ⟨List.mem_cons_self, hempty⟩, hnext, ?_⟩
        rw [history, ← hsilent, hlater]
        exact .of_nodes_eq hw rfl rfl
      · exact hrest (hw.recounts_effect hc heffect)

end

end Server

end LiveQuery
