import LiveQuery.Proofs.Edits

/-!
# Operations as compositions

Additions and removals are all that ever happens to the nodes of a tree; whatever else an operation
does concerns the bindings. So what additions and removals have in common all operations have,
provided that it composes. Only the tree that is dropped in silence is left out. What a session
checks its tree against is touched by no command at all.
-/

namespace LiveQuery

namespace Tree

/-- A relation between a tree, what is published, and the tree after it, in which additions,
removals and changes of the bindings are and which composes. -/
structure Compositional (root : TypeDef) (s : Setting)
    (R : Tree → List Publication → Tree → Prop) : Prop where
  bindings (t : Tree) (b : Bindings) : R t [] { t with bindings := b }
  trans {t t' t'' : Tree} {ps qs : List Publication} : t.WellFormed root →
    Evolves root t ps t' → Evolves root t' qs t'' → R t ps t' → R t' qs t'' → R t (ps ++ qs) t''
  add {t : Tree} (h : t.WellFormed root) (target : NodeId) (sel : Selection) :
    R t (t.add s target sel).published (t.add s target sel).tree
  dismantle {t : Tree} (h : t.WellFormed root) (id : NodeId) :
    R t (t.dismantle id).published (t.dismantle id).tree

namespace Compositional

variable {root : TypeDef} {s : Setting} {R : Tree → List Publication → Tree → Prop} {t : Tree}

lemma refl (hR : Compositional root s R) (t : Tree) : R t [] t := hR.bindings t t.bindings

lemma remove (hR : Compositional root s R) (h : t.WellFormed root) (id : NodeId) :
    R t (t.remove id).published (t.remove id).tree := by
  unfold Tree.remove
  split
  · exact hR.refl t
  · split
    · exact hR.dismantle h id
    · exact hR.refl t

lemma change (hR : Compositional root s R) (h : t.WellFormed root) (c : Change) :
    R t (t.change s c).published (t.change s c).tree := by
  unfold Tree.change
  split
  · cases c with
    | add target sel =>
      have hadd := hR.add h target sel
      dsimp only
      split <;> exact hadd
    | delete target =>
      dsimp only
      split
      · exact hR.refl t
      · exact hR.dismantle h target
  · exact hR.refl t

lemma changeAll (hR : Compositional root s R) (h : t.WellFormed root) (index : Nat)
    (cs : List Change) : R t (t.changeAll s index cs).published (t.changeAll s index cs).tree := by
  induction cs generalizing t index with
  | nil => exact hR.refl t
  | cons c rest ih =>
    have hfirst := h.evolves_change (s := s) c
    have hrest := hfirst.wellFormed.evolves_changeAll (s := s) (index + 1) rest
    exact hR.trans h hfirst hrest (hR.change h c) (ih hfirst.wellFormed (index + 1))

lemma apply (hR : Compositional root s R) (h : t.WellFormed root) (batch : Batch) :
    R t (t.apply s batch).published (t.apply s batch).tree := by
  have hput := h.evolves_bindings fun _ hb => hb.putAll batch.assignments
  have hchange := hput.wellFormed.evolves_changeAll (s := s) 0 batch.changes
  have hsweep := hchange.wellFormed.evolves_bindings fun _ hb => hb.sweep
  have hmiddle := hR.trans h hput hchange (hR.bindings t _)
    (hR.changeAll hput.wellFormed 0 batch.changes)
  have hall := hR.trans h (hput.trans hchange) hsweep hmiddle (hR.bindings _ _)
  simpa [Tree.apply] using hall

lemma addChain (hR : Compositional root s R) (h : t.WellFormed root) (field : String)
    (count : Nat) (target first : NodeId) : R t (t.addChain s field count target first).published
      (t.addChain s field count target first).tree := by
  induction count generalizing t target first with
  | zero => exact hR.refl t
  | succ count ih =>
    have hevolves := h.evolves_add (s := s) target { id := first, field }
    have hadd := hR.add h target { id := first, field }
    unfold Tree.addChain
    rcases hg : t.add s target { id := first, field } with ⟨e | id, t', ps⟩
    · rwa [hg] at hadd
    · rw [hg] at hevolves hadd
      have hrest := hevolves.wellFormed.evolves_addChain (s := s) field count id id.next
      exact hR.trans h hevolves hrest hadd (ih hevolves.wellFormed id id.next)

/-- Every operation is in the relation, unless it drops the tree in silence. -/
theorem effect (hR : Compositional root s R) (h : t.WellFormed root) {c : Command} {t' : Tree}
    {ps : List Publication} (hc : c ≠ .discard) (heffect : c.effect? s t = some (t', ps)) :
    R t ps t' := by
  cases c <;> simp only [Command.effect?, Option.some.injEq, Prod.mk.injEq, reduceCtorEq] at heffect
  case apply batch => exact heffect.1 ▸ heffect.2 ▸ hR.apply h batch
  case add target sel => exact heffect.1 ▸ heffect.2 ▸ hR.add h target sel
  case addChain target first count field =>
    exact heffect.1 ▸ heffect.2 ▸ hR.addChain h field count target first
  case remove node => exact heffect.1 ▸ heffect.2 ▸ hR.remove h node
  case teardown => exact heffect.1 ▸ heffect.2 ▸ hR.dismantle h .root
  case discard => exact absurd rfl hc

end Compositional

end Tree

namespace Server

section

variable {root : TypeDef} {s : Server} {k : Nat} {session : Session}

/-! ### The setting stays -/

/-- The settings of all sessions. -/
def settings (s : Server) : List Setting := s.sessions.map (·.setting)

lemma settings_modifySession (s : Server) (k : Nat) {f : Session → Session}
    (hf : ∀ a, (f a).setting = a.setting) : (s.modifySession k f).settings = s.settings := by
  apply List.ext_getElem?
  intro i
  simp only [settings, List.getElem?_map, getElem?_modifySession]
  split
  · cases s.sessions[i]? <;> simp [hf]
  · rfl

lemma Tended.settings {P : Edit → Prop} {s' : Server} (h : s.Tended P s') :
    s'.settings = s.settings := by
  obtain ⟨edits, -, hs'⟩ := h
  simp only [Server.settings, hs']
  clear hs'
  generalize s.sessions = sessions
  induction edits generalizing sessions with
  | nil => rfl
  | cons e rest ih =>
    rw [List.foldl_cons, ih]
    exact settings_modifySession { sessions } e.1 fun _ => rfl

theorem settings_step (s : Server) (k : Nat) (c : Command) :
    (s.step k c).server.settings = s.settings := by
  by_cases hc : c.isOperation
  · by_cases hdead : ∀ a : Session, s.sessions[k]? = some a → ¬ a.tree.isLive
    · rw [(step_of_dead hc hdead).1]
    · push Not at hdead
      obtain ⟨a, hk, hlive⟩ := hdead
      obtain ⟨t, ps, hd⟩ := step_of_live hc hk hlive
      have hset : (s.setSession k (a.after t ps)).settings =
          (s.modifySession k fun b => { b.after t ps with setting := b.setting }).settings := by
        rw [setSession_eq hk]
        exact congrArg settings (modifySession_congr hk rfl)
      rw [hd.server, hset]
      exact settings_modifySession s k fun _ => rfl
  · exact (s.tended_step k hc).settings

lemma setting_step (hk : s.sessions[k]? = some session) {j : Nat} {c : Command}
    {session' : Session} (hk' : (s.step j c).server.sessions[k]? = some session') :
    session'.setting = session.setting := by
  have hsettings := congrArg (·[k]?) (s.settings_step j c)
  simp only [settings, List.getElem?_map, hk, hk', Option.map_some, Option.some.injEq] at hsettings
  exact hsettings

lemma settings_run (s : Server) (cs : List (Nat × Command)) : (s.run cs).settings = s.settings := by
  induction cs generalizing s with
  | nil => rfl
  | cons c rest ih => exact (ih _).trans (s.settings_step c.1 c.2)

lemma start_of_run {setting : Setting} {count : Nat} {cs : List (Nat × Command)}
    (hk : ((start setting root count).run cs).sessions[k]? = some session) :
    (start setting root count).sessions[k]? = some (.start setting root) ∧
      session.setting = setting := by
  have hsettings := congrArg (·[k]?) (settings_run (start setting root count) cs)
  simp only [settings, List.getElem?_map, hk, Option.map_some] at hsettings
  obtain ⟨r, hr, hsetting⟩ := Option.map_eq_some_iff.mp hsettings.symm
  obtain rfl : r = .start setting root := List.eq_of_mem_replicate (List.mem_of_getElem? hr)
  exact ⟨hr, hsetting.symm⟩

end

end Server

end LiveQuery
