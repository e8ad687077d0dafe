import LiveQuery.Proofs.Operations
import LiveQuery.Proofs.States

/-!
# Runs of a server

A run is a list of commands, each sent to one of the sessions. A command either carries an operation
out on the tree of its session and delivers what was published, or it is not noticed by observers at
all. Whatever commands were sent, what holds at the start holds after them.
-/

namespace LiveQuery

/-- A session whose tree has become `t` while `ps` was published. -/
def Session.after (a : Session) (t : Tree) (ps : List Publication) : Session :=
  { a with tree := t, switchboard := (a.switchboard.deliverAll ps).2 }

/-- The commands that work on the nodes of a tree. -/
def Command.isOperation : Command → Bool
  | .apply _ | .add _ _ | .addChain .. | .remove _ | .teardown | .discard => true
  | _ => false

/-- What a command makes of the tree it is sent to and what is published meanwhile, if the command
is an operation on the tree. -/
def Command.effect? (s : Setting) (t : Tree) : Command → Option (Tree × List Publication)
  | .apply batch => some ((t.apply s batch).tree, (t.apply s batch).published)
  | .add target selection =>
    some ((t.add s target selection).tree, (t.add s target selection).published)
  | .addChain target first count field =>
    some ((t.addChain s field count target first).tree,
      (t.addChain s field count target first).published)
  | .remove node => some ((t.remove node).tree, (t.remove node).published)
  | .teardown => some (t.teardown.tree, t.teardown.published)
  | .discard => some (t.discard, [])
  | _ => none

namespace Server

/-- The server after some commands, in order. -/
def run (s : Server) : List (Nat × Command) → Server
  | [] => s
  | (k, c) :: rest => (s.step k c).server.run rest

lemma run_append (s : Server) (cs later : List (Nat × Command)) :
    s.run (cs ++ later) = (s.run cs).run later := by
  induction cs generalizing s with
  | nil => rfl
  | cons c rest ih => exact ih _

section

variable {root : TypeDef} {s s' : Server} {k j : Nat} {session : Session}

lemma wellFormed_discard (t : Tree) : t.discard.WellFormed root := by
  have hnone : ∀ x, t.discard.node? x = none := fun x => by simp [Tree.node?, Tree.discard]
  constructor <;> simp [hnone]

/-- Every operation but one evolves the tree. The tree that is dropped in silence leaves nothing. -/
lemma effect?_cases {setting : Setting} {t t' : Tree} {c : Command} {ps : List Publication}
    (h : c.effect? setting t = some (t', ps)) :
    (c = .discard ∧ t' = t.discard ∧ ps = []) ∨
      (c ≠ .discard ∧ (t.WellFormed root → Tree.Evolves root t ps t')) := by
  cases c <;> simp only [Command.effect?, Option.some.injEq, Prod.mk.injEq, reduceCtorEq] at h
  case apply batch => exact .inr ⟨by simp, fun hw => h.1 ▸ h.2 ▸ hw.evolves_apply batch⟩
  case add target sel => exact .inr ⟨by simp, fun hw => h.1 ▸ h.2 ▸ hw.evolves_add target sel⟩
  case addChain target first count field =>
    exact .inr ⟨by simp, fun hw => h.1 ▸ h.2 ▸ hw.evolves_addChain field count target first⟩
  case remove node => exact .inr ⟨by simp, fun hw => h.1 ▸ h.2 ▸ hw.evolves_remove node⟩
  case teardown => exact .inr ⟨by simp, fun hw => h.1 ▸ h.2 ▸ hw.evolves_dismantle .root⟩
  case discard => exact .inl ⟨rfl, h.1.symm, h.2.symm⟩

/-- The two ways a command can go: observers do not notice it, or it has an effect on the tree of
its session, which is delivered. -/
structure Delivers (s : Server) (k : Nat) (c : Command) (r : Response) (session : Session)
    (t : Tree) (ps : List Publication) : Prop where
  session_eq : s.sessions[k]? = some session
  live : session.tree.isLive
  effect : c.effect? session.setting session.tree = some (t, ps)
  notices : r.notices = (session.switchboard.deliverAll ps).1
  server : r.server = s.setSession k (session.after t ps)

lemma exists_operation {c : Command} (hc : c.isOperation) :
    ∃ (α : Type) (operation : Setting → Tree → Transition α) (reply : α → Reply),
      (∀ s k, step s k c = s.onTree k operation reply) ∧ ∀ setting t, c.effect? setting t =
        some ((operation setting t).tree, (operation setting t).published) := by
  cases c <;> simp only [Command.isOperation, Bool.false_eq_true] at hc
  case apply batch => exact ⟨_, (Tree.apply · batch), _, fun _ _ => by rw [step], fun _ _ => rfl⟩
  case add target sel =>
    exact ⟨_, (Tree.add · target sel), _, fun _ _ => by rw [step], fun _ _ => rfl⟩
  case addChain target first count field =>
    exact ⟨_, (Tree.addChain · field count target first), _, fun _ _ => by rw [step],
      fun _ _ => rfl⟩
  case remove node =>
    exact ⟨_, fun _ => Tree.remove node, _, fun _ _ => by rw [step], fun _ _ => rfl⟩
  case teardown => exact ⟨_, fun _ => Tree.teardown, _, fun _ _ => by rw [step], fun _ _ => rfl⟩
  case discard =>
    exact ⟨_, fun _ t => ⟨(), t.discard, []⟩, _, fun _ _ => by rw [step], fun _ _ => rfl⟩

lemma step_of_dead {c : Command} (hc : c.isOperation)
    (hdead : ∀ a : Session, s.sessions[k]? = some a → ¬ a.tree.isLive) :
    (s.step k c).server = s ∧ (s.step k c).notices = [] := by
  obtain ⟨α, operation, reply, hstep, -⟩ := exists_operation hc
  rw [hstep, onTree]
  split
  · exact ⟨rfl, rfl⟩
  · next a hlive =>
    obtain ⟨ha, hroot⟩ := live?_eq_ok_iff.mp hlive
    exact absurd hroot (hdead a ha)

lemma step_of_live {c : Command} (hc : c.isOperation) (hk : s.sessions[k]? = some session)
    (hlive : session.tree.isLive) :
    ∃ t ps, Delivers s k c (s.step k c) session t ps := by
  obtain ⟨α, operation, reply, hstep, heffect⟩ := exists_operation hc
  have hsession : s.live? k = .ok session := live?_eq_ok_iff.mpr ⟨hk, hlive⟩
  refine ⟨_, _, hk, hlive, heffect _ _, ?_, ?_⟩ <;>
    simp [hstep, onTree, hsession, Session.perform, Session.after]

/-- A command either is not noticed by observers, or has an effect on a tree that is delivered. -/
theorem step_cases (s : Server) (k : Nat) (c : Command) :
    (∀ root, Unnoticed root s (s.step k c)) ∨
      ∃ session t ps, Delivers s k c (s.step k c) session t ps := by
  by_cases hc : c.isOperation
  · by_cases hdead : ∀ a : Session, s.sessions[k]? = some a → ¬ a.tree.isLive
    · obtain ⟨hserver, hnotices⟩ := step_of_dead hc hdead
      exact .inl fun root => ⟨hserver.symm ▸ Steady.refl root s, hnotices⟩
    · push Not at hdead
      obtain ⟨session, hk, hlive⟩ := hdead
      exact .inr ⟨session, step_of_live hc hk hlive⟩
  · left
    intro root
    cases c <;> simp only [Command.isOperation, not_true_eq_false] at hc
    case put id value => exact unnoticed_put root s k id value
    case acquire id handle => exact unnoticed_acquire root s k id handle
    case release handle => exact unnoticed_release root s handle
    case sweep => exact unnoticed_sweep root s k
    case subscribe place handle => exact unnoticed_subscribe root s k place handle
    case follow place handle => exact unnoticed_follow root s k place handle
    case openChannel place handle => exact unnoticed_openChannel root s k place handle
    case unsubscribe handle => exact unnoticed_unsubscribe root s handle
    case drain handle keepHub => exact unnoticed_drain root s handle keepHub
    case closeChannel handle => exact unnoticed_closeChannel root s handle
    case keepHub node handle => exact unnoticed_keepHub root s k node handle

lemma setSession_eq (hk : s.sessions[k]? = some session) (a : Session) :
    s.setSession k a = s.modifySession k fun _ => a := by
  have hsessions : s.sessions.set k a = s.sessions.modify k fun _ => a := by
    apply List.ext_getElem?
    intro i
    rw [List.getElem?_set, List.getElem?_modify]
    split
    · next hki =>
      subst hki
      obtain ⟨hlt, -⟩ := List.getElem?_eq_some_iff.mp hk
      rw [hk, if_pos hlt]
      rfl
    · simp
  rw [setSession, modifySession, hsessions]

theorem Sound.step (h : s.Sound root) (k : Nat) (c : Command) : (s.step k c).server.Sound root := by
  rcases s.step_cases k c with hquiet | ⟨session, t, ps, hd⟩
  · exact (hquiet root).1.sound h
  · rw [hd.server, setSession_eq hd.session_eq]
    refine h.modifySession fun a ha => ?_
    obtain rfl : session = a := Option.some.inj (hd.session_eq.symm.trans ha)
    have hw := h.wellFormed k session ha
    have hb := h.switchboard k session ha
    rcases effect?_cases hd.effect with ⟨-, rfl, rfl⟩ | ⟨-, hevolves⟩
    · exact ⟨wellFormed_discard session.tree, hb, Nat.le_refl _, fun _ hout => hout.discard⟩
    · have he := hevolves hw
      exact ⟨he.wellFormed, (hb.mono he.nextHub_le).deliverAll he.child_lt, he.nextHub_le,
        he.accounts⟩

lemma sound_start (setting : Setting) (root : TypeDef) (count : Nat) :
    (start setting root count).Sound root := by
  have hsession : ∀ (k : Nat) (session : Session),
      (start setting root count).sessions[k]? = some session →
      session = .start setting root := by
    intro k session hk
    exact List.eq_of_mem_replicate (List.mem_of_getElem? hk)
  constructor
  · intro k session hk
    rw [hsession k session hk]
    exact Tree.wellFormed_ofRoot root
  · intro k session hk
    rw [hsession k session hk]
    exact Switchboard.Sound.empty _
  · intro k session hk
    rw [hsession k session hk]
    exact Tree.accounts_ofRoot root
  · intro name hub hname
    simp [start] at hname

theorem Sound.run (h : s.Sound root) (cs : List (Nat × Command)) : (s.run cs).Sound root := by
  induction cs generalizing s with
  | nil => exact h
  | cons c rest ih => exact ih (h.step c.1 c.2)

theorem sound_run (setting : Setting) (root : TypeDef) (count : Nat) (cs : List (Nat × Command)) :
    ((start setting root count).run cs).Sound root :=
  (sound_start setting root count).run cs

/-- What a command means for one session: nothing that its observers notice, or the delivered
effect of the command if it was sent to this session. -/
theorem step_session (s : Server) (j : Nat) (c : Command) (hk : s.sessions[k]? = some session) :
    ∃ session' : Session, (s.step j c).server.sessions[k]? = some session' ∧
      ((session'.tree.nodes = session.tree.nodes ∧ session'.tree.nextHub = session.tree.nextHub ∧
          session.switchboard.Onward session'.switchboard ∧ (j = k → (s.step j c).notices = [])) ∨
        (j = k ∧ session.tree.isLive ∧ ∃ t ps,
          c.effect? session.setting session.tree = some (t, ps) ∧
          (s.step j c).notices = (session.switchboard.deliverAll ps).1 ∧
          session' = session.after t ps)) := by
  rcases s.step_cases j c with hquiet | ⟨a, t, ps, hd⟩
  · obtain ⟨hsteady, hnotices⟩ := hquiet default
    obtain ⟨session', hk', hnodes, hnext, honward⟩ := hsteady.quiet k session hk
    exact ⟨session', hk', .inl ⟨hnodes, hnext, honward, fun _ => hnotices⟩⟩
  · rw [hd.server, setSession_eq hd.session_eq, getElem?_modifySession, hk]
    by_cases hjk : j = k
    · subst hjk
      obtain rfl : session = a := Option.some.inj (hk.symm.trans hd.session_eq)
      rw [if_pos rfl]
      exact ⟨_, rfl, .inr ⟨rfl, hd.live, t, ps, hd.effect, hd.notices, rfl⟩⟩
    · rw [if_neg hjk]
      exact ⟨session, rfl, .inl ⟨rfl, rfl, Switchboard.Onward.refl _, fun h => absurd h hjk⟩⟩

end

/-! ### A small server -/

namespace Sample

/-- A person has friends, who are persons, and a name. -/
def person : TypeDef :=
  .object ⟨"Person", [⟨"friend", .nonNull (.named "Person")⟩, ⟨"name", .named "String"⟩]⟩

def setting : Setting where
  resolver := { definition? := fun _ => some person }

def year : VariableId := ⟨7⟩

/-- The root has one child, and both are followed. -/
def watched : List (Nat × Command) :=
  [(0, .put year (.int 2020)), (0, .follow (.node .root) "all"),
    (0, .add .root { id := ⟨1⟩, field := "friend", arguments := [⟨"since", year⟩] })]

/-- A batch adds two more children of the root, one of them with a child of its own, fails to add a
third, and removes the first. -/
def edited : List (Nat × Command) :=
  watched ++ [(0, .apply ⟨[⟨year, .int 2021⟩],
    [.add .root { id := ⟨2⟩, field := "friend", children := [{ id := ⟨3⟩, field := "name" }] },
      .add .root { id := ⟨4⟩, field := "name" }, .add .root { id := ⟨5⟩, field := "age" },
      .delete ⟨1⟩]⟩)]

end Sample

end Server

end LiveQuery
