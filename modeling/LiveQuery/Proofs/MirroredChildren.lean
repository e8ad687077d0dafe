import LiveQuery.Proofs.Hearing
import LiveQuery.Proofs.Stages

/-!
# Mirrored children

An observer that knows the children of a node when its subscription is made can keep track of them
by what it hears, without ever looking at the tree again. It does not matter who made the
subscription, be it a follower that was told of the node a moment ago, in the middle of a batch.
-/

namespace LiveQuery

namespace Server

/-- The server at the `n`-th moment of a command: before it, and after each cut of it. -/
def moment (s : Server) (j : Nat) (c : Command) : Nat → Server
  | 0 => s
  | n + 1 => (s.step j (c.cut n)).server

section

variable {root : TypeDef} {s : Server} {j k : Nat} {c : Command} {sub : Subscription}
  {a a₁ a₂ a₃ : Session}

lemma Sound.moment (h : s.Sound root) (j : Nat) (c : Command) (n : Nat) :
    (s.moment j c n).Sound root := by
  cases n with
  | zero => exact h
  | succ n => exact h.step j (c.cut n)

lemma getElem?_moment (hc : c.isOperation) (hk : s.sessions[k]? = some a) (hlive : a.tree.isLive)
    {n : Nat} {stage : Tree × List Publication} (hstage : c.stage? a.setting a.tree n = some stage) :
    (s.moment k c n).sessions[k]? = some (a.after stage.1 stage.2) := by
  cases n with
  | zero =>
    cases hstage
    exact hk
  | succ n =>
    obtain ⟨t, ps, hd⟩ := step_of_live ((c.isOperation_cut n).trans hc) hk hlive
    rw [Command.stage?, hd.effect] at hstage
    cases hstage
    rw [Server.moment, hd.server, setSession_eq hk, getElem?_modifySession, if_pos rfl, hk]
    rfl

lemma getElem?_step_other (hc : c.isOperation) (hk : s.sessions[k]? = some a)
    (hother : j = k → ¬ a.tree.isLive) : (s.step j c).server.sessions[k]? = some a ∧
      (j = k → (s.step j c).notices = []) := by
  by_cases hdead : ∀ b : Session, s.sessions[j]? = some b → ¬ b.tree.isLive
  · obtain ⟨hserver, hnotices⟩ := step_of_dead hc hdead
    exact ⟨by rw [hserver, hk], fun _ => hnotices⟩
  · push Not at hdead
    obtain ⟨b, hb, hlive⟩ := hdead
    have hne : j ≠ k := by
      rintro rfl
      obtain rfl : a = b := Option.some.inj (hk.symm.trans hb)
      exact hother rfl hlive
    obtain ⟨t, ps, hd⟩ := step_of_live hc hb hlive
    refine ⟨?_, fun h => absurd h hne⟩
    rw [hd.server, setSession_eq hb, getElem?_modifySession, if_neg hne, hk]

/-- What is known of a subscription made at the moment `a₂` of a command that leads from `a` to
`a₃`: it was not given out before, and of the rest it was told all that happened on its hub. -/
structure Made (sub : Subscription) (a a₂ a₃ : Session) (events : List Event) : Prop where
  nextId_le : (a.switchboard.hub sub.hub).nextId ≤ sub.id
  registered : a₃.switchboard.Registered sub
  nextHub_le : a₂.tree.nextHub ≤ a₃.tree.nextHub
  tracked : ∃ ps, events = eventsOn sub.hub ps ∧ a₂.tree.Tracks ps a₃.tree

/-- A subscription is made in the middle of an operation by a follower that was told of a child. -/
lemma made_in_operation (hs : s.Sound root) (hc : c.isOperation) (hk : s.sessions[k]? = some a)
    (hlive : a.tree.isLive) {n : Nat} (h₁ : (s.moment k c n).sessions[k]? = some a₁)
    (h₂ : (s.moment k c (n + 1)).sessions[k]? = some a₂)
    (h₃ : (s.step k c).server.sessions[k]? = some a₃) (hnew : ¬ a₁.switchboard.Registered sub)
    (hmade : a₂.switchboard.Registered sub) :
    Made sub a a₂ a₃ (told sub (s.step k c).notices) := by
  obtain ⟨first, second, whole, hfirst, hsecond, hwhole, hstaged⟩ :=
    (hs.wellFormed k a hk).staged_effect (s := a.setting) hc n
  obtain ⟨⟨rs, hrs, hunheard⟩, qs, hqs, htracks, hnext⟩ := hstaged
  have hm₁ := getElem?_moment hc hk hlive hfirst
  have hm₂ := getElem?_moment hc hk hlive hsecond
  obtain rfl := Option.some.inj (hm₁.symm.trans h₁)
  obtain rfl := Option.some.inj (hm₂.symm.trans h₂)
  obtain ⟨t, ps, hd⟩ := step_of_live hc hk hlive
  obtain rfl : whole = (t, ps) := Option.some.inj (hwhole.symm.trans hd.effect)
  have hafter : (s.step k c).server.sessions[k]? = some (a.after t ps) := by
    rw [hd.server, setSession_eq hk, getElem?_modifySession, if_pos rfl, hk]
    rfl
  obtain rfl := Option.some.inj (hafter.symm.trans h₃)
  simp only [Session.after] at hnew hmade
  rw [hrs] at hmade
  have hfirstSound := (hs.moment k c n).switchboard k _ hm₁
  obtain ⟨hid, hregistered, htold⟩ := Switchboard.told_staged qs
    (hs.switchboard k a hk).ordered hfirstSound hunheard hnew hmade
  rw [← hrs, ← hqs] at hregistered htold
  refine ⟨hid, hregistered, hnext, qs, ?_, htracks⟩
  rw [hd.notices, htold]

lemma made_at_once (hc : ¬ c.isOperation) (hk : s.sessions[k]? = some a) {n : Nat}
    (h₁ : (s.moment j c n).sessions[k]? = some a₁)
    (h₂ : (s.moment j c (n + 1)).sessions[k]? = some a₂)
    (h₃ : (s.step j c).server.sessions[k]? = some a₃) (hnew : ¬ a₁.switchboard.Registered sub)
    (hmade : a₂.switchboard.Registered sub) :
    Made sub a a₂ a₃ (if j = k then told sub (s.step j c).notices else []) := by
  have hcut : ∀ m, (s.moment j c (m + 1)).sessions[k]? = some a₃ := by
    intro m
    rw [Server.moment, Command.cut_eq hc, h₃]
  obtain rfl : a₃ = a₂ := Option.some.inj ((hcut n).symm.trans h₂)
  obtain ⟨b, hb, hcase⟩ := s.step_session j c hk
  obtain rfl : a₃ = b := Option.some.inj (h₃.symm.trans hb)
  cases n with
  | succ n =>
    obtain rfl : a₃ = a₁ := Option.some.inj ((hcut n).symm.trans h₁)
    exact absurd hmade hnew
  | zero =>
    obtain rfl : a = a₁ := Option.some.inj (hk.symm.trans h₁)
    rcases hcase with ⟨-, -, honward, hnone⟩ | ⟨-, -, t, ps, heffect, -⟩
    · have hid : (a.switchboard.hub sub.hub).nextId ≤ sub.id := by
        by_contra hlt
        exact hnew (honward.registered hmade (by omega))
      refine ⟨hid, hmade, Nat.le_refl _, [], ?_, Tree.Tracks.nil _⟩
      split
      · next hj => rw [hnone hj, told_nil, eventsOn_nil]
      · rfl
    · rw [Command.effect?_eq_none hc] at heffect
      cases heffect

lemma made_at_moment (hs : s.Sound root) (hk : s.sessions[k]? = some a) {n : Nat}
    (h₁ : (s.moment j c n).sessions[k]? = some a₁)
    (h₂ : (s.moment j c (n + 1)).sessions[k]? = some a₂)
    (h₃ : (s.step j c).server.sessions[k]? = some a₃) (hnew : ¬ a₁.switchboard.Registered sub)
    (hmade : a₂.switchboard.Registered sub) :
    Made sub a a₂ a₃ (if j = k then told sub (s.step j c).notices else []) := by
  by_cases hc : c.isOperation
  · by_cases hother : j = k → ¬ a.tree.isLive
    · have hsame : ∀ m, (s.moment j c m).sessions[k]? = some a := by
        intro m
        cases m with
        | zero => exact hk
        | succ m => exact (getElem?_step_other ((c.isOperation_cut m).trans hc) hk hother).1
      obtain rfl : a = a₁ := Option.some.inj ((hsame n).symm.trans h₁)
      obtain rfl : a = a₂ := Option.some.inj ((hsame (n + 1)).symm.trans h₂)
      exact absurd hmade hnew
    · push Not at hother
      obtain ⟨rfl, hlive⟩ := hother
      rw [if_pos rfl]
      exact made_in_operation hs hc hk hlive h₁ h₂ h₃ hnew hmade
  · exact made_at_once hc hk h₁ h₂ h₃ hnew hmade

end

/-- In any run, take a subscription of session `k` that is there at one moment of a command and was
not there at the moment before, on the hub of a live node `m`. As long as it is registered, folding
all that it has heard over the children `m` had at that moment never fails. It gives the children
the node has now if it is live, and none if it was removed before the tree was dropped, if ever. -/
theorem mirrored_children (setting : Setting) (root : TypeDef) (count : Nat)
    (before after : List (Nat × Command)) (j : Nat) (c : Command) (n k : Nat) (hk : k < count)
    (sub : Subscription) (a₁ a₂ last : Session) (x : NodeId) (m : Node)
    (h₁ : (((start setting root count).run before).moment j c n).sessions[k]? = some a₁)
    (hnew : ¬ a₁.switchboard.Registered sub)
    (h₂ : (((start setting root count).run before).moment j c (n + 1)).sessions[k]? = some a₂)
    (hmade : a₂.switchboard.Registered sub) (hx : a₂.tree.node? x = some m)
    (hhub : m.hub = sub.hub)
    (hend : ((start setting root count).run (before ++ (j, c) :: after)).sessions[k]? = some last)
    (hlast : last.switchboard.Registered sub) :
    ∃ known, mirror m.children
        ((start setting root count).hears k sub (before ++ (j, c) :: after)) = some known ∧
      (∀ y n, last.tree.node? y = some n → n.hub = sub.hub → known = n.children) ∧
      ∀ early late, after = early ++ late → (k, Command.discard) ∉ early →
        ((start setting root count).run (before ++ (j, c) :: early)).Lacks k sub.hub →
        known = [] := by
  have hstart : (start setting root count).sessions[k]? = some (.start setting root) := by
    simp [start, hk]
  have hs := sound_run setting root count before
  obtain ⟨a, ha, -⟩ := onward_run hstart before
  obtain ⟨a₃, h₃, -⟩ := ((start setting root count).run before).onward_step j c ha
  have hsub := made_at_moment hs ha h₁ h₂ h₃ hnew hmade
  obtain ⟨ps, htold, htracks⟩ := hsub.tracked
  obtain ⟨hnode, hserial⟩ := ((hs.moment j c (n + 1)).wellFormed k a₂ h₂).hub hx
  rw [hhub] at hnode hserial
  have hview : a₂.tree.view sub.hub = m.children := Tree.view_eq (hnode ▸ hx) hhub
  rw [run_append] at hend
  obtain ⟨known, hknown, hlive, hgone⟩ := mirror_hears (hs.step j c) h₃ hsub.registered
    (Nat.lt_of_lt_of_le hserial hsub.nextHub_le) hend hlast
  refine ⟨known, ?_, hlive, fun early late hafter hearly hlacks => ?_⟩
  · rw [hears_append, hears_eq_nil (sound_start setting root count) hstart ha hsub.nextId_le,
      List.nil_append, hears, mirror_append, htold, ← hview, htracks sub.hub hserial]
    exact hknown
  · rw [run_append] at hlacks
    exact hgone early late hafter hearly hlacks

namespace Sample

/-- The first change brings a node that the follower of the root is told of. -/
def batch : Command :=
  .apply ⟨[], [
    .add .root { id := ⟨2⟩, field := "friend", children := [{ id := ⟨3⟩, field := "name" }] },
    .add ⟨2⟩ { id := ⟨4⟩, field := "name" }]⟩

def later : List (Nat × Command) :=
  [(0, .remove ⟨3⟩), (0, .add ⟨2⟩ { id := ⟨5⟩, field := "name" })]

/-- The subscription that the follower gets on the hub of that node. -/
def attached : Subscription := ⟨⟨2, ⟨2⟩⟩, 0⟩

end Sample

theorem mirrored_children_followed : ∃ (a₁ a₂ last : Session) (m : Node),
    (((start Sample.setting Sample.person 1).run Sample.watched).moment 0 Sample.batch
      1).sessions[0]? = some a₁ ∧ ¬ a₁.switchboard.Registered Sample.attached ∧
    (((start Sample.setting Sample.person 1).run Sample.watched).moment 0 Sample.batch
      2).sessions[0]? = some a₂ ∧ a₂.switchboard.Registered Sample.attached ∧
    a₂.tree.node? ⟨2⟩ = some m ∧ m.hub = Sample.attached.hub ∧ m.children = [⟨3⟩] ∧
    ((start Sample.setting Sample.person 1).run
      (Sample.watched ++ (0, Sample.batch) :: Sample.later)).sessions[0]? = some last ∧
    last.switchboard.Registered Sample.attached ∧
    mirror [⟨3⟩] ((start Sample.setting Sample.person 1).hears 0 Sample.attached
      (Sample.watched ++ (0, Sample.batch) :: Sample.later)) = some [⟨4⟩, ⟨5⟩] := by
  have h₁ : ((((start Sample.setting Sample.person 1).run Sample.watched).moment 0 Sample.batch
      1).sessions[0]?).map (fun a => decide (a.switchboard.Registered Sample.attached)) =
      some false := by cbv
  have h₂ : ((((start Sample.setting Sample.person 1).run Sample.watched).moment 0 Sample.batch
      2).sessions[0]?).map (fun a => (decide (a.switchboard.Registered Sample.attached),
        (a.tree.node? ⟨2⟩).map fun m => (m.hub, m.children))) =
      some (true, some (Sample.attached.hub, [⟨3⟩])) := by cbv
  have h₃ : (((start Sample.setting Sample.person 1).run
      (Sample.watched ++ (0, Sample.batch) :: Sample.later)).sessions[0]?).map (fun a =>
        (decide (a.switchboard.Registered Sample.attached),
          (a.tree.node? ⟨2⟩).map fun m => (m.hub, m.children))) =
      some (true, some (Sample.attached.hub, [⟨4⟩, ⟨5⟩])) := by cbv
  obtain ⟨a₁, ha₁, hnew⟩ := Option.map_eq_some_iff.mp h₁
  obtain ⟨a₂, ha₂, hmade⟩ := Option.map_eq_some_iff.mp h₂
  obtain ⟨last, hend, hlast⟩ := Option.map_eq_some_iff.mp h₃
  rw [Prod.mk.injEq, decide_eq_true_eq] at hmade hlast
  obtain ⟨m, hm, hmhub⟩ := Option.map_eq_some_iff.mp hmade.2
  obtain ⟨m', hm', hmhub'⟩ := Option.map_eq_some_iff.mp hlast.2
  rw [Prod.mk.injEq] at hmhub hmhub'
  rw [decide_eq_false_iff_not] at hnew
  obtain ⟨known, hknown, hlive, -⟩ := mirrored_children Sample.setting Sample.person 1
    Sample.watched Sample.later 0 Sample.batch 1 0 Nat.one_pos Sample.attached a₁ a₂ last ⟨2⟩ m
    ha₁ hnew ha₂ hmade.1 hm hmhub.1 hend hlast.1
  rw [hlive ⟨2⟩ m' hm' hmhub'.1, hmhub'.2, hmhub.2] at hknown
  exact ⟨a₁, a₂, last, m, ha₁, hnew, ha₂, hmade.1, hm, hmhub.1, hmhub.2, hend, hlast.1, hknown⟩

end Server

end LiveQuery
