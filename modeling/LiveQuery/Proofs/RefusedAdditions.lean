import LiveQuery.Proofs.Runs

/-!
# Refused additions

An addition that is refused, at whatever depth of the selection and after however much of it was in
the tree already, leaves no trace. Nodes, bindings, counts and observers are those from before, and
nobody hears of the attempt. Only serial numbers of hubs are used up, so that no hub comes back.
-/

namespace LiveQuery

namespace Server

section

variable {root : TypeDef} {s : Server} {k : Nat} {target : NodeId} {sel : Selection}
  {e : Rejection}

lemma add_of_rejected (h : (s.step k (.add target sel)).reply = .rejected e) :
    ∃ (session : Session) (t : Tree) (ps : List Publication), s.sessions[k]? = some session ∧
      session.tree.add session.setting target sel = ⟨.error e, t, ps⟩ ∧
      (s.step k (.add target sel)).notices = (session.switchboard.deliverAll ps).1 ∧
      (s.step k (.add target sel)).server = s.setSession k (session.after t ps) := by
  simp only [step, onTree] at h ⊢
  split at h
  · cases h
  · next session hlive =>
    obtain ⟨hk, -⟩ := live?_eq_ok_iff.mp hlive
    rcases hadd : session.tree.add session.setting target sel with ⟨e' | id, t, ps⟩
    · simp only [Session.perform, hadd, Reply.rejected.injEq] at h
      subst h
      refine ⟨session, t, ps, hk, hadd, ?_, ?_⟩ <;> simp [Session.perform, Session.after, hadd]
    · simp [Session.perform, hadd] at h

lemma Sound.add_rejected (hs : s.Sound root)
    (h : (s.step k (.add target sel)).reply = .rejected e) :
    (s.step k (.add target sel)).notices = [] ∧
      ∃ used, (s.step k (.add target sel)).server = s.modifySession k fun session =>
        { session with tree := { session.tree with nextHub := session.tree.nextHub + used } } := by
  obtain ⟨session, t, ps, hk, hadd, hnotices, hserver⟩ := add_of_rejected h
  obtain ⟨hnodes, hbindings, hnext, hfresh⟩ :=
    (hs.wellFormed k session hk).add_error hadd (hs.accounted k session hk)
  have hunattended : session.switchboard.deliverAll ps = ([], session.switchboard) :=
    Switchboard.deliverAll_of_unattended fun p hp =>
      (hs.switchboard k session hk).within p.hub (hfresh p hp)
  refine ⟨by rw [hnotices, hunattended], t.nextHub - session.tree.nextHub, ?_⟩
  have ht : t = { session.tree with
      nextHub := session.tree.nextHub + (t.nextHub - session.tree.nextHub) } :=
    Tree.ext hnodes hbindings (Nat.add_sub_cancel' hnext).symm
  have hafter : session.after t ps = { session with tree := t } := by
    rw [Session.after, hunattended]
  rw [hserver, setSession_eq hk]
  refine modifySession_congr hk ?_
  rw [hafter, ← ht]

end

/-- In every state that a run reaches, an addition that is refused leaves the server as it was, but
for serial numbers of hubs that are used up, and no observer is told anything. -/
theorem refused_addition_restores (setting : Setting) (root : TypeDef) (count : Nat)
    (cs : List (Nat × Command)) (k : Nat) (target : NodeId) (sel : Selection) (e : Rejection)
    (h : (((start setting root count).run cs).step k (.add target sel)).reply = .rejected e) :
    (((start setting root count).run cs).step k (.add target sel)).notices = [] ∧
      ∃ used, (((start setting root count).run cs).step k (.add target sel)).server =
        ((start setting root count).run cs).modifySession k fun session =>
          { session with tree := { session.tree with nextHub := session.tree.nextHub + used } } :=
  (sound_run setting root count cs).add_rejected h

namespace Sample

/-- A friend and a friend of hers, whose age cannot be selected. -/
def refused : Selection where
  id := ⟨2⟩
  field := "friend"
  arguments := [⟨"since", year⟩, ⟨"since", year⟩]
  children := [
    { id := ⟨3⟩, field := "friend", arguments := [⟨"until", year⟩] },
    { id := ⟨4⟩, field := "age" }]

end Sample

theorem refused_addition_restores_nested :
    (((start Sample.setting Sample.person 1).run Sample.watched).step 0
      (.add ⟨1⟩ Sample.refused)).reply = .rejected (.unknownField ⟨4⟩ "age" "Person") ∧
    (((start Sample.setting Sample.person 1).run Sample.watched).step 0
      (.add ⟨1⟩ Sample.refused)).notices = [] ∧
    ∃ used, (((start Sample.setting Sample.person 1).run Sample.watched).step 0
      (.add ⟨1⟩ Sample.refused)).server =
        ((start Sample.setting Sample.person 1).run Sample.watched).modifySession 0 fun session =>
          { session with tree := { session.tree with nextHub := session.tree.nextHub + used } } :=
  ⟨rfl, refused_addition_restores Sample.setting Sample.person 1 Sample.watched 0 ⟨1⟩ Sample.refused
    (.unknownField ⟨4⟩ "age" "Person") rfl⟩

end Server

end LiveQuery
