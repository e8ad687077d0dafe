import Mathlib.Data.List.Induction
import LiveQuery.Proofs.Collection
import LiveQuery.Proofs.Farewells
import LiveQuery.Proofs.Origins
import LiveQuery.Proofs.Ownership
import LiveQuery.Proofs.ReferenceCounts

/-!
# Held values

When a node is made its arguments are given the values that their variables have at that moment, one
for each name. In every state of a run it still holds these values, and so does each reference that
was handed out. Assignments change what is found by those who come later, and nothing else; old and
new holders of a variable are counted together.
-/

namespace LiveQuery

/-! ### Snapshots -/

/-- The variable that a name comes to, which is the last one listed for it. -/
def lastVariable (args : List Argument) (name : String) : Option VariableId :=
  (args.filterMap fun a => if a.name = name then some a.variableId else none).getLast?

lemma lastVariable_cons (a : Argument) (rest : List Argument) (name : String) :
    lastVariable (a :: rest) name =
      (lastVariable rest name).or (if a.name = name then some a.variableId else none) := by
  by_cases h : a.name = name
  · simp only [lastVariable, List.filterMap_cons, h, if_true, List.getLast?_cons]
    cases (rest.filterMap fun a => if a.name = name then some a.variableId else none).getLast? <;>
      rfl
  · simp [lastVariable, h]

namespace Bindings

/-- What is held comes from a list of arguments: for each name one reference, to the last variable
listed for it and with the value of that variable. -/
structure Snapshot (b : Bindings) (args : List Argument) (held : References) : Prop where
  variable_eq : ∀ name, (held[name]?).map Reference.variableId = lastVariable args name
  value_eq : ∀ (name : String) (r : Reference), held[name]? = some r →
    b.value? r.variableId = some r.value

section

variable {b c : Bindings} {args : List Argument} {held held' : References}

lemma SameValues.value?_eq (h : b.SameValues c) (v : VariableId) : b.value? v = c.value? v := h v

lemma getElem?_keep (b : Bindings) (held : References) (name : String) (r : Reference)
    (other : String) :
    (b.keep held name r).1[other]? = if name = other then some r else held[other]? := by
  simp only [keep, Std.ExtTreeMap.getElem?_insert, Std.compare_eq_iff_eq]

lemma snapshot_hold (hvalue : ∀ (name : String) (r : Reference), held[name]? = some r →
      b.value? r.variableId = some r.value)
    (h : (b.hold held args).1 = .ok held') :
    (∀ name, (held'[name]?).map Reference.variableId =
      (lastVariable args name).or ((held[name]?).map Reference.variableId)) ∧
    ∀ (name : String) (r : Reference), held'[name]? = some r →
      b.value? r.variableId = some r.value := by
  induction args generalizing b held with
  | nil =>
    cases h
    exact ⟨fun _ => rfl, hvalue⟩
  | cons a rest ih =>
    rw [hold] at h
    cases ha : b.acquire? a.variableId with
    | none => simp [ha] at h
    | some rc =>
      obtain ⟨r, c⟩ := rc
      obtain ⟨x, hx, rfl, -⟩ := acquire?_eq_some_iff.mp ha
      simp only [ha] at h
      have hsame := (sameValues_acquire ha).trans
        (sameValues_keep c held a.name ⟨a.variableId, x.value⟩)
      have hkept := getElem?_keep c held a.name ⟨a.variableId, x.value⟩
      have hvalue' : ∀ (name : String) (r : Reference),
          (c.keep held a.name ⟨a.variableId, x.value⟩).1[name]? = some r →
          (c.keep held a.name ⟨a.variableId, x.value⟩).2.value? r.variableId = some r.value := by
        intro name r hr
        rw [← hsame.value?_eq]
        rw [hkept] at hr
        split at hr
        · cases hr
          simp [value?, hx]
        · exact hvalue name r hr
      obtain ⟨hvariables, hvalues⟩ := ih hvalue' h
      refine ⟨fun name => ?_, fun name r hr => (hsame.value?_eq _).trans (hvalues name r hr)⟩
      rw [hvariables, lastVariable_cons, Option.or_assoc, hkept]
      congr 1
      split <;> rfl

theorem snapshot_of_hold (h : (b.hold ∅ args).1 = .ok held) : b.Snapshot args held := by
  obtain ⟨hvariables, hvalues⟩ := snapshot_hold (by simp) h
  exact ⟨fun name => by simpa using hvariables name, hvalues⟩

end

end Bindings

lemma Node.MadeFor.snapshot {s : Setting} {n : Node} {p : NodeId} {sel : Selection} {v : Tree}
    (h : n.MadeFor s p sel v) :
    v.nextHub = n.hub.serial ∧ v.bindings.Snapshot sel.arguments n.arguments := by
  obtain ⟨m, v', hsprout, hsame⟩ := h
  obtain ⟨k, type, held, -, hadmits, rfl, -⟩ := Tree.admits_of_sprout hsprout
  obtain ⟨-, -, -, -, -, harguments, hhub⟩ := lasting_eq_iff.mp hsame
  exact ⟨by rw [← hhub]; rfl, harguments ▸ Bindings.snapshot_of_hold hadmits.held_eq⟩

namespace Server

/-- After the commands `before` the command `c` made the node `n` in one of its calls, with
references to the last variables that the selection lists for each name and with the values that
were last assigned to them, and while `later` was carried out the node had these. -/
structure Arose (s : Server) (k : Nat) (n : Node) (before : List (Nat × Command)) (c : Command)
    (later : List (Nat × Command)) : Prop where
  made : ∃ (a : Session) (p : NodeId) (sel : Selection) (v : Tree),
    (s.run before).sessions[k]? = some a ∧ ¬ a.tree.Owns n.hub ∧
    c.Calls a.setting a.tree p sel v ∧ n.MadeFor a.setting p sel v ∧
    ∀ name, (n.arguments[name]?).map Reference.variableId = lastVariable sel.arguments name
  value_eq : ∀ (name : String) (r : Reference), n.arguments[name]? = some r →
    lastValue (s.assigned k before ++ c.assignments) r.variableId = some r.value
  kept : ∀ mid, mid <+: later → ∃ (a : Session) (m : Node),
    (s.run (before ++ (k, c) :: mid)).sessions[k]? = some a ∧ a.tree.node? n.id = some m ∧
    m.lasting = n.lasting

/-- After the commands `before` the reference `r` was taken, with the value that was assigned last,
and while `later` was carried out it was kept under the handle. -/
structure Taken (s : Server) (k : Nat) (handle : String) (r : Reference)
    (before later : List (Nat × Command)) : Prop where
  reply_eq : ((s.run before).step k (.acquire r.variableId handle)).reply = .acquired r
  value_eq : lastValue (s.assigned k before) r.variableId = some r.value
  kept : ∀ mid, mid <+: later →
    (s.run (before ++ (k, .acquire r.variableId handle) :: mid)).handles.references[handle]? =
      some ⟨k, r⟩

section

variable {root : TypeDef} {s : Server} {k j : Nat} {a b : Session} {c : Command} {n m : Node}
  {x : NodeId} {handle : String} {r : Reference} {cs before later : List (Nat × Command)}
  {setting : Setting} {count : Nat}

lemma run_concat (s : Server) (cs : List (Nat × Command)) (j : Nat) (c : Command) :
    s.run (cs ++ [(j, c)]) = ((s.run cs).step j c).server := by
  rw [run_append]
  rfl

/-! ### Nodes -/

lemma Sound.stems_step (hs : s.Sound root) (hk : (s.step j c).server.sessions[k]? = some b) :
    ∃ a : Session, s.sessions[k]? = some a ∧
      Tree.Stems a.setting a.tree (fun p sel v => j = k ∧ c.Calls a.setting a.tree p sel v)
        b.tree := by
  obtain ⟨a, ha, -⟩ := hs.inherits_step j c hk
  refine ⟨a, ha, ?_⟩
  obtain ⟨b', hb', ⟨hnodes, -⟩ | ⟨hjk, -, t, ps, heffect, -, rfl⟩⟩ := s.step_session j c ha
  · obtain rfl : b' = b := Option.some.inj (hb'.symm.trans hk)
    exact Tree.Stems.of_nodes_eq hnodes
  · obtain rfl : a.after t ps = b := Option.some.inj (hb'.symm.trans hk)
    exact ((hs.wellFormed k a ha).stems_effect heffect).imp fun p sel v hcall => ⟨hjk, hcall⟩

lemma value_of_call (hk : ((start setting root count).run cs).sessions[k]? = some a)
    {p : NodeId} {sel : Selection} {t : Tree} (hcall : c.Calls a.setting a.tree p sel t)
    {v : VariableId} {y : Json} (hy : t.bindings.value? v = some y) :
    lastValue ((start setting root count).assigned k cs ++ c.assignments) v = some y := by
  have hs := sound_run setting root count cs
  have hreaches := hcall.reaches (hs.wellFormed k a hk)
  have haccounts := Bindings.Exact.putAll (hs.accounted k a hk) c.assignments
  have hvalue : (a.tree.bindings.putAll c.assignments).value? v = some y :=
    ((hreaches.accounts _ haccounts).2 v).trans hy
  rw [Bindings.value?_putAll] at hvalue
  rw [lastValue_append]
  cases hlast : lastValue c.assignments v with
  | some z => rwa [hlast] at hvalue
  | none =>
    rw [hlast, Option.none_or] at hvalue
    exact value_of_run hk hvalue

lemma Arose.congr (h : s.Arose k m before c later) (hsame : m.lasting = n.lasting) :
    s.Arose k n before c later := by
  obtain ⟨⟨a, p, sel, v, ha, hown, hcall, hmade, hlisted⟩, hvalue, hkept⟩ := h
  have hmade' := hmade.congr hsame
  obtain ⟨hid, -, -, -, -, harguments, hhub⟩ := Node.lasting_eq_iff.mp hsame
  rw [hhub] at hown
  rw [harguments] at hlisted hvalue
  refine ⟨⟨a, p, sel, v, ha, hown, hcall, hmade', hlisted⟩, hvalue, fun mid hmid => ?_⟩
  obtain ⟨b, m', hb, hm', hkept⟩ := hkept mid hmid
  exact ⟨b, m', hb, hid ▸ hm', hkept.trans hsame⟩

lemma arose_of_call (ha : ((start setting root count).run cs).sessions[k]? = some a) {p : NodeId}
    {sel : Selection} {v : Tree} (hcall : c.Calls a.setting a.tree p sel v)
    (hmade : n.MadeFor a.setting p sel v)
    (hb : ((start setting root count).run (cs ++ [(k, c)])).sessions[k]? = some b)
    (hn : b.tree.node? n.id = some n) : (start setting root count).Arose k n cs c [] := by
  have hw := (sound_run setting root count cs).wellFormed k a ha
  obtain ⟨hhub, hsnapshot⟩ := hmade.snapshot
  refine ⟨⟨a, p, sel, v, ha, ?_, hcall, hmade, hsnapshot.variable_eq⟩,
    fun name r hr => value_of_call ha hcall (hsnapshot.value_eq name r hr), fun mid hmid => ?_⟩
  · rintro ⟨m, hm, hsame⟩
    have hlt := (hw.hub hm).2
    have hle : a.tree.nextHub ≤ v.nextHub := (hcall.reaches hw).nextHub_le
    rw [hsame] at hlt
    omega
  · obtain rfl := List.prefix_nil.mp hmid
    exact ⟨b, n, hb, hn, rfl⟩

lemma Arose.concat (h : s.Arose k n before c later) {d : Nat × Command}
    (hkept : ∃ (a : Session) (m : Node),
      (s.run (before ++ (k, c) :: (later ++ [d]))).sessions[k]? = some a ∧
      a.tree.node? n.id = some m ∧ m.lasting = n.lasting) :
    s.Arose k n before c (later ++ [d]) where
  made := h.made
  value_eq := h.value_eq
  kept mid hmid := by
    rcases List.prefix_concat_iff.mp hmid with rfl | hmid
    · exact hkept
    · exact h.kept mid hmid

/-- Every node was made by some command of the run, apart from the root, which holds nothing. -/
theorem arose_of_run (hk : ((start setting root count).run cs).sessions[k]? = some b)
    (hn : b.tree.node? x = some n) : (x = .root ∧ n.arguments = ∅) ∨
      ∃ before c later, cs = before ++ (k, c) :: later ∧
        (start setting root count).Arose k n before c later := by
  induction cs using List.reverseRecOn generalizing b n with
  | nil =>
    obtain rfl := List.eq_of_mem_replicate (List.mem_of_getElem? hk)
    rw [Session.start, Tree.node?_ofRoot] at hn
    split at hn
    · next hx =>
      cases hn
      exact .inl ⟨hx.symm, rfl⟩
    · cases hn
  | append_singleton cs d ih =>
    obtain ⟨j, c⟩ := d
    have hs := sound_run setting root count cs
    have hid := ((sound_run setting root count (cs ++ [(j, c)])).wellFormed k b hk).id_eq hn
    have hrun := hk
    rw [run_concat] at hk
    obtain ⟨a, ha, hstems⟩ := hs.stems_step hk
    obtain ⟨m, hm, hsame⟩ | ⟨p, sel, v, ⟨rfl, hcall⟩, hmade⟩ := hstems x n hn
    · obtain ⟨rfl, hnone⟩ | ⟨before, c', later, rfl, harose⟩ := ih ha hm
      · obtain ⟨-, -, -, -, -, harguments, -⟩ := Node.lasting_eq_iff.mp hsame
        exact .inl ⟨rfl, harguments.symm.trans hnone⟩
      · rw [List.append_assoc, List.cons_append] at hrun
        exact .inr ⟨before, c', later ++ [(j, c)], by simp,
          (harose.congr hsame).concat ⟨b, n, hrun, hid.symm ▸ hn, rfl⟩⟩
    · exact .inr ⟨cs, c, [], rfl, arose_of_call ha hcall hmade hrun (hid.symm ▸ hn)⟩

/-! ### References that were handed out -/

lemma references_enlist (s : Server) (hub : Owned HubId) (handle : String)
    (register : Switchboard → Switchboard) :
    (s.enlist hub handle register).server.handles.references = s.handles.references := by
  unfold enlist
  split <;> simp

lemma references_step_eq (hacquire : ∀ id handle, c ≠ .acquire id handle)
    (hrelease : ∀ handle, c ≠ .release handle) :
    (s.step j c).server.handles.references = s.handles.references := by
  by_cases hc : c.isOperation
  · obtain ⟨α, operation, reply, hstep, -⟩ := exists_operation hc
    rw [hstep, onTree]
    split <;> rfl
  · cases c <;> simp only [Command.isOperation, not_true_eq_false] at hc
    case acquire id handle => exact absurd rfl (hacquire id handle)
    case release handle => exact absurd rfl (hrelease handle)
    case put id value =>
      simp only [step]
      split <;> simp
    case sweep =>
      simp only [step]
      split <;> simp
    case subscribe place handle =>
      simp only [step, subscribe]
      split <;> simp [references_enlist]
    case follow place handle =>
      simp only [step, follow]
      split <;> simp [references_enlist]
    case openChannel place handle =>
      simp only [step, openChannel]
      split
      · rfl
      · next hub _ =>
        have henlist := references_enlist s hub handle (·.openChannel hub.item)
        split
        · next heq =>
          rw [heq] at henlist
          simpa using henlist
        · exact henlist
    case unsubscribe handle =>
      simp only [step, unsubscribe]
      split
      · rfl
      · split <;> simp
    case drain handle keepHub =>
      simp only [step, drain]
      split
      · rfl
      · split
        · rfl
        · split <;> simp
    case closeChannel handle =>
      simp only [step, closeChannel]
      split <;> simp
    case keepHub node handle =>
      simp only [step, keepHub]
      split <;> rfl

lemma references_step (h : (s.step j c).server.handles.references[handle]? = some ⟨k, r⟩) :
    s.handles.references[handle]? = some ⟨k, r⟩ ∨
      (j = k ∧ c = .acquire r.variableId handle ∧ (s.step j c).reply = .acquired r ∧
        ∃ a : Session, s.sessions[k]? = some a ∧
          a.tree.bindings.value? r.variableId = some r.value) := by
  by_cases hacquire : ∃ id name, c = .acquire id name
  · obtain ⟨id, name, rfl⟩ := hacquire
    have hreply : ∀ a taken b, s.session? j = .ok a →
        a.tree.bindings.acquire? id = some (taken, b) →
        (s.step j (.acquire id name)).reply = .acquired taken := by
      intro a taken b ha hb
      simp only [step, acquire, ha, hb]
    simp only [step, acquire] at h
    split at h
    · exact .inl h
    · next a ha =>
      split at h
      · exact .inl h
      · next taken b hb =>
        obtain ⟨y, hy, rfl, -⟩ := Bindings.acquire?_eq_some_iff.mp hb
        simp only [handles_releaseHandle, handles_modifyBindings, Std.ExtTreeMap.getElem?_insert,
          Std.compare_eq_iff_eq] at h
        split at h
        · next hname =>
          subst hname
          cases h
          exact .inr ⟨rfl, rfl, hreply a _ b ha hb, a, session?_eq_ok_iff.mp ha,
            by simp [Bindings.value?, hy]⟩
        · exact .inl h
  · by_cases hrelease : ∃ name, c = .release name
    · obtain ⟨name, rfl⟩ := hrelease
      simp only [step, release] at h
      split at h
      · exact .inl h
      · simp only [handles_releaseHandle, Std.ExtTreeMap.getElem?_erase] at h
        split at h
        · cases h
        · exact .inl h
    · push Not at hacquire hrelease
      rw [references_step_eq hacquire hrelease] at h
      exact .inl h

/-- Every reference under a handle was taken by some command of the run. -/
theorem taken_of_run
    (h : ((start setting root count).run cs).handles.references[handle]? = some ⟨k, r⟩) :
    ∃ before later, cs = before ++ (k, .acquire r.variableId handle) :: later ∧
      (start setting root count).Taken k handle r before later := by
  induction cs using List.reverseRecOn with
  | nil => simp [start, run] at h
  | append_singleton cs d ih =>
    obtain ⟨j, c⟩ := d
    have hrun := h
    rw [run_concat] at h
    obtain hold | ⟨rfl, rfl, hreply, a, ha, hvalue⟩ := references_step h
    · obtain ⟨before, later, rfl, htaken⟩ := ih hold
      refine ⟨before, later ++ [(j, c)], by simp, htaken.reply_eq, htaken.value_eq, ?_⟩
      intro mid hmid
      rcases List.prefix_concat_iff.mp hmid with rfl | hmid
      · simpa using hrun
      · exact htaken.kept mid hmid
    · refine ⟨cs, [], rfl, hreply, value_of_run ha hvalue, ?_⟩
      intro mid hmid
      obtain rfl := List.prefix_nil.mp hmid
      exact hrun

/-! ### Those who come later -/

/-- Whoever refers to a variable next gets the value that was assigned last, and is counted with all
who refer to it already. -/
lemma acquire?_of_run (hk : ((start setting root count).run cs).sessions[k]? = some a)
    {v : VariableId} {y : Json} (hy : a.tree.bindings.value? v = some y) :
    lastValue ((start setting root count).assigned k cs) v = some y ∧
      ∃ b : Bindings, a.tree.bindings.acquire? v = some (⟨v, y⟩, b) ∧
        b.count? v = some (a.tree.entries.countP (·.2.2.variableId = v) +
          (((start setting root count).run cs).outstanding k).countP (·.variableId = v) + 1) := by
  have hcounted : a.tree.Counted (((start setting root count).run cs).outstanding k) :=
    ((sound_run setting root count cs).accounted k a hk).counted
  obtain ⟨binding, hbinding, rfl⟩ := Option.map_eq_some_iff.mp hy
  have hcount := hcounted.bound v binding.count (by simp [Bindings.count?, hbinding])
  have htaken := Bindings.acquire?_eq_some_iff.mpr ⟨binding, hbinding, rfl, rfl⟩
  refine ⟨value_of_run hk hy, _, htaken, ?_⟩
  simp [Bindings.count?, Bindings.get?_insert, hcount]

end

/-- Whatever was sent, a node other than the root has for each argument name it was asked with one
reference, to the last variable listed for that name and with the value last assigned to it when the
node was made, and it has had it ever since. So has a reference that was handed out the value from
when it was taken. What is referred to next gets the value assigned last, while all are counted
together. -/
theorem held_values_are_snapshots (setting : Setting) (root : TypeDef) (count : Nat)
    (cs : List (Nat × Command)) (k : Nat) (a : Session)
    (hk : ((start setting root count).run cs).sessions[k]? = some a) :
    (∀ x n, a.tree.node? x = some n → (x = .root ∧ n.arguments = ∅) ∨
      ∃ before c later, cs = before ++ (k, c) :: later ∧
        (start setting root count).Arose k n before c later) ∧
    (∀ (handle : String) (r : Reference),
      ((start setting root count).run cs).handles.references[handle]? = some ⟨k, r⟩ →
      ∃ before later, cs = before ++ (k, .acquire r.variableId handle) :: later ∧
        (start setting root count).Taken k handle r before later) ∧
    a.tree.Counted (((start setting root count).run cs).outstanding k) ∧
    ∀ v y, a.tree.bindings.value? v = some y →
      lastValue ((start setting root count).assigned k cs) v = some y ∧
      ∃ b : Bindings, a.tree.bindings.acquire? v = some (⟨v, y⟩, b) ∧
        b.count? v = some (a.tree.entries.countP (·.2.2.variableId = v) +
          (((start setting root count).run cs).outstanding k).countP (·.variableId = v) + 1) := by
  have hs := sound_run setting root count cs
  exact ⟨fun _ _ => arose_of_run hk, fun _ _ => taken_of_run, (hs.accounted k a hk).counted,
    fun _ _ => acquire?_of_run hk⟩

namespace Sample

/-- The child of the root lists a name twice, and a reference is kept. Both variables are assigned
anew, by a command and by a batch, which adds another child, fails to add a third, and assigns one
of them twice. -/
def reassigned : List (Nat × Command) :=
  [(0, .put year (.int 2020)), (0, .put month (.int 5)),
    (0, .add .root { id := ⟨1⟩, field := "friend",
                     arguments := [⟨"since", month⟩, ⟨"at", month⟩, ⟨"since", year⟩] }),
    (0, .acquire year "mine"), (0, .put year (.int 2021)),
    (0, .apply ⟨[⟨year, .int 2022⟩, ⟨month, .int 6⟩, ⟨year, .int 2023⟩],
      [.add .root { id := ⟨2⟩, field := "friend", arguments := [⟨"since", year⟩] },
        .add .root { id := ⟨3⟩, field := "age", arguments := [⟨"since", year⟩] }]⟩),
    (0, .put year (.int 2024))]

end Sample

theorem held_values_are_snapshots_reassigned : ∃ (a : Session) (n : Node) (b : Bindings),
    ((start Sample.setting Sample.person 1).run Sample.reassigned).sessions[0]? = some a ∧
    a.tree.node? ⟨1⟩ = some n ∧
    n.arguments.toList = [("at", ⟨Sample.month, .int 5⟩), ("since", ⟨Sample.year, .int 2020⟩)] ∧
    (∃ before c later, Sample.reassigned = before ++ (0, c) :: later ∧
      (start Sample.setting Sample.person 1).Arose 0 n before c later) ∧
    (∃ before later, Sample.reassigned = before ++ (0, .acquire Sample.year "mine") :: later ∧
      (start Sample.setting Sample.person 1).Taken 0 "mine" ⟨Sample.year, .int 2020⟩ before later) ∧
    a.tree.bindings.acquire? Sample.year = some (⟨Sample.year, .int 2024⟩, b) ∧
    b.count? Sample.year = some 4 := by
  have hend : (((start Sample.setting Sample.person 1).run Sample.reassigned).sessions[0]?).bind
      (fun a => (a.tree.node? ⟨1⟩).map fun n =>
        (n.arguments.toList, a.tree.bindings.value? Sample.year)) =
      some ([("at", ⟨Sample.month, .int 5⟩), ("since", ⟨Sample.year, .int 2020⟩)],
        some (.int 2024)) := by
    cbv
  have hcount : (((start Sample.setting Sample.person 1).run Sample.reassigned).sessions[0]?).bind
      (fun a => (a.tree.bindings.acquire? Sample.year).bind (·.2.count? Sample.year)) = some 4 := by
    decide +kernel
  have hmine : ((start Sample.setting Sample.person 1).run
      Sample.reassigned).handles.references["mine"]? = some ⟨0, ⟨Sample.year, .int 2020⟩⟩ := by
    cbv
  obtain ⟨a, hk, hend⟩ := Option.bind_eq_some_iff.mp hend
  obtain ⟨n, hn, hend⟩ := Option.map_eq_some_iff.mp hend
  obtain ⟨harguments, hvalue⟩ := Prod.mk.inj hend
  obtain ⟨hnodes, hreferences, -, hlater⟩ := held_values_are_snapshots Sample.setting
    Sample.person 1 Sample.reassigned 0 a hk
  obtain ⟨-, b, hb, -⟩ := hlater Sample.year _ hvalue
  obtain ⟨hroot, -⟩ | harose := hnodes ⟨1⟩ n hn
  · cases hroot
  · rw [hk, Option.bind_some, hb, Option.bind_some] at hcount
    exact ⟨a, n, b, hk, hn, harguments, harose, hreferences "mine" _ hmine, hb, hcount⟩

end Server

end LiveQuery
