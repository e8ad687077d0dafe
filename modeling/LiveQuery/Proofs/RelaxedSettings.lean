import LiveQuery.Proofs.Composition
import LiveQuery.Proofs.Easing
import LiveQuery.Proofs.SingleCalls

/-!
# Relaxed settings

More types may be registered and limits may be raised without anyone noticing, as long as no
addition was refused for a type that is not resolved or for a limit. Two servers that differ in the
settings of their sessions alone give the same answers and the same notices, command by command, and
go on to differ in the settings alone.
-/

namespace LiveQuery

def Session.withSetting (a : Session) (s : Setting) : Session := { a with setting := s }

/-- The server in which every session has the given setting. -/
def Server.withSetting (s : Server) (setting : Setting) : Server :=
  { s with sessions := s.sessions.map (·.withSetting setting) }

def Response.withSetting (r : Response) (setting : Setting) : Response :=
  { r with server := r.server.withSetting setting }

/-- Why anything was refused, as a reply tells. -/
def Reply.rejections : Reply → List Rejection
  | rejected e => [e]
  | addedChain _ stoppedBy => stoppedBy.toList
  | applied outcome => outcome.failures.map (·.2.2)
  | _ => []

namespace Server

section

variable {s : Server} {k : Nat} {setting : Setting} {c : Command}

/-! ### What settings do not matter for -/

@[simp] lemma handles_withSetting (s : Server) (setting : Setting) :
    (s.withSetting setting).handles = s.handles := rfl

@[simp] lemma session?_withSetting (s : Server) (setting : Setting) (k : Nat) :
    (s.withSetting setting).session? k = (s.session? k).map (·.withSetting setting) := by
  simp only [session?, withSetting, List.getElem?_map]
  cases s.sessions[k]? <;> rfl

@[simp] lemma live?_withSetting (s : Server) (setting : Setting) (k : Nat) :
    (s.withSetting setting).live? k = (s.live? k).map (·.withSetting setting) := by
  rw [live?, live?, session?_withSetting]
  cases s.session? k with
  | error e => rfl
  | ok a =>
    simp only [Except.map, Session.withSetting]
    split <;> rfl

lemma modifySession_withSetting (s : Server) (setting : Setting) (k : Nat) {f : Session → Session}
    (hf : ∀ a, f (a.withSetting setting) = (f a).withSetting setting) :
    (s.withSetting setting).modifySession k f = (s.modifySession k f).withSetting setting := by
  have hsessions : (s.sessions.map (·.withSetting setting)).modify k f =
      (s.sessions.modify k f).map (·.withSetting setting) := by
    apply List.ext_getElem?
    intro i
    simp only [List.getElem?_modify, List.getElem?_map]
    split
    · cases s.sessions[i]? <;> simp [hf]
    · cases s.sessions[i]? <;> simp
  simp only [modifySession, withSetting, hsessions]

@[simp] lemma modifyBindings_withSetting (s : Server) (setting : Setting) (k : Nat)
    (f : Bindings → Bindings) : (s.withSetting setting).modifyBindings k f =
      (s.modifyBindings k f).withSetting setting :=
  s.modifySession_withSetting setting k fun _ => rfl

@[simp] lemma modifySwitchboard_withSetting (s : Server) (setting : Setting) (k : Nat)
    (f : Switchboard → Switchboard) : (s.withSetting setting).modifySwitchboard k f =
      (s.modifySwitchboard k f).withSetting setting :=
  s.modifySession_withSetting setting k fun _ => rfl

lemma setSession_withSetting (s : Server) (setting : Setting) (k : Nat) (a : Session) :
    (s.withSetting setting).setSession k (a.withSetting setting) =
      (s.setSession k a).withSetting setting := by
  simp only [setSession, withSetting, List.map_set]

@[simp] lemma releaseHandle_withSetting (s : Server) (setting : Setting) (handle : String) :
    (s.withSetting setting).releaseHandle handle =
      (s.releaseHandle handle).withSetting setting := by
  simp only [releaseHandle, handles_withSetting]
  split
  · exact s.modifyBindings_withSetting setting _ _
  · rfl

@[simp] lemma dismissHandle_withSetting (s : Server) (setting : Setting) (handle : String) :
    (s.withSetting setting).dismissHandle handle =
      (s.dismissHandle handle).withSetting setting := by
  simp only [dismissHandle, handles_withSetting]
  split
  · exact s.modifySwitchboard_withSetting setting _ _
  · rfl

@[simp] lemma closeHandle_withSetting (s : Server) (setting : Setting) (handle : String) :
    (s.withSetting setting).closeHandle handle = (s.closeHandle handle).withSetting setting := by
  simp only [closeHandle, handles_withSetting]
  split
  · exact s.modifySwitchboard_withSetting setting _ _
  · rfl

@[simp] lemma hubAt?_withSetting (s : Server) (setting : Setting) (k : Nat) (place : Place) :
    (s.withSetting setting).hubAt? k place = s.hubAt? k place := by
  cases place with
  | handle name => rfl
  | node id =>
    simp only [hubAt?, live?_withSetting]
    cases s.live? k <;> rfl

lemma enlist_withSetting (s : Server) (setting : Setting) (hub : Owned HubId) (handle : String)
    (register : Switchboard → Switchboard) : (s.withSetting setting).enlist hub handle register =
      (s.enlist hub handle register).withSetting setting := by
  simp only [enlist, session?_withSetting]
  cases s.session? hub.session with
  | error e => rfl
  | ok a =>
    simp only [Except.map, modifySwitchboard_withSetting, dismissHandle_withSetting]
    rfl

/-- A command that is no operation on a tree has nothing to do with the setting. -/
theorem step_withSetting (s : Server) (setting : Setting) (k : Nat) (hc : ¬ c.isOperation) :
    (s.withSetting setting).step k c = (s.step k c).withSetting setting := by
  cases c <;> simp only [Command.isOperation, not_true_eq_false] at hc
  case put id value =>
    simp only [step, session?_withSetting, modifyBindings_withSetting]
    cases s.session? k <;> rfl
  case acquire id handle =>
    simp only [step, acquire, session?_withSetting]
    cases s.session? k with
    | error e => rfl
    | ok a =>
      simp only [Except.map, Session.withSetting, modifyBindings_withSetting,
        releaseHandle_withSetting]
      cases a.tree.bindings.acquire? id <;> rfl
  case release handle =>
    simp only [step, release, handles_withSetting, releaseHandle_withSetting]
    cases s.handles.references[handle]? <;> rfl
  case sweep =>
    simp only [step, session?_withSetting]
    cases s.session? k with
    | error e => rfl
    | ok a =>
      simp only [Except.map, modifyBindings_withSetting]
      rfl
  case subscribe place handle =>
    simp only [step, subscribe, hubAt?_withSetting, enlist_withSetting]
    split <;> rfl
  case follow place handle =>
    simp only [step, follow, hubAt?_withSetting, enlist_withSetting]
    split <;> rfl
  case openChannel place handle =>
    simp only [step, openChannel, hubAt?_withSetting, enlist_withSetting]
    cases s.hubAt? k place with
    | error e => rfl
    | ok hub =>
      dsimp only
      rcases s.enlist hub handle (·.openChannel hub.item) with ⟨reply, notices, s'⟩
      cases reply with
      | subscribed channel =>
        simp only [Response.withSetting, closeHandle_withSetting]
        rfl
      | _ => rfl
  case unsubscribe handle =>
    simp only [step, unsubscribe, handles_withSetting, session?_withSetting,
      dismissHandle_withSetting]
    cases s.handles.subscriptions[handle]? with
    | none => rfl
    | some o =>
      dsimp only
      cases s.session? o.session <;> rfl
  case drain handle keepHub =>
    simp only [step, drain, handles_withSetting, session?_withSetting,
      modifySwitchboard_withSetting]
    cases s.handles.channels[handle]? with
    | none => rfl
    | some o =>
      dsimp only
      cases s.session? o.session with
      | error e => rfl
      | ok a =>
        simp only [Except.map, Session.withSetting]
        split <;> rfl
  case closeChannel handle =>
    simp only [step, closeChannel, handles_withSetting, closeHandle_withSetting]
    cases s.handles.channels[handle]? <;> rfl
  case keepHub node handle =>
    simp only [step, keepHub, hubAt?_withSetting]
    cases s.hubAt? k (.node node) <;> rfl

/-! ### What they matter for -/

lemma onTree_withSetting {α : Type} {operation : Setting → Tree → Transition α} {reply : α → Reply}
    (h : ∀ a, s.live? k = .ok a → operation setting a.tree = operation a.setting a.tree) :
    (s.withSetting setting).onTree k operation reply =
      (s.onTree k operation reply).withSetting setting := by
  simp only [onTree, live?_withSetting]
  cases hlive : s.live? k with
  | error e => rfl
  | ok a =>
    have hperform : (a.withSetting setting).perform operation =
        ((a.perform operation).1, (a.perform operation).2.1,
          (a.perform operation).2.2.withSetting setting) := by
      simp only [Session.perform, Session.withSetting, h a hlive]
    simp only [Except.map, hperform, setSession_withSetting]
    rfl

/-- What a command sent to a session comes to in an easier setting. -/
theorem step_eased (s : Server) (k : Nat) (c : Command) (h : ∀ x ∈ s.settings, x.Eases setting)
    (hfree : ∀ e ∈ (s.step k c).reply.rejections, e.isHindrance = false) :
    (s.withSetting setting).step k c = (s.step k c).withSetting setting := by
  have heases : ∀ a, s.live? k = .ok a → a.setting.Eases setting := by
    intro a ha
    exact h _ (List.mem_map_of_mem (List.mem_of_getElem? (live?_eq_ok_iff.mp ha).1))
  cases c
  case apply batch =>
    rw [step, step]
    apply onTree_withSetting
    refine fun a ha => Tree.apply_eased (heases a ha) batch fun f hf => ?_
    simp only [step, onTree, ha, Session.perform, Reply.rejections] at hfree
    exact hfree _ (List.mem_map_of_mem hf)
  case add target sel =>
    rw [step, step]
    apply onTree_withSetting
    refine fun a ha => Tree.add_eased (heases a ha) _ _ fun e he => ?_
    simp only [step, onTree, ha, Session.perform, he, Reply.rejections] at hfree
    exact hfree e (List.mem_singleton_self e)
  case addChain target first count field =>
    rw [step, step]
    apply onTree_withSetting
    refine fun a ha => Tree.addChain_eased (heases a ha) field count target first fun e he => ?_
    simp only [step, onTree, ha, Session.perform, Reply.rejections] at hfree
    exact hfree e (Option.mem_toList.mpr he)
  case remove node =>
    rw [step, step]
    exact onTree_withSetting fun _ _ => rfl
  case teardown =>
    rw [step, step]
    exact onTree_withSetting fun _ _ => rfl
  case discard =>
    rw [step, step]
    exact onTree_withSetting fun _ _ => rfl
  all_goals exact s.step_withSetting setting k (by simp [Command.isOperation])

theorem run_eased {cs : List (Nat × Command)} (h : ∀ x ∈ s.settings, x.Eases setting)
    (hfree : ∀ r ∈ s.replies cs, ∀ e ∈ r.rejections, e.isHindrance = false) :
    (s.withSetting setting).run cs = (s.run cs).withSetting setting := by
  induction cs generalizing s with
  | nil => rfl
  | cons d rest ih =>
    obtain ⟨hfirst, hrest⟩ := List.forall_mem_cons.mp hfree
    rw [run, run, step_eased s d.1 d.2 h hfirst]
    exact ih (by rwa [settings_step]) hrest

end

/-- Types are registered in addition and limits are raised, or dropped. If no addition was refused
for a type that is not resolved or for a limit, then every command of the run has the same reply and
the same notices as before, and leaves a server that differs from the one before in the setting
alone. -/
theorem relaxing_conservative (schema schema' : Schema) (definitions : List TypeDef)
    (hregister : definitions.foldlM Schema.register schema = .ok schema') (l l' : Limits)
    (hlimits : l.Relaxes l') (root : TypeDef) (count : Nat) (cs : List (Nat × Command))
    (hfree : ∀ r ∈ (start ⟨schema.resolver, l⟩ root count).replies cs, ∀ e ∈ r.rejections,
      e.isHindrance = false) :
    ∀ before k c after, cs = before ++ (k, c) :: after →
      ((start ⟨schema'.resolver, l'⟩ root count).run before).step k c =
        (((start ⟨schema.resolver, l⟩ root count).run before).step k c).withSetting
          ⟨schema'.resolver, l'⟩ := by
  rintro before k c after rfl
  have heases := Schema.eases_of_registered hregister hlimits
  have hstart : start ⟨schema'.resolver, l'⟩ root count =
      (start ⟨schema.resolver, l⟩ root count).withSetting ⟨schema'.resolver, l'⟩ := by
    simp only [start, withSetting, List.map_replicate]
    rfl
  have hsettings : ∀ x ∈ (start ⟨schema.resolver, l⟩ root count).settings,
      x.Eases ⟨schema'.resolver, l'⟩ := by
    intro x hx
    simp only [settings, start, List.map_replicate] at hx
    obtain rfl := List.eq_of_mem_replicate hx
    exact heases
  rw [replies_append, List.forall_mem_append, replies, List.forall_mem_cons] at hfree
  obtain ⟨hbefore, hstep, -⟩ := hfree
  rw [hstart, run_eased hsettings hbefore]
  exact step_eased _ k c (by rwa [settings_run]) hstep

namespace Sample

def people : Schema := ⟨(∅ : Std.ExtTreeMap String TypeDef).insert person.name person⟩

/-- One of the definitions has the name of a primitive. -/
def newTypes : List TypeDef :=
  [.object ⟨"Pet", [⟨"owner", .named "Person"⟩]⟩, .object ⟨"String", [⟨"length", .named "Int"⟩]⟩]

/-- A child with a child is added, another one is refused, and the first one is removed. -/
def exchange : Command := .apply ⟨[⟨year, .int 2021⟩],
  [.add .root { id := ⟨2⟩, field := "friend", children := [{ id := ⟨3⟩, field := "name" }] },
    .add .root { id := ⟨4⟩, field := "age" }, .delete ⟨1⟩]⟩

end Sample

theorem relaxing_conservative_exchange : ∃ schema' : Schema,
    Sample.newTypes.foldlM Schema.register Sample.people = .ok schema' ∧
    (schema'.get? "String").isSome ∧
    (∀ r ∈ (start ⟨Sample.people.resolver, ⟨some 2, some 4⟩⟩ Sample.person 1).replies
      (Sample.watched ++ [(0, Sample.exchange)]), ∀ e ∈ r.rejections, e.isHindrance = false) ∧
    ((start ⟨schema'.resolver, ⟨none, some 9⟩⟩ Sample.person 1).run Sample.watched).step 0
        Sample.exchange =
      (((start ⟨Sample.people.resolver, ⟨some 2, some 4⟩⟩ Sample.person 1).run
        Sample.watched).step 0 Sample.exchange).withSetting ⟨schema'.resolver, ⟨none, some 9⟩⟩ := by
  have hregistered : (Sample.newTypes.foldlM Schema.register Sample.people).toOption.map
      (fun schema' => (schema'.get? "String").isSome) = some true := by decide +kernel
  obtain ⟨schema', hschema, hstring⟩ := Option.map_eq_some_iff.mp hregistered
  have hregister : Sample.newTypes.foldlM Schema.register Sample.people = .ok schema' := by
    cases h : Sample.newTypes.foldlM Schema.register Sample.people with
    | error e =>
      rw [h] at hschema
      cases hschema
    | ok r =>
      rw [h] at hschema
      cases hschema
      rfl
  have hfree : ∀ r ∈ (start ⟨Sample.people.resolver, ⟨some 2, some 4⟩⟩ Sample.person 1).replies
      (Sample.watched ++ [(0, Sample.exchange)]), ∀ e ∈ r.rejections, e.isHindrance = false := by
    decide +kernel
  have hlimits : Limits.Relaxes ⟨some 2, some 4⟩ ⟨none, some 9⟩ :=
    ⟨by simp, fun _ hlimit => ⟨4, rfl, by cases hlimit; decide⟩⟩
  exact ⟨schema', hregister, hstring, hfree, relaxing_conservative Sample.people schema'
    Sample.newTypes hregister _ _ hlimits Sample.person 1 _ hfree Sample.watched 0
    Sample.exchange [] rfl⟩

end Server

end LiveQuery
