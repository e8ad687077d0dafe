import LiveQuery.Proofs.Renumbering
import LiveQuery.Proofs.SingleCalls

/-!
# Changes that were not made

A change of a batch that is refused, or that has nothing to act on, leaves nothing that a later change
could tell. The batch without these changes is carried out in full, and does and tells the same. A
refused addition can use up serial numbers of hubs, so the hubs given out after it have other numbers.
-/

namespace LiveQuery

/-- The places of the changes that were not made. -/
def Outcome.lost (o : Outcome) : List Nat := o.failures.map (·.1) ++ o.skipped.map (·.1)

/-- A batch without its changes at some places. -/
def Batch.without (b : Batch) (places : List Nat) : Batch :=
  { b with changes := (b.changes.zipIdx.filter (·.2 ∉ places)).map (·.1) }

/-- One report says that the change at a place was not made. -/
def LostAt (reports : List Report) (i : Nat) : Prop :=
  ∃ r ∈ reports, r.index = i ∧ r.verdict ≠ .applied

lemma Outcome.mem_lost_iff {o : Outcome} {i : Nat} : i ∈ o.lost ↔ LostAt o.reports i := by
  simp only [lost, List.mem_append, List.mem_map]
  constructor
  · rintro (⟨⟨j, target, e⟩, hf, rfl⟩ | ⟨⟨j, target, reason⟩, hf, rfl⟩)
    · exact ⟨_, mem_failures_iff.mp hf, rfl, by simp⟩
    · exact ⟨_, mem_skipped_iff.mp hf, rfl, by simp⟩
  · rintro ⟨⟨j, target, verdict⟩, hr, rfl, hlost⟩
    cases verdict with
    | applied => exact absurd rfl hlost
    | failed e => exact .inl ⟨_, mem_failures_iff.mpr hr, rfl⟩
    | skipped reason => exact .inr ⟨_, mem_skipped_iff.mpr hr, rfl⟩

lemma Outcome.applied_of_forall {o : Outcome} (h : ∀ r ∈ o.reports, r.verdict = .applied) :
    o.isClean ∧ o.applied = o.reports.length := by
  have happlied : o.applied = o.reports.length := by
    rw [applied, List.countP_eq_length]
    exact fun r hr => by simpa using h r hr
  exact ⟨o.isClean_iff.mpr happlied, happlied⟩

lemma exists_shift {n m : Nat} (h : n ≤ m) : ∃ σ : Nat → Nat, StrictMono σ ∧ (∀ i < n, σ i = i) ∧
    σ n = m ∧ ∀ i, n ≤ i → σ (i + 1) = σ i + 1 := by
  refine ⟨fun i => if i < n then i else i + (m - n), fun i j hij => ?_, fun i hi => if_pos hi, ?_,
    fun i hi => ?_⟩
  · dsimp only
    split <;> split <;> omega
  · simp only [lt_irrefl, if_false]
    omega
  · dsimp only
    rw [if_neg (by omega), if_neg (by omega)]
    omega

namespace Tree

/-- The changes of a list that are made. -/
def made (s : Setting) : List Change → Tree → List Change
  | [], _ => []
  | c :: rest, t =>
    if (t.change s c).result = .applied then c :: made s rest (t.change s c).tree
    else made s rest (t.change s c).tree

/-- From switchboard `b` on, `t` was reached with `ps` published just as `t'` was reached with `ps'`
published, but for serial numbers. -/
structure Renumbered (ρ : Nat → Nat) (b : Switchboard) (t' : Tree) (ps' : List Publication)
    (t : Tree) (ps : List Publication) : Prop where
  nodes : t.nodes = (t'.renumber ρ).nodes
  bindings : t.bindings = t'.bindings
  notices : (b.deliverAll ps).1 = (b.deliverAll ps').1.map (·.renumber ρ)
  observers : (b.deliverAll ps').2.Renumbers ρ (b.deliverAll ps).2

section

variable {root : TypeDef} {s : Setting} {t t' t'' : Tree} {b : Switchboard} {c : Change}
  {ρ σ : Nat → Nat} {ps qs rs : List Publication} {out : List Reference}

lemma filter_lost (s : Setting) (index : Nat) (cs : List Change) (t : Tree) (places : List Nat)
    (h : ∀ i, index ≤ i → (i ∈ places ↔ LostAt (t.changeAll s index cs).result i)) :
    ((cs.zipIdx index).filter (·.2 ∉ places)).map (·.1) = t.made s cs := by
  induction cs generalizing t index with
  | nil => rfl
  | cons c rest ih =>
    have hlater : ∀ r ∈ ((t.change s c).tree.changeAll s (index + 1) rest).result,
        index + 1 ≤ r.index := by
      intro r hr
      have hmem := List.mem_map_of_mem (f := (·.index)) hr
      rw [reports_index, List.mem_range'_1] at hmem
      exact hmem.1
    have hrest := ih (index + 1) (t.change s c).tree fun i hi => by
      rw [h i (by omega)]
      constructor
      · rintro ⟨r, hr, hri, hlost⟩
        rcases List.mem_cons.mp hr with rfl | hr
        · simp only at hri
          omega
        · exact ⟨r, hr, hri, hlost⟩
      · rintro ⟨r, hr, hri, hlost⟩
        exact ⟨r, List.mem_cons_of_mem _ hr, hri, hlost⟩
    have hhead : index ∈ places ↔ (t.change s c).result ≠ .applied := by
      rw [h index (Nat.le_refl _)]
      constructor
      · rintro ⟨r, hr, hri, hlost⟩
        rcases List.mem_cons.mp hr with rfl | hr
        · exact hlost
        · have := hlater r hr
          omega
      · exact fun hlost => ⟨_, List.mem_cons_self, rfl, hlost⟩
    rw [List.zipIdx_cons, made]
    by_cases happlied : (t.change s c).result = .applied
    · have hnot : index ∉ places := fun hmem => hhead.mp hmem happlied
      rw [if_pos happlied, List.filter_cons_of_pos (by simpa using hnot), List.map_cons, hrest]
    · have hmem : index ∈ places := hhead.mpr happlied
      rw [if_neg happlied, List.filter_cons_of_neg (by simpa using hmem), hrest]

/-- A change that is not made uses up serial numbers at most, and nobody can hear of it. -/
lemma WellFormed.change_lost (h : t.WellFormed root) (ha : t.Accounts out)
    (hlost : (t.change s c).result ≠ .applied) :
    (t.change s c).tree = { t with nextHub := (t.change s c).tree.nextHub } ∧
      ∀ e ∈ (t.change s c).published, t.nextHub ≤ e.hub.serial := by
  unfold change at hlost ⊢
  split at hlost
  · next hlive =>
    rw [if_pos hlive]
    cases c with
    | add target sel =>
      simp only at hlost ⊢
      rcases hadd : t.add s target sel with ⟨e | id, t', ps⟩
      · obtain ⟨hnodes, hbindings, -, hsilent⟩ := h.add_error hadd ha
        exact ⟨Tree.ext hnodes hbindings rfl, hsilent⟩
      · simp [hadd] at hlost
    | delete target =>
      simp only at hlost ⊢
      split at hlost
      · next hroot => simp [hroot]
      · simp at hlost
  · next hgone => simp [hgone]

namespace Renumbered

lemma refl (b : Switchboard) (t : Tree) (ps : List Publication) : Renumbered id b t ps t ps where
  nodes := (nodes_ext fun x => by
    rw [node?_renumber]
    cases t.node? x <;> rfl).symm
  bindings := rfl
  notices := by
    have hself : ∀ x : Notice, x.renumber id = x := fun x =>
      x.renumber_eq_self rfl fun _ _ => rfl
    simp [hself]
  observers _ := rfl

lemma prepend (h : Renumbered ρ (b.deliverAll qs).2 t' ps' t ps)
    (hfix : ∀ x ∈ (b.deliverAll qs).1, x.renumber ρ = x) :
    Renumbered ρ b t' (qs ++ ps') t (qs ++ ps) where
  nodes := h.nodes
  bindings := h.bindings
  notices := by
    simp only [Switchboard.deliverAll_append, List.map_append, h.notices]
    rw [List.map_congr_left hfix, List.map_id']
  observers := by
    simp only [Switchboard.deliverAll_append]
    exact h.observers

/-- What nobody hears of can be left out in front, and so can a renumbering of hubs that nobody
knows of. -/
lemma leave_out (h : Renumbered ρ b (t'.renumber σ) (ps'.map (·.renumber σ)) t ps)
    (hqs : b.deliverAll qs = ([], b)) (hσ : σ.Injective) (hb : b.Renumbers σ b) :
    Renumbered (ρ ∘ σ) b t' ps' t (qs ++ ps) := by
  obtain ⟨hnotices, hobservers⟩ := hb.deliverAll hσ ps'
  constructor
  · rw [h.nodes, renumber_renumber]
  · exact h.bindings
  · simp only [Switchboard.deliverAll_append, hqs, List.nil_append, h.notices, hnotices,
      List.map_map, Function.comp_def, Notice.renumber_renumber]
  · simp only [Switchboard.deliverAll_append, hqs]
    exact hobservers.trans h.observers

end Renumbered

/-- The changes that are made do what all changes do, if the others are left out. -/
theorem WellFormed.changeAll_made (h : t.WellFormed root) (ha : t.Accounts out)
    (hb : b.Sound t.nextHub) (index place : Nat) (cs : List Change) :
    ∃ ρ : Nat → Nat, StrictMono ρ ∧ (∀ n < t.nextHub, ρ n = n) ∧
      (∀ r ∈ (t.changeAll s place (t.made s cs)).result, r.verdict = .applied) ∧
      (t.changeAll s index cs).result.countP (·.verdict = .applied) = (t.made s cs).length ∧
      Renumbered ρ b (t.changeAll s place (t.made s cs)).tree
        (t.changeAll s place (t.made s cs)).published
        (t.changeAll s index cs).tree (t.changeAll s index cs).published := by
  induction cs generalizing t b index place with
  | nil =>
    exact ⟨id, strictMono_id, fun _ _ => rfl, by simp [made, changeAll], rfl, .refl b t []⟩
  | cons c rest ih =>
    have he := h.evolves_change (s := s) c
    have hb' := hb.mono he.nextHub_le
    by_cases happlied : (t.change s c).result = .applied
    · obtain ⟨ρ, hmono, hfix, hclean, hcount, hsame⟩ := ih he.wellFormed (he.accounts out ha)
        (hb'.deliverAll he.child_lt) (index + 1) (place + 1)
      simp only [made, happlied, if_true, changeAll, List.forall_mem_cons, List.length_cons]
      refine ⟨ρ, hmono, fun n hn => hfix n (Nat.lt_of_lt_of_le hn he.nextHub_le),
        ⟨trivial, hclean⟩, ?_, hsame.prepend fun x hx => ?_⟩
      · rw [List.countP_cons_of_pos (by simp), hcount]
      · obtain ⟨hhub, hchild⟩ := hb'.notices_lt he.child_lt x hx
        exact x.renumber_eq_self (hfix _ hhub) fun d hd => hfix _ (hchild d hd)
    · obtain ⟨htree, hsilent⟩ := h.change_lost ha happlied
      have hunattended : b.deliverAll (t.change s c).published = ([], b) :=
        Switchboard.deliverAll_of_unattended fun e he => hb.within e.hub (hsilent e he)
      -- the tree after the change is the tree before it with another number for the next hub
      obtain ⟨σ, hσ, hσfix, hσnext, hσstep⟩ := exists_shift he.nextHub_le
      have hshift : t.renumber σ = (t.change s c).tree := by
        rw [h.renumber_eq hσfix, hσnext, ← htree]
      obtain ⟨ρ, hmono, hfix, hclean, hcount, hsame⟩ := ih he.wellFormed (he.accounts out ha)
        hb' (index + 1) place
      have hmade : t.made s (c :: rest) = (t.change s c).tree.made s rest := by
        rw [made, if_neg happlied]
      have hrun := h.changeAll_renumber (s := s) hσstep place ((t.change s c).tree.made s rest)
      rw [hshift] at hrun
      rw [hrun] at hclean hsame
      simp only [hmade, changeAll]
      refine ⟨ρ ∘ σ, hmono.comp hσ, fun n hn => ?_, hclean, ?_, hsame.leave_out hunattended
        hσ.injective (hb.renumbers hσ hσfix)⟩
      · rw [Function.comp_apply, hσfix n hn, hfix n (Nat.lt_of_lt_of_le hn he.nextHub_le)]
      · rw [List.countP_cons_of_neg (by simpa using happlied), hcount]

end

end Tree

/-- Of the responses to two batches sent to session `k` of a server, `r` with the outcome `o` and
`r'`, the second was carried out in full, and the first leaves and tells the same but for serial
numbers from `n` on. -/
structure Response.SameBut (n k : Nat) (s : Server) (o : Outcome) (r r' : Response) : Prop where
  clean : ∃ o', r'.reply = .applied o' ∧ o'.isClean ∧ o'.applied = o.applied ∧
    o'.collected = o.collected
  same : ∃ (a a' : Session) (ρ : Nat → Nat), r.server = s.setSession k a ∧
    r'.server = s.setSession k a' ∧ StrictMono ρ ∧ (∀ m < n, ρ m = m) ∧
    a.tree.nodes = (a'.tree.renumber ρ).nodes ∧ a.tree.bindings = a'.tree.bindings ∧
    r.notices = r'.notices.map (·.renumber ρ) ∧ a'.switchboard.Renumbers ρ a.switchboard

namespace Server

section

variable {root : TypeDef} {s : Server} {k : Nat} {a : Session}

lemma Sound.step_apply_without (hs : s.Sound root) (hk : s.sessions[k]? = some a)
    (hlive : a.tree.isLive) (batch : Batch) :
    ∃ o : Outcome, (s.step k (.apply batch)).reply = .applied o ∧
      Response.SameBut a.tree.nextHub k s o (s.step k (.apply batch))
        (s.step k (.apply (batch.without o.lost))) := by
  obtain ⟨b, hb⟩ : ∃ b, b = a.withBindings (a.tree.bindings.putAll batch.assignments) := ⟨_, rfl⟩
  have hw := (hs.wellFormed k a hk).withBindings hb
  have haccounts : b.tree.Accounts (ofSession k s.references) := by
    rw [hb]
    exact Bindings.Exact.putAll (hs.accounted k a hk) batch.assignments
  have hswitch : b.switchboard.Sound b.tree.nextHub := by
    rw [hb]
    exact hs.switchboard k a hk
  have hnext : b.tree.nextHub = a.tree.nextHub := by
    rw [hb]
    rfl
  obtain ⟨r, hr⟩ : ∃ r, r = b.tree.changeAll b.setting 0 batch.changes := ⟨_, rfl⟩
  let o : Outcome := ⟨batch.assignments.length, r.result, r.tree.bindings.sweep.1⟩
  have hchanges : (batch.without o.lost).changes = b.tree.made b.setting batch.changes :=
    Tree.filter_lost b.setting 0 batch.changes b.tree o.lost fun i _ => by
      rw [Outcome.mem_lost_iff, ← hr]
  obtain ⟨r', hr'⟩ : ∃ r', r' = b.tree.changeAll b.setting 0 (batch.without o.lost).changes :=
    ⟨_, rfl⟩
  obtain ⟨ρ, hmono, hfix, hclean, hcount, hsame⟩ :=
    hw.changeAll_made (s := b.setting) haccounts hswitch 0 0 batch.changes
  rw [← hchanges, ← hr'] at hclean hsame
  rw [← hr] at hcount hsame
  obtain ⟨hisClean, happlied⟩ := Outcome.applied_of_forall
    (o := ⟨batch.assignments.length, r'.result, r'.tree.bindings.sweep.1⟩) hclean
  have hlength := congrArg List.length
    (Tree.reports_index b.setting 0 (batch.without o.lost).changes b.tree)
  rw [← hr', hchanges, List.length_map, List.length_range'] at hlength
  rw [step_apply hk hlive batch hb hr]
  refine ⟨o, rfl, ?_⟩
  rw [step_apply hk hlive (batch.without o.lost) hb hr']
  refine ⟨⟨_, rfl, hisClean, ?_, by rw [← hsame.bindings]⟩, _, _, ρ, rfl, rfl, hmono,
    hnext ▸ hfix, hsame.nodes, ?_, hsame.notices, hsame.observers⟩
  · exact happlied.trans (hlength.trans hcount.symm)
  · simp only [Session.withBindings, hsame.bindings]

end

/-- Whatever happened before, a batch without the changes that were refused or skipped is carried out
in full. It leaves the same nodes, bindings and observers and tells them the same, but for the serial
numbers of the hubs that it gives out. -/
theorem lost_changes_traceless (setting : Setting) (root : TypeDef) (count : Nat)
    (cs : List (Nat × Command)) (k : Nat) (a : Session)
    (hk : ((start setting root count).run cs).sessions[k]? = some a)
    (hlive : a.tree.isLive) (batch : Batch) :
    ∃ o : Outcome,
      (((start setting root count).run cs).step k (.apply batch)).reply = .applied o ∧
      Response.SameBut a.tree.nextHub k ((start setting root count).run cs) o
        (((start setting root count).run cs).step k (.apply batch))
        (((start setting root count).run cs).step k (.apply (batch.without o.lost))) :=
  (sound_run setting root count cs).step_apply_without hk hlive batch

/-- The first change of the batch uses up a serial number before it is refused. -/
theorem lost_changes_traceless_mixed : ∃ (a : Session) (o : Outcome),
    ((start Sample.setting Sample.person 1).run Sample.watched).sessions[0]? = some a ∧
    a.tree.isLive ∧ o.lost = [0, 1, 2] ∧ o.applied = 2 ∧ o.collected = [Sample.year] ∧
    Response.SameBut 2 0 ((start Sample.setting Sample.person 1).run Sample.watched) o
      (((start Sample.setting Sample.person 1).run Sample.watched).step 0 (.apply Sample.mixed))
      (((start Sample.setting Sample.person 1).run Sample.watched).step 0
        (.apply (Sample.mixed.without o.lost))) := by
  have hstart : (((start Sample.setting Sample.person 1).run Sample.watched).sessions[0]?).map
      (fun a => (a.tree.isLive, a.tree.nextHub)) = some (true, 2) := by cbv
  obtain ⟨a, hk, ha⟩ := Option.map_eq_some_iff.mp hstart
  obtain ⟨hlive, hnext⟩ := Prod.mk.inj ha
  obtain ⟨o, hreply, hsame⟩ := lost_changes_traceless Sample.setting Sample.person 1 Sample.watched
    0 a hk hlive Sample.mixed
  have houtcome : (((start Sample.setting Sample.person 1).run Sample.watched).step 0
      (.apply Sample.mixed)).reply.outcome?.map (fun o => (o.lost, o.applied, o.collected)) =
      some ([0, 1, 2], 2, [Sample.year]) := by decide +kernel
  simp only [hreply, Reply.outcome?, Option.map_some, Option.some.injEq, Prod.mk.injEq] at houtcome
  exact ⟨a, o, hk, hlive, houtcome.1, houtcome.2.1, houtcome.2.2, hnext ▸ hsame⟩

end Server

end LiveQuery
