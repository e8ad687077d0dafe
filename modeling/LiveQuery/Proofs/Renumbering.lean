import Mathlib.Order.WellFounded
import LiveQuery.Proofs.Operations
import LiveQuery.Proofs.Delivery

/-!
# Other serial numbers

Serial numbers only tell hubs apart. No operation compares two of them, so a tree whose hubs have
other serial numbers changes in the same way, and its observers are told the same of hubs with the
other numbers.
-/

namespace LiveQuery

/-- The hub with another serial number. -/
def HubId.renumber (ρ : Nat → Nat) (h : HubId) : HubId := ⟨ρ h.serial, h.node⟩

def Child.renumber (ρ : Nat → Nat) (c : Child) : Child := { c with hub := c.hub.renumber ρ }

def Event.renumber (ρ : Nat → Nat) : Event → Event
  | childAdded c => childAdded (c.renumber ρ)
  | childRemoved c => childRemoved (c.renumber ρ)
  | deleted => deleted

def Publication.renumber (ρ : Nat → Nat) (p : Publication) : Publication :=
  ⟨p.hub.renumber ρ, p.event.renumber ρ⟩

def Subscription.renumber (ρ : Nat → Nat) (s : Subscription) : Subscription :=
  { s with hub := s.hub.renumber ρ }

/-- An observer stays as it is: what it knows of hubs is from before the renumbering. -/
def Notice.renumber (ρ : Nat → Nat) (n : Notice) : Notice :=
  { n with subscription := n.subscription.renumber ρ, event := n.event.renumber ρ }

def Node.renumber (ρ : Nat → Nat) (n : Node) : Node := { n with hub := n.hub.renumber ρ }

def Tree.renumber (ρ : Nat → Nat) (t : Tree) : Tree :=
  { t with nodes := t.nodes.map fun _ n => n.renumber ρ, nextHub := ρ t.nextHub }

def Transition.renumber {α : Type} (ρ : Nat → Nat) (r : Transition α) : Transition α :=
  ⟨r.result, r.tree.renumber ρ, r.published.map (·.renumber ρ)⟩

lemma HubId.renumber_injective {ρ : Nat → Nat} (hρ : ρ.Injective) :
    (HubId.renumber ρ).Injective := by
  intro a b h
  simp only [renumber, HubId.mk.injEq] at h
  exact HubId.ext (hρ h.1) h.2

namespace Worklist

lemma run_map {ι σ ω : Type} {visit : ι → σ → List ι × σ × List ω} {f : σ → σ} {g : ω → ω}
    (h : ∀ item state, visit item (f state) =
      ((visit item state).1, f (visit item state).2.1, (visit item state).2.2.map g))
    (fuel : Nat) (pending : List ι) (state : σ) (output : Array ω) :
    run visit fuel ⟨pending, f state, output.map g⟩ =
      ⟨(run visit fuel ⟨pending, state, output⟩).pending,
        f (run visit fuel ⟨pending, state, output⟩).state,
        (run visit fuel ⟨pending, state, output⟩).output.map g⟩ := by
  induction fuel generalizing pending state output with
  | zero => rfl
  | succ fuel ih =>
    cases pending with
    | nil => rw [run_of_finished visit _ rfl, run_of_finished visit _ rfl]
    | cons item rest =>
      have houtput : output.map g ++ (visit item state).2.2.map g =
          (output ++ (visit item state).2.2).map g := by
        apply Array.ext'
        simp
      rw [run_succ, run_succ, step_cons, step_cons, h item state]
      dsimp only
      rw [houtput, ih]

end Worklist

namespace Tree

section

variable {root : TypeDef} {s : Setting} {t : Tree} {ρ : Nat → Nat}

@[simp] lemma node?_renumber (ρ : Nat → Nat) (t : Tree) (id : NodeId) :
    (t.renumber ρ).node? id = (t.node? id).map (·.renumber ρ) :=
  Std.ExtTreeMap.getElem?_map

@[simp] lemma contains_renumber (ρ : Nat → Nat) (t : Tree) (id : NodeId) :
    (t.renumber ρ).contains id = t.contains id :=
  Std.ExtTreeMap.contains_map

@[simp] lemma size_renumber (ρ : Nat → Nat) (t : Tree) : (t.renumber ρ).size = t.size :=
  Std.ExtTreeMap.size_map

@[simp] lemma parentOf_renumber (ρ : Nat → Nat) (t : Tree) (id : NodeId) :
    (t.renumber ρ).parentOf id = t.parentOf id := by
  simp only [parentOf, node?_renumber]
  cases t.node? id <;> rfl

@[simp] lemma linkCount_renumber (ρ : Nat → Nat) (t : Tree) :
    (t.renumber ρ).linkCount = t.linkCount := by
  simp only [linkCount, renumber, Std.ExtTreeMap.toList_map, List.foldr_map]
  rfl

/-- Two trees are the same but for serial numbers if they are so node by node. -/
lemma eq_renumber {t' : Tree} (hnodes : ∀ id, t'.node? id = (t.node? id).map (·.renumber ρ))
    (hbindings : t'.bindings = t.bindings) (hnext : t'.nextHub = ρ t.nextHub) :
    t' = t.renumber ρ :=
  Tree.ext (nodes_ext fun id => by rw [hnodes, node?_renumber]) hbindings hnext

/-! ### Removals -/

lemma unlink_renumber (ρ : Nat → Nat) (t : Tree) (parent id : NodeId) :
    (t.renumber ρ).unlink parent id = (t.unlink parent id).renumber ρ := by
  refine eq_renumber (fun other => ?_) rfl rfl
  simp only [node?_unlink, node?_renumber]
  split
  · cases t.node? other <;> rfl
  · rfl

lemma drop_renumber (ρ : Nat → Nat) (t : Tree) (id : NodeId) :
    (t.renumber ρ).drop id = (t.drop id).renumber ρ := by
  have hnext : ((t.renumber ρ).drop id).nextHub = ρ (t.drop id).nextHub := by
    simp only [nextHub_drop, renumber]
  refine eq_renumber (fun other => ?_) ?_ hnext
  · simp only [node?_drop, node?_renumber]
    split <;> rfl
  · unfold drop
    rw [node?_renumber]
    cases t.node? id <;> rfl

lemma detach_renumber (ρ : Nat → Nat) (t : Tree) (id : NodeId) :
    (t.renumber ρ).detach id = ((t.detach id).1.renumber ρ, (t.detach id).2.map (·.renumber ρ)) := by
  refine Prod.ext ?_ ?_
  · simp only [detach_tree, parentOf_renumber, drop_renumber]
    cases t.parentOf id with
    | none => rfl
    | some p => exact unlink_renumber ρ (t.drop id) p id
  · simp only [detach_snd, node?_renumber, drop_renumber]
    cases t.node? id with
    | none => rfl
    | some n =>
      simp only [Option.map_some, Option.bind_some]
      have hparent : (n.renumber ρ).parent = n.parent := rfl
      rw [hparent]
      cases n.parent with
      | none => rfl
      | some p =>
        rw [Option.bind_some, Option.bind_some]
        cases (t.drop id).node? p <;> rfl

lemma visit_renumber (ρ : Nat → Nat) (v : Visit) (t : Tree) : visit v (t.renumber ρ) =
    ((visit v t).1, (visit v t).2.1.renumber ρ, (visit v t).2.2.map (·.renumber ρ)) := by
  cases v with
  | enter id =>
    simp only [visit, node?_renumber]
    cases t.node? id <;> rfl
  | leave id => simp only [visit, detach_renumber]

lemma dismantle_renumber (ρ : Nat → Nat) (t : Tree) (id : NodeId) :
    (t.renumber ρ).dismantle id = (t.dismantle id).renumber ρ := by
  have hrun := Worklist.run_map (visit_renumber ρ) (2 * t.size) [.enter id] t #[]
  rw [List.map_toArray, List.map_nil] at hrun
  simp [dismantle, hrun, Transition.renumber]

lemma uproot_renumber (ρ : Nat → Nat) (id : NodeId) (t : Tree) : uproot id (t.renumber ρ) =
    ((uproot id t).1, (uproot id t).2.1.renumber ρ, (uproot id t).2.2.map fun e => e) := by
  simp only [uproot_eq, drop_renumber, List.map_nil, childrenOf, node?_renumber]
  cases t.node? id <;> rfl

lemma purge_renumber (ρ : Nat → Nat) (t : Tree) (id : NodeId) :
    (t.renumber ρ).purge id = (t.purge id).renumber ρ := by
  have hrun := fun (cut : Tree) fuel => congrArg Worklist.state
    (Worklist.run_map (uproot_renumber ρ) fuel [id] cut #[])
  unfold purge
  rw [parentOf_renumber]
  cases t.parentOf id with
  | none => simpa using hrun t _
  | some p => simpa [unlink_renumber] using hrun (t.unlink p id) _

/-! ### Additions -/

lemma attach_renumber (ρ : Nat → Nat) (t : Tree) (parent : NodeId) (n : Node) :
    (t.renumber ρ).attach parent (n.renumber ρ) = (t.attach parent n).renumber ρ := by
  refine eq_renumber (fun other => ?_) rfl rfl
  have hnode : ∀ x : NodeId, (t.renumber ρ).nodes[x]? = t.nodes[x]?.map (Node.renumber ρ) :=
    node?_renumber ρ t
  have hid : (n.renumber ρ).id = n.id := rfl
  simp only [node?, attach, Std.ExtTreeMap.getElem?_modify, Std.ExtTreeMap.getElem?_insert, hnode,
    hid]
  split
  · split
    · rfl
    · cases t.nodes[parent]? <;> rfl
  · split <;> rfl

lemma typeBelow_renumber (ρ : Nat → Nat) (s : Setting) (t : Tree) (parent : Node) (id : NodeId)
    (field : String) :
    (t.renumber ρ).typeBelow s (parent.renumber ρ) id field = t.typeBelow s parent id field := by
  simp only [typeBelow, contains_renumber]
  rfl

lemma sprout_renumber (hρ : ρ (t.nextHub + 1) = ρ t.nextHub + 1) (parent id : NodeId)
    (field : String) (arguments : List Argument) :
    (t.renumber ρ).sprout s parent id field arguments =
      ((t.sprout s parent id field arguments).1.map (·.renumber ρ),
        (t.sprout s parent id field arguments).2.renumber ρ) := by
  unfold sprout
  rw [node?_renumber]
  cases t.node? parent with
  | none => rfl
  | some p =>
    simp only [Option.map_some, typeBelow_renumber, size_renumber]
    cases t.typeBelow s p id field with
    | error e => rfl
    | ok type =>
      have hbindings : (t.renumber ρ).bindings = t.bindings := rfl
      have hdepth : (p.renumber ρ).depth = p.depth := rfl
      simp only [hbindings, hdepth]
      rcases t.bindings.hold ∅ arguments with ⟨a | held, b⟩
      · rfl
      · dsimp only
        cases s.limits.refuse? id (p.depth + 1) t.size with
        | some e => rfl
        | none => simp only [renumber, Node.renumber, HubId.renumber, Except.map, hρ]

lemma announcement_renumber (ρ : Nat → Nat) (t : Tree) (parent id : NodeId) :
    (t.renumber ρ).announcement parent id = (t.announcement parent id).map (·.renumber ρ) := by
  simp only [announcement, node?_renumber]
  cases t.node? parent with
  | none => rfl
  | some p => cases t.node? id <;> rfl

mutual

/-- Hubs that are given out get the other numbers too, provided that these go up by one from where
the numbering stands. -/
theorem WellFormed.grow_renumber {t : Tree} (h : t.WellFormed root)
    (hρ : ∀ n, t.nextHub ≤ n → ρ (n + 1) = ρ n + 1) (parent : NodeId) (sel : Selection) :
    grow s parent sel (t.renumber ρ) = (grow s parent sel t).renumber ρ := by
  match sel with
  | ⟨id, field, arguments, children⟩ =>
    have hsprout := sprout_renumber (s := s) (hρ _ (Nat.le_refl _)) parent id field arguments
    rcases hs : t.sprout s parent id field arguments with ⟨e | n, t₁⟩
    · rw [hs] at hsprout
      simp only [Tree.grow, hsprout, hs]
      rfl
    · rw [hs] at hsprout
      obtain ⟨rfl, hplants⟩ := sprout_plants h hs
      have hrest := hplants.wellFormed.growAll_renumber
        (fun m hm => hρ m (Nat.le_trans hplants.nextHub_le hm)) n.id children
      simp only [Tree.grow, hsprout, hs, Except.map, attach_renumber, hrest]
      rcases growAll s n.id children (t₁.attach parent n) with ⟨e | ⟨⟩, t₂, ps⟩
      · simp [Transition.renumber, purge_renumber]
      · simp [Transition.renumber, announcement_renumber]

theorem WellFormed.growAll_renumber {t : Tree} (h : t.WellFormed root)
    (hρ : ∀ n, t.nextHub ≤ n → ρ (n + 1) = ρ n + 1) (parent : NodeId) (sels : List Selection) :
    growAll s parent sels (t.renumber ρ) = (growAll s parent sels t).renumber ρ := by
  match sels with
  | [] => rfl
  | sel :: rest =>
    have hfirst := h.grow_renumber hρ parent sel
    have hgrows := h.grows (s := s) parent sel
    rcases hg : Tree.grow s parent sel t with ⟨e | ⟨⟩, t₁, ps⟩
    · simp only [growAll, hfirst, hg]
      rfl
    · rw [hg] at hgrows
      have hrest := hgrows.1.wellFormed.growAll_renumber
        (fun m hm => hρ m (Nat.le_trans hgrows.1.nextHub_le hm)) parent rest
      simp only [growAll, hfirst, hg, Transition.renumber, hrest, List.map_append]

end

lemma WellFormed.add_renumber (h : t.WellFormed root)
    (hρ : ∀ n, t.nextHub ≤ n → ρ (n + 1) = ρ n + 1) (target : NodeId) (sel : Selection) :
    (t.renumber ρ).add s target sel = (t.add s target sel).renumber ρ := by
  simp only [Tree.add, h.grow_renumber hρ]
  rfl

/-! ### Changes -/

lemma WellFormed.change_renumber (h : t.WellFormed root)
    (hρ : ∀ n, t.nextHub ≤ n → ρ (n + 1) = ρ n + 1) (c : Change) :
    (t.renumber ρ).change s c = (t.change s c).renumber ρ := by
  unfold change
  rw [contains_renumber]
  split
  · cases c with
    | add target sel =>
      simp only [h.add_renumber hρ]
      rcases t.add s target sel with ⟨e | id, t', ps⟩ <;> rfl
    | delete target =>
      dsimp only
      split
      · rfl
      · rw [dismantle_renumber]
        rfl
  · rfl

lemma WellFormed.changeAll_renumber (h : t.WellFormed root)
    (hρ : ∀ n, t.nextHub ≤ n → ρ (n + 1) = ρ n + 1) (index : Nat) (cs : List Change) :
    (t.renumber ρ).changeAll s index cs = (t.changeAll s index cs).renumber ρ := by
  induction cs generalizing t index with
  | nil => rfl
  | cons c rest ih =>
    have hevolves := h.evolves_change (s := s) c
    have hrest := ih hevolves.wellFormed
      (fun m hm => hρ m (Nat.le_trans hevolves.nextHub_le hm)) (index + 1)
    simp only [changeAll, h.change_renumber hρ, Transition.renumber, hrest, List.map_append]

/-! ### Numbers that stay -/

end

end Tree

section

variable {ρ σ : Nat → Nat} {n : Nat}

lemma HubId.renumber_eq_self (h : HubId) (hρ : ρ h.serial = h.serial) : h.renumber ρ = h :=
  HubId.ext hρ rfl

lemma Event.renumber_eq_self (e : Event) (h : ∀ c, e.child? = some c → ρ c.hub.serial = c.hub.serial) :
    e.renumber ρ = e := by
  cases e with
  | childAdded c => rw [renumber, Child.renumber, c.hub.renumber_eq_self (h c rfl)]
  | childRemoved c => rw [renumber, Child.renumber, c.hub.renumber_eq_self (h c rfl)]
  | deleted => rfl

lemma Event.renumber_renumber (e : Event) : (e.renumber σ).renumber ρ = e.renumber (ρ ∘ σ) := by
  cases e <;> rfl

lemma Notice.renumber_renumber (x : Notice) : (x.renumber σ).renumber ρ = x.renumber (ρ ∘ σ) := by
  simp only [renumber, Event.renumber_renumber]
  rfl

lemma Notice.renumber_eq_self (x : Notice) (hhub : ρ x.subscription.hub.serial = x.subscription.hub.serial)
    (hevent : ∀ c, x.event.child? = some c → ρ c.hub.serial = c.hub.serial) : x.renumber ρ = x := by
  rw [renumber, x.event.renumber_eq_self hevent, Subscription.renumber,
    x.subscription.hub.renumber_eq_self hhub]

lemma Tree.renumber_renumber (t : Tree) : (t.renumber σ).renumber ρ = t.renumber (ρ ∘ σ) := by
  refine Tree.eq_renumber (fun id => ?_) rfl rfl
  simp only [node?_renumber, Option.map_map]
  rfl

lemma Tree.WellFormed.renumber_eq {root : TypeDef} {t : Tree} (h : t.WellFormed root)
    (hρ : ∀ m < t.nextHub, ρ m = m) : t.renumber ρ = { t with nextHub := ρ t.nextHub } := by
  refine Eq.symm (Tree.eq_renumber (fun id => ?_) rfl rfl)
  cases hid : t.node? id with
  | none => exact hid
  | some n =>
    have hhub := n.hub.renumber_eq_self (hρ _ (h.hub hid).2)
    rw [Option.map_some, Node.renumber, hhub]
    exact hid

end

namespace Switchboard

/-- The observers of `c` are those of `b`, on hubs with the other numbers. -/
def Renumbers (ρ : Nat → Nat) (b c : Switchboard) : Prop :=
  ∀ id : HubId, c.hub (id.renumber ρ) = b.hub id

section

variable {ρ σ : Nat → Nat} {b c d : Switchboard} {n : Nat}

namespace Renumbers

lemma trans (h : Renumbers σ b c) (h' : Renumbers ρ c d) : Renumbers (ρ ∘ σ) b d := fun id =>
  (h' (id.renumber σ)).trans (h id)

lemma subscribe (hρ : ρ.Injective) (h : Renumbers ρ b c) (id : HubId) (observer : Observer) :
    Renumbers ρ (b.subscribe id observer) (c.subscribe (id.renumber ρ) observer) := by
  intro other
  simp only [hub_subscribe, (HubId.renumber_injective hρ).eq_iff, h id, h other]

lemma tell (hρ : ρ.Injective) (h : Renumbers ρ b c) (event : Event) (id : HubId)
    (r : Registration) :
    Renumbers ρ (Switchboard.tell event id b r)
      (Switchboard.tell (event.renumber ρ) (id.renumber ρ) c r) := by
  obtain ⟨i, observer⟩ := r
  cases observer with
  | recorder label => cases event <;> exact h
  | forwarder => cases event <;> exact h
  | follower label origin =>
    cases event with
    | childAdded child => exact h.subscribe hρ child.hub _
    | childRemoved child => exact h
    | deleted => exact h

lemma foldl_tell (hρ : ρ.Injective) (h : Renumbers ρ b c) (event : Event) (id : HubId)
    (rs : List Registration) :
    Renumbers ρ (rs.foldl (Switchboard.tell event id) b)
      (rs.foldl (Switchboard.tell (event.renumber ρ) (id.renumber ρ)) c) := by
  induction rs generalizing b c with
  | nil => exact h
  | cons r rest ih => exact ih (h.tell hρ event id r)

lemma deliver (hρ : ρ.Injective) (h : Renumbers ρ b c) (p : Publication) :
    (c.deliver (p.renumber ρ)).1 = (b.deliver p).1.map (·.renumber ρ) ∧
      Renumbers ρ (b.deliver p).2 (c.deliver (p.renumber ρ)).2 := by
  have hhub : (c.hub (p.renumber ρ).hub).registrations = (b.hub p.hub).registrations :=
    congrArg Hub.registrations (h p.hub)
  constructor
  · simp only [Switchboard.deliver, hhub, List.map_map]
    rfl
  · simp only [Switchboard.deliver, hhub]
    exact h.foldl_tell hρ p.event p.hub _

/-- What is delivered on hubs with other numbers reaches the same observers, and the same
observers are there afterwards. -/
theorem deliverAll (hρ : ρ.Injective) (h : Renumbers ρ b c) (ps : List Publication) :
    (c.deliverAll (ps.map (·.renumber ρ))).1 = (b.deliverAll ps).1.map (·.renumber ρ) ∧
      Renumbers ρ (b.deliverAll ps).2 (c.deliverAll (ps.map (·.renumber ρ))).2 := by
  induction ps generalizing b c with
  | nil => exact ⟨rfl, h⟩
  | cons p rest ih =>
    obtain ⟨hfirst, hafter⟩ := h.deliver hρ p
    obtain ⟨hlater, hend⟩ := ih hafter
    simp only [List.map_cons, Switchboard.deliverAll, List.map_append]
    exact ⟨by rw [hfirst, hlater], hend⟩

end Renumbers

/-- Observers do not see it if only hubs that nobody knows of get other numbers. -/
lemma Sound.renumbers (h : Sound n b) (hρ : StrictMono ρ) (hfix : ∀ m < n, ρ m = m) :
    Renumbers ρ b b := by
  intro id
  by_cases hid : id.serial < n
  · rw [id.renumber_eq_self (hfix _ hid)]
  · have hle := hρ.le_apply (x := id.serial)
    rw [h.unused id (by omega), h.unused (id.renumber ρ) (by simp only [HubId.renumber]; omega)]

lemma Sound.notices_lt (h : Sound n b) {ps : List Publication}
    (hps : ∀ p ∈ ps, ∀ c, p.event.child? = some c → c.hub.serial < n) :
    ∀ x ∈ (b.deliverAll ps).1, x.subscription.hub.serial < n ∧
      ∀ c, x.event.child? = some c → c.hub.serial < n := by
  induction ps generalizing b with
  | nil => simp [Switchboard.deliverAll]
  | cons p rest ih =>
    intro x hx
    have hp := hps p List.mem_cons_self
    rcases List.mem_append.mp hx with hx | hx
    · obtain ⟨r, hr, rfl⟩ := List.mem_map.mp hx
      refine ⟨?_, hp⟩
      by_contra hge
      rw [h.within p.hub (by simpa using hge)] at hr
      cases hr
    · exact ih (h.deliver hp) (fun q hq => hps q (List.mem_cons_of_mem _ hq)) x hx

end

end Switchboard

end LiveQuery
