import ClusterMaster.Proofs.Parties

/-!
# Groups do not interfere

All groups of a master share its tables, its passes and its scans. A pass selects groups from one
list, deals them out to shards that depend on how many there are, merges the targets of all groups of
a shard and counts rounds for all of them; a scan goes through all silent consumers. Still a group is
served as if the consumers of the other groups did not exist:

    a pass does to the part of a party what it does to the whole         (after_pass_restrict)
    restricting a master after a run is running the restricted master         (run_restrict)
    requests of other groups can be left out of a run without a trace     (undisturbed_by_others)
-/

namespace ClusterMaster

/-! ## Queues -/

namespace EventQueues

variable {q : EventQueues} {p : Party}

theorem Tidy.ofEvents (h : q.Tidy) (p : Party) : (p.ofEvents q).Tidy := by
  intro c
  show (q.queues.restrict p.uses).get? c ≠ some []
  rw [Table.get?_restrict]
  split
  · exact h c
  · simp

end EventQueues

namespace Master

variable {p : Party} {m : Master} {id : String} {g : Group} {c : Consumer}

theorem Separate.uses_iff (h : Separate p m) (hc : m.groups.consumer? id = some c) :
    p.uses id = true ↔ c.group = p.group :=
  h.placed id c.group (h.registry.coherent.groupOf?_eq hc)

/-! ## Passes -/

/-- Nothing is queued for nobody. -/
theorem Registry.queue_after_pass_of_none (hr : Registry m)
    (hnone : m.groups.consumer? id = none) : (m.after .pass).events.queue id = [] := by
  by_contra hne
  obtain ⟨c, hc⟩ := (hr.after .pass).owned id hne
  obtain ⟨events, he⟩ := hr.after_pass
  rw [he] at hc
  change m.groups.consumer? id = some c at hc
  rw [hnone] at hc
  cases hc

section Pass

variable (h : Separate p m)

include h

/-- The members of the group use ids of the party. -/
theorem uses_of_mem (hc : c ∈ m.groups.membersOf p.group) : p.uses c.id = true := by
  obtain ⟨hget, hgroup⟩ := (Groups.mem_membersOf h.registry.coherent).mp hc
  exact (h.uses_iff hget).mpr hgroup

/-- The target of a member is decided by its own group. -/
theorem targetIn_restrict (hg : m.groups.group? p.group = some g) (id : String) :
    (m.restrict p).targetIn (m.viewGroup g) id = m.targetIn (m.viewGroup g) id := by
  have hheld : ∀ c ∈ (m.viewGroup g).members,
      (m.restrict p).holdings.getD c.id Table.empty = m.holdings.getD c.id Table.empty := by
    intro c hc
    have hmember : c ∈ m.groups.membersOf p.group := by
      unfold Groups.membersOf
      rw [hg]
      exact hc
    unfold Table.getD
    rw [show (m.restrict p).holdings.get? c.id = m.holdings.get? c.id from
      Table.get?_restrict_of (uses_of_mem h hmember)]
  have hoffsets : ∀ key, (m.restrict p).offsets.get? (m.viewGroup g).name key =
      m.offsets.get? (m.viewGroup g).name key := by
    intro key
    have hname : (m.viewGroup g).name = p.group := h.registry.coherent.named hg
    rw [hname]
    exact Table.get?_restrict_of (beq_self_eq_true p.group)
  have hsteady := Balance.steadyGroup_congr hheld
  have hbound := Balance.boundGroup_congr hheld hoffsets
  have hfresh : Balance.boundGroup (m.restrict p).offsets Table.empty (m.viewGroup g) =
      Balance.boundGroup m.offsets Table.empty (m.viewGroup g) :=
    Balance.boundGroup_congr (fun _ _ => rfl) hoffsets
  unfold targetIn sharing
  rw [restrict_settings, show (m.restrict p).firstPass = m.firstPass from rfl]
  cases m.firstPass with
  | true => simp only [if_true, hfresh]
  | false => simp only [Bool.false_eq_true, if_false, hbound, hsteady]

theorem eventsFor_restrict (hg : m.groups.group? p.group = some g)
    (hc : c ∈ m.groups.membersOf p.group) :
    (m.restrict p).eventsFor ((m.restrict p).viewGroup g) c = m.eventsFor (m.viewGroup g) c := by
  have hview : (m.restrict p).viewGroup g = m.viewGroup g := rfl
  have hheld : (m.restrict p).holdingOf c.id = m.holdingOf c.id := by
    unfold holdingOf Table.getD
    rw [show (m.restrict p).holdings.get? c.id = m.holdings.get? c.id from
      Table.get?_restrict_of (uses_of_mem h hc)]
  unfold eventsFor
  rw [hview, hheld, targetIn_restrict h hg]
  rfl

theorem hasBacklog_restrict : (m.restrict p).HasBacklog p.group ↔ m.HasBacklog p.group := by
  unfold HasBacklog
  rw [show (m.restrict p).groups.membersOf p.group = m.groups.membersOf p.group from
    Party.membersOf_ofGroups]
  refine exists_congr fun c => and_congr_right fun hc => ?_
  obtain ⟨hget, hgroup⟩ := (Groups.mem_membersOf h.registry.coherent).mp hc
  have hkey : p.tracks .consumer (livenessKey c.id c.group) = true :=
    (Party.tracks_livenessKey (h.registry.groupsUsable c.id c hget)).trans (decide_eq_true hgroup)
  have htracked : (m.restrict p).isTracked c.id c.group = m.isTracked c.id c.group := by
    unfold isTracked Liveness.isRegistered Table.contains
    rw [get?_lastSeen_restrict hkey]
  rw [htracked, show (m.restrict p).events.queue c.id = m.events.queue c.id from
    Party.queue_ofEvents_of (uses_of_mem h hc)]

variable (hr : Registry (m.restrict p))

include hr

theorem mem_waited_restrict (hm : Counted m) (hn : Counted (m.restrict p)) :
    p.group ∈ (m.restrict p).stalledGroups.filter (m.restrict p).isWaitedFor ↔
      p.group ∈ m.stalledGroups.filter m.isWaitedFor := by
  rw [mem_waited_iff, mem_waited_iff, mem_stalledGroups_iff hr.coherent hn.tidy,
    mem_stalledGroups_iff h.registry.coherent hm.tidy, hasBacklog_restrict h,
    show (m.restrict p).events.unfinishedCount p.group = m.events.unfinishedCount p.group from
      Party.unfinishedCount_ofEvents]
  rfl

theorem mem_selected_restrict (hm : Counted m) (hn : Counted (m.restrict p)) :
    p.group ∈ (m.restrict p).selected ↔ p.group ∈ m.selected := by
  have hnames : p.group ∈ (m.restrict p).groups.names ↔ p.group ∈ m.groups.names := by
    rw [mem_names_iff, mem_names_iff, show (m.restrict p).groups.group? p.group =
      m.groups.group? p.group from Party.group?_ofGroups]
  obtain ⟨_, -, -, -, hfirst, hlater⟩ := beginPass_spec h.registry.settled
  obtain ⟨_, -, -, -, hfirst', hlater'⟩ := beginPass_spec hr.settled
  cases hf : m.firstPass with
  | true => rw [(hfirst hf).1, (hfirst' hf).1, hnames]
  | false =>
    rw [(hlater hf).1, (hlater' hf).1, List.mem_filter, List.mem_filter, hnames,
      decide_eq_true_iff, decide_eq_true_iff, mem_waited_restrict h hr hm hn]

theorem queue_after_pass_restrict (hm : Counted m) (hn : Counted (m.restrict p))
    (hid : p.uses id = true) :
    ((m.restrict p).after .pass).events.queue id = (m.after .pass).events.queue id := by
  have hsame : (m.restrict p).groups.consumer? id = m.groups.consumer? id :=
    Party.consumer?_ofGroups h.placed hid
  have hqueue : (m.restrict p).events.queue id = m.events.queue id := Party.queue_ofEvents_of hid
  cases hget : m.groups.consumer? id with
  | none =>
    rw [hr.queue_after_pass_of_none (hsame.trans hget), h.registry.queue_after_pass_of_none hget]
  | some c =>
    obtain rfl : c.id = id := h.registry.coherent.id_eq hget
    have hgroup : c.group = p.group := (h.uses_iff hget).mp hid
    by_cases hlocked : m.consumerRows.isLocked c.id = true
    · have hkept := queue_runPass_of_not_selected h.registry.settled (.inl hlocked)
      have hkept' : ((m.restrict p).after .pass).events.queue c.id = _ :=
        queue_runPass_of_not_selected hr.settled (.inl hlocked)
      exact hkept'.trans (hqueue.trans hkept.symm)
    · have hfree : m.consumerRows.isLocked c.id = false := by simpa using hlocked
      by_cases hsel : p.group ∈ m.selected
      · obtain ⟨g, hg⟩ := exists_group_of_mem_selected h.registry.settled hsel
        have hg' : (m.restrict p).groups.group? c.group = some g := by
          rw [hgroup]
          exact Party.group?_ofGroups.trans hg
        have hmember : c ∈ m.groups.membersOf p.group :=
          (Groups.mem_membersOf h.registry.coherent).mpr ⟨hget, hgroup⟩
        have hsel' := (mem_selected_restrict h hr hm hn).mpr hsel
        rw [h.registry.queue_after_pass hget (hgroup ▸ hsel) (hgroup ▸ hg) hfree,
          hr.queue_after_pass (hsame.trans hget) (hgroup ▸ hsel') hg' hfree,
          eventsFor_restrict h hg hmember]
      · have hsel' : p.group ∉ (m.restrict p).selected :=
          fun hin => hsel ((mem_selected_restrict h hr hm hn).mp hin)
        rw [h.registry.queue_after_pass_of_not_selected hget (hgroup ▸ hsel),
          hr.queue_after_pass_of_not_selected (hsame.trans hget) (hgroup ▸ hsel'), hqueue]

/-- Other groups are not counted. -/
theorem get?_unfinished_after_pass_restrict (hm : Counted m) (hn : Counted (m.restrict p))
    (name : String) : ((m.restrict p).after .pass).events.unfinished.get? name =
      (p.ofEvents (m.after .pass).events).unfinished.get? name := by
  show _ = ((m.after .pass).events.unfinished.restrict fun name => name == p.group).get? name
  rw [Table.get?_restrict, get?_unfinished_after_pass hr.settled,
    get?_unfinished_after_pass h.registry.settled]
  have hcounted : (m.restrict p).events.unfinished.get? name =
      if name == p.group then m.events.unfinished.get? name else none := Table.get?_restrict
  by_cases hname : name = p.group
  · subst hname
    rw [hcounted, if_pos (beq_self_eq_true p.group), if_pos (beq_self_eq_true p.group),
      show (m.restrict p).events.unfinishedCount p.group = m.events.unfinishedCount p.group from
        Party.unfinishedCount_ofEvents]
    simp only [mem_waited_restrict h hr hm hn]
    rfl
  · have hother : ¬(name == p.group) = true := by simpa using hname
    have hnot : name ∉ (m.restrict p).stalledGroups.filter (m.restrict p).isWaitedFor := by
      rw [mem_waited_iff, mem_stalledGroups_iff hr.coherent hn.tidy]
      rintro ⟨⟨c, hc, -⟩, -⟩
      unfold Groups.membersOf at hc
      rw [show (m.restrict p).groups.group? name = none from Party.group?_ofGroups_of_ne hname] at hc
      cases hc
    rw [if_neg hother, hcounted, if_neg hother, if_neg hnot]
    split <;> rfl

/-- A pass does to the part of a party what it does to the whole. -/
theorem after_pass_restrict (hm : Counted m) (hn : Counted (m.restrict p)) :
    (m.restrict p).after .pass = (m.after .pass).restrict p := by
  have hevents : ((m.restrict p).after .pass).events = p.ofEvents (m.after .pass).events := by
    have htidy := (hm.after h.registry .pass).tidy
    have htidy' := (hn.after hr .pass).tidy
    have hqueues : ∀ id, ((m.restrict p).after .pass).events.queue id =
        (p.ofEvents (m.after .pass).events).queue id := by
      intro id
      rw [Party.queue_ofEvents]
      split
      · rename_i hid
        exact queue_after_pass_restrict h hr hm hn hid
      · rename_i hid
        refine hr.queue_after_pass_of_none ?_
        unfold Groups.consumer?
        rw [show (m.restrict p).groups.groupOf? id = none from
          Party.groupOf?_ofGroups_of_not (by simpa using hid)]
        rfl
    have hq := EventQueues.queues_ext htidy' (htidy.ofEvents p) hqueues
    have hu := Table.ext_get? (get?_unfinished_after_pass_restrict h hr hm hn)
    exact congrArg₂ EventQueues.mk hq hu
  obtain ⟨events, he⟩ := h.registry.after_pass
  obtain ⟨events', he'⟩ := hr.after_pass
  rw [he, he'] at hevents ⊢
  obtain rfl : events' = p.ofEvents events := hevents
  rfl

end Pass

end Master

/-! ## Requests of a group and of others -/

namespace Operation

/-- A consumer asks for it on behalf of the group. -/
def comesFrom (op : Operation) (group : String) : Bool := op.requester?.any fun r => r.2 == group

/-- A consumer asks for it on behalf of another group. -/
def comesFromOutside (op : Operation) (group : String) : Bool :=
  op.requester?.any fun r => r.2 != group

/-- It is neither asked for nor committed on behalf of another group. -/
def concerns (op : Operation) (group : String) : Bool :=
  match op with
  | .commit name _ _ => name == group
  | op => !op.comesFromOutside group

theorem concerns_of_requester {op : Operation} {id name : String}
    (h : op.requester? = some (id, name)) (group : String) :
    op.concerns group = decide (name = group) := by
  have hout : op.concerns group = !op.comesFromOutside group := by
    cases op with
    | commit _ _ _ => cases h
    | _ => rfl
  rw [hout]
  unfold comesFromOutside
  rw [h]
  simp [bne, beq_eq_decide]

theorem comesFrom_of_requester {op : Operation} {id name : String}
    (h : op.requester? = some (id, name)) (group : String) :
    op.comesFrom group = decide (name = group) := by
  unfold comesFrom
  rw [h]
  simp [beq_eq_decide]

end Operation

/-- The consumers that make requests, each with the group it makes one for. -/
def requesters (ops : List Operation) : List (String × String) := ops.filterMap Operation.requester?

/-- The ids that are used for the group are used for no other group. -/
def KeepsToItself (group : String) (ops : List Operation) : Prop :=
  ∀ a ∈ requesters ops, ∀ b ∈ requesters ops, a.2 = group → b.1 = a.1 → b.2 = group

instance (group : String) (ops : List Operation) : Decidable (KeepsToItself group ops) :=
  inferInstanceAs (Decidable (∀ a ∈ requesters ops, ∀ b ∈ requesters ops,
    a.2 = group → b.1 = a.1 → b.2 = group))

/-- The group with the ids that are used for it. -/
def Party.of (group : String) (ops : List Operation) : Party :=
  { group, uses := fun id => (requesters ops).contains (id, group) }

theorem KeepsToItself.fits {group : String} {ops : List Operation} (h : KeepsToItself group ops)
    {op : Operation} (hop : op ∈ ops) : op.Fits (.of group ops) := by
  intro id name hreq
  have hmem : (id, name) ∈ requesters ops := List.mem_filterMap.mpr ⟨op, hop, hreq⟩
  show (requesters ops).contains (id, group) = true ↔ name = group
  rw [List.contains_iff_mem]
  constructor
  · intro hown
    exact h (id, group) hown (id, name) hmem rfl rfl
  · rintro rfl
    exact hmem

namespace Master

variable {p : Party} {m : Master} {op : Operation}

/-! ## Steps -/

theorem commit_restrict (m : Master) (name key : String) (offset : Int) :
    (m.after (.commit name key offset)).restrict p =
      if name = p.group then (m.restrict p).after (.commit name key offset) else m.restrict p := by
  have hoffsets : p.ofOffsets (m.offsets.commit name key offset) =
      if name = p.group then (p.ofOffsets m.offsets).commit name key offset
      else p.ofOffsets m.offsets := by
    split
    · rename_i hname
      exact congrArg Offsets.mk (Table.restrict_insert (k := (name, key)) (by simpa using hname))
    · rename_i hname
      exact congrArg Offsets.mk
        (Table.restrict_insert_of_not (k := (name, key)) (by simpa using hname))
  show { m.restrict p with offsets := p.ofOffsets (m.offsets.commit name key offset) } = _
  rw [hoffsets]
  split <;> rfl

section Step

variable (h : Separate p m) (hfit : op.Fits p)

include h hfit

/-- What concerns the group does to the part of the party what it does to the whole. -/
theorem after_restrict_of_concerns (hr : Registry (m.restrict p)) (hm : Counted m)
    (hn : Counted (m.restrict p)) (hop : op.concerns p.group = true) :
    (m.restrict p).after op = (m.after op).restrict p := by
  have hown : ∀ id name, op.requester? = some (id, name) → name = p.group ∧ p.uses id = true := by
    intro id name hreq
    rw [Operation.concerns_of_requester hreq, decide_eq_true_iff] at hop
    exact ⟨hop, (hfit id name hreq).mpr hop⟩
  cases op with
  | consumerRegister r =>
    obtain ⟨hg, hid⟩ := hown r.consumer r.group rfl
    exact congrArg Prod.snd (consumerRegister_restrict hid hg)
  | consumerHeartbeat r =>
    obtain ⟨hg, hid⟩ := hown r.consumer r.group rfl
    exact congrArg Prod.snd (consumerHeartbeat_restrict hid hg)
  | consumerClose r =>
    obtain ⟨-, hid⟩ := hown r.consumer r.group rfl
    exact congrArg Prod.snd (consumerClose_restrict h.placed hid)
  | commit name key offset =>
    have hname : name = p.group := beq_iff_eq.mp hop
    rw [commit_restrict, if_pos hname]
  | expire c =>
    cases c with
    | consumer => exact h.expireConsumers_restrict
    | _ => exact after_restrict (by decide) (by decide) (by simp) m
  | pass => exact after_pass_restrict h hr hm hn
  | _ => exact after_restrict (by simp [Operation.class?]) (by simp) (by simp) m

/-- What does not concern the group passes the party by. -/
theorem after_restrict_of_not_concerns (hop : op.concerns p.group = false) :
    (m.after op).restrict p = m.restrict p := by
  have hother : ∀ id name, op.requester? = some (id, name) → name ≠ p.group ∧ p.uses id = false := by
    intro id name hreq
    rw [Operation.concerns_of_requester hreq, decide_eq_false_iff_not] at hop
    exact ⟨hop, by simpa using mt (hfit id name hreq).mp hop⟩
  cases op with
  | consumerRegister r =>
    obtain ⟨hg, hid⟩ := hother r.consumer r.group rfl
    exact consumerRegister_restrict_of_not hid hg
  | consumerHeartbeat r =>
    obtain ⟨hg, hid⟩ := hother r.consumer r.group rfl
    exact consumerHeartbeat_restrict_of_not hid hg
  | consumerClose r =>
    obtain ⟨-, hid⟩ := hother r.consumer r.group rfl
    exact consumerClose_restrict_of_not h.registry.coherent h.registry.groupsUsable h.placed hid
  | commit name key offset =>
    have hname : name ≠ p.group := beq_eq_false_iff_ne.mp hop
    rw [commit_restrict, if_neg hname]
  | _ => cases hop

/-- The group is answered as by its own part of the master. -/
theorem perform_restrict (hop : op.comesFrom p.group = true) :
    ((m.restrict p).perform op).1 = (m.perform op).1 := by
  have hown : ∀ id name, op.requester? = some (id, name) → name = p.group ∧ p.uses id = true := by
    intro id name hreq
    rw [Operation.comesFrom_of_requester hreq, decide_eq_true_iff] at hop
    exact ⟨hop, (hfit id name hreq).mpr hop⟩
  cases op with
  | consumerRegister r =>
    obtain ⟨hg, hid⟩ := hown r.consumer r.group rfl
    have hanswer := congrArg Prod.fst (consumerRegister_restrict (m := m) hid hg)
    exact congrArg (Except.map Answer.admitted) hanswer
  | consumerHeartbeat r =>
    obtain ⟨hg, hid⟩ := hown r.consumer r.group rfl
    have hanswer := congrArg Prod.fst (consumerHeartbeat_restrict (m := m) hid hg)
    exact congrArg (Except.map Answer.pulse) hanswer
  | consumerClose r =>
    obtain ⟨-, hid⟩ := hown r.consumer r.group rfl
    have hanswer := congrArg Prod.fst (consumerClose_restrict (m := m) h.placed hid)
    exact congrArg (Except.map fun _ => Answer.done) hanswer
  | _ => cases hop

end Step

/-! ## Runs -/

/-- What the consumers of a group are answered, in the order of their requests. -/
def answersTo (group : String) (m : Master) : List Operation → List (Except Fault Answer)
  | [] => []
  | op :: ops =>
    (if op.comesFrom group then [(m.perform op).1] else []) ++ (m.after op).answersTo group ops

theorem concerns_of_comesFrom {group : String} (h : op.comesFrom group = true) :
    op.concerns group = true := by
  cases hreq : op.requester? with
  | none =>
    unfold Operation.comesFrom at h
    rw [hreq] at h
    cases h
  | some r =>
    obtain ⟨id, name⟩ := r
    rw [Operation.concerns_of_requester hreq]
    rw [Operation.comesFrom_of_requester hreq] at h
    exact h

/-- Two masters have the same of a group: its record, and the queues and holdings of its members. -/
structure SameFor (group : String) (m m' : Master) : Prop where
  record : m'.groups.group? group = m.groups.group? group
  queues : ∀ c ∈ m.groups.membersOf group, m'.events.queue c.id = m.events.queue c.id
  holdings : ∀ c ∈ m.groups.membersOf group, m'.holdings.get? c.id = m.holdings.get? c.id
  rounds : m'.events.unfinishedCount group = m.events.unfinishedCount group

theorem SameFor.of_restrict {m' : Master} (h : Separate p m)
    (hsame : m'.restrict p = m.restrict p) : SameFor p.group m m' where
  record := by
    have hrecord : ∀ m : Master, (m.restrict p).groups.group? p.group = m.groups.group? p.group :=
      fun _ => Party.group?_ofGroups
    rw [← hrecord m, ← hrecord m', hsame]
  queues c hc := by
    have hqueue : ∀ m : Master, (m.restrict p).events.queue c.id = m.events.queue c.id :=
      fun _ => Party.queue_ofEvents_of (uses_of_mem h hc)
    rw [← hqueue m, ← hqueue m', hsame]
  holdings c hc := by
    have hheld : ∀ m : Master, (m.restrict p).holdings.get? c.id = m.holdings.get? c.id :=
      fun _ => Table.get?_restrict_of (uses_of_mem h hc)
    rw [← hheld m, ← hheld m', hsame]
  rounds := by
    have hcount : ∀ m : Master, (m.restrict p).events.unfinishedCount p.group =
        m.events.unfinishedCount p.group := fun _ => Party.unfinishedCount_ofEvents
    rw [← hcount m, ← hcount m', hsame]

/-- A run is to a party what it is to the rest of the master of what concerns the party. -/
theorem run_restrict (hm : m.Reachable) (hn : (m.restrict p).Reachable) (h : Separate p m)
    {ops : List Operation} (hfit : ∀ op ∈ ops, op.Fits p) :
    (m.run ops).restrict p = (m.restrict p).run (ops.filter (Operation.concerns · p.group)) ∧
      Separate p (m.run ops) ∧ m.answersTo p.group ops =
        (m.restrict p).answersTo p.group (ops.filter (Operation.concerns · p.group)) := by
  induction ops generalizing m with
  | nil => exact ⟨rfl, h, rfl⟩
  | cons op ops ih =>
    have hop := hfit op List.mem_cons_self
    have hrest : ∀ op ∈ ops, op.Fits p := fun op hmem => hfit op (List.mem_cons_of_mem _ hmem)
    cases hconcerns : op.concerns p.group with
    | true =>
      have hafter := after_restrict_of_concerns h hop (registry_of_reachable hn) hm.counted
        hn.counted hconcerns
      obtain ⟨hrun, hsep, hanswers⟩ := ih (hm.after op) (hafter ▸ hn.after op) (h.after hop) hrest
      rw [List.filter_cons, if_pos hconcerns]
      refine ⟨?_, hsep, ?_⟩
      · rw [run_cons, run_cons, hafter]
        exact hrun
      · rw [answersTo, answersTo, hafter, hanswers]
        by_cases hfrom : op.comesFrom p.group = true
        · rw [if_pos hfrom, if_pos hfrom, perform_restrict h hop hfrom]
        · rw [if_neg hfrom, if_neg hfrom]
    | false =>
      have hafter := after_restrict_of_not_concerns h hop hconcerns
      obtain ⟨hrun, hsep, hanswers⟩ := ih (hm.after op) (hafter ▸ hn) (h.after hop) hrest
      have hfrom : ¬op.comesFrom p.group = true := by
        intro hfrom
        rw [concerns_of_comesFrom hfrom] at hconcerns
        cases hconcerns
      rw [List.filter_cons, if_neg (by simp [hconcerns])]
      refine ⟨?_, hsep, ?_⟩
      · rw [run_cons, ← hafter]
        exact hrun
      · rw [answersTo, if_neg hfrom, hanswers, hafter]
        rfl

theorem restrict_create {settings : Settings} {store : Store}
    (h : create settings store = .ok m) (p : Party) : m.restrict p = m := by
  obtain rfl := eq_of_create h
  rfl

/-- Runs that agree in what concerns a group are the same to it. -/
theorem sameFor_of_concerns {settings : Settings} {store : Store} {fresh : Master}
    (hfresh : create settings store = .ok fresh) {p : Party} {ops ops' : List Operation}
    (hfit : ∀ op ∈ ops, op.Fits p) (hfit' : ∀ op ∈ ops', op.Fits p)
    (heq : ops'.filter (Operation.concerns · p.group) = ops.filter (Operation.concerns · p.group)) :
    fresh.answersTo p.group ops' = fresh.answersTo p.group ops ∧
      SameFor p.group (fresh.run ops) (fresh.run ops') := by
  have hreach : fresh.Reachable := ⟨settings, store, fresh, [], hfresh, rfl⟩
  have hreach' : (fresh.restrict p).Reachable := (restrict_create hfresh p).symm ▸ hreach
  obtain ⟨hrun, hsep, hanswers⟩ := run_restrict hreach hreach' (.create hfresh) hfit
  obtain ⟨hrun', -, hanswers'⟩ := run_restrict hreach hreach' (.create hfresh) hfit'
  rw [← heq] at hrun hanswers
  exact ⟨hanswers'.trans hanswers.symm, .of_restrict hsep (hrun'.trans hrun.symm)⟩

/-- Without the requests of the other groups' consumers, a group whose ids nobody else uses is
answered the same, and its record, queues and holdings are the same. -/
theorem undisturbed_by_others {settings : Settings} {store : Store} {fresh : Master}
    (hfresh : create settings store = .ok fresh) (ops : List Operation) {group : String}
    (hown : KeepsToItself group ops) :
    fresh.answersTo group (ops.filter fun op => !op.comesFromOutside group) =
        fresh.answersTo group ops ∧
      SameFor group (fresh.run ops)
        (fresh.run (ops.filter fun op => !op.comesFromOutside group)) := by
  refine sameFor_of_concerns (p := .of group ops) hfresh (fun op hop => hown.fits hop)
    (fun op hop => hown.fits (List.mem_of_mem_filter hop)) ?_
  show (ops.filter fun op => !op.comesFromOutside group).filter (Operation.concerns · group) = _
  rw [List.filter_filter]
  refine List.filter_congr fun op _ => ?_
  -- what concerns the group is not asked for by others
  show (op.concerns group && !op.comesFromOutside group) = op.concerns group
  cases op with
  | commit name key offset => exact Bool.and_true _
  | _ => exact Bool.and_self _

end Master

/-! ## A neighbour that comes and goes

Two groups read one topic. A consumer of the one registers, sends a heartbeat and closes while a
consumer of the other is sent its first event.
-/

namespace Neighbours

open Master SmallCluster

def history : List Operation :=
  [serving,
   .consumerRegister (joining "a" "g"),
   .consumerRegister (joining "x" "k"),
   .pass,
   .consumerHeartbeat { consumer := "x", group := "k" },
   .consumerHeartbeat { consumer := "a", group := "g" },
   .consumerClose { consumer := "x", group := "k" },
   .pass]

theorem keepsToItself_history : KeepsToItself "g" history := by decide

/-- Three of the requests are the neighbour's, and without them the event is still there. -/
theorem undisturbed_history : Master.create {} (store 2) = .ok (fresh 2) ∧
    KeepsToItself "g" history ∧
    (history.filter (Operation.comesFromOutside · "g")).length = 3 ∧
    ((fresh 2).run history).events.queue "a" ≠ [] ∧
    (fresh 2).answersTo "g" (history.filter fun op => !op.comesFromOutside "g") =
      (fresh 2).answersTo "g" history ∧
    SameFor "g" ((fresh 2).run history)
      ((fresh 2).run (history.filter fun op => !op.comesFromOutside "g")) := by
  have hfresh : Master.create {} (store 2) = .ok (fresh 2) := create_fresh rfl
  have hpass : (((fresh 2).run history).events.queue "a").map Event.pass = [1] := by cbv
  refine ⟨hfresh, keepsToItself_history, by decide, ?_,
    undisturbed_by_others hfresh history keepsToItself_history⟩
  intro hempty
  rw [hempty] at hpass
  cases hpass

end Neighbours

end ClusterMaster
