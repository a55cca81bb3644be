import ClusterMaster.Proofs.Calls
import ClusterMaster.Proofs.Targets

/-!
# What a pass queues

The shards of a pass run one after the other, but each of them queues events only for members of
its own groups, and nothing they queue changes the picture of the next one. So a whole pass comes
down to one list of work: for each member of a selected group the events that lead from what it
holds to its target. Whoever is in a selected group and can be reached finds just that in its
queue after the pass, and everybody else finds what was there before:

    c is a member of the selected group g, and its row is free →
      its queue is changeEvents (pass) c (between (held) (targetIn g c))  (queue_runPass_of_selected)
    c is in no selected group, or its row is held → its queue is as before (queue_runPass_of_not_selected)
-/

namespace ClusterMaster

namespace EventQueues

/-! ## Work lists -/

/-- Queue all events of a list, each for a consumer that is let through. -/
def pushAll (through : String → Bool) (q : EventQueues) (work : List (String × List Event)) :
    EventQueues :=
  work.foldl (fun q w => if through w.1 then w.2.foldl (fun q e => q.push w.1 e) q else q) q

theorem queue_foldl_push {q : EventQueues} {c d : String} {es : List Event} :
    (es.foldl (fun q e => q.push c e) q).queue d = if c = d then q.queue d ++ es else q.queue d := by
  induction es generalizing q with
  | nil => simp
  | cons e es ih =>
    rw [List.foldl_cons, ih, queue_push]
    by_cases h : c = d <;> simp [h]

theorem queue_pushAll {through : String → Bool} {q : EventQueues}
    {work : List (String × List Event)} {d : String} : (q.pushAll through work).queue d =
      q.queue d ++ if through d then (work.filter fun w => w.1 == d).flatMap Prod.snd else [] := by
  induction work generalizing q with
  | nil => simp [pushAll]
  | cons w work ih =>
    have hcons : q.pushAll through (w :: work) = (if through w.1 then
        w.2.foldl (fun q e => q.push w.1 e) q else q).pushAll through work := rfl
    rw [hcons, ih]
    by_cases hw : w.1 = d
    · subst hw
      by_cases ht : through w.1 = true
      · rw [if_pos ht, if_pos ht, queue_foldl_push, if_pos rfl, if_pos ht, List.append_assoc,
          List.filter_cons, if_pos (beq_self_eq_true _), List.flatMap_cons]
      · rw [if_neg ht, if_neg ht, if_neg ht]
    · have hskip : (w :: work).filter (fun w => w.1 == d) = work.filter fun w => w.1 == d := by
        rw [List.filter_cons, if_neg fun h => hw (by simpa using h)]
      rw [hskip]
      by_cases ht : through w.1 = true
      · rw [if_pos ht, queue_foldl_push, if_neg hw]
      · rw [if_neg ht]

end EventQueues

/-- What a list with one entry for each key says about a key. -/
theorem flatMap_filter_of_nodup {β : Type} {work : List (String × List β)}
    (hn : (work.map Prod.fst).Nodup) {x : String} {es : List β} (h : (x, es) ∈ work) :
    (work.filter fun w => w.1 == x).flatMap Prod.snd = es := by
  have hfilter : work.filter (fun w => w.1 == x) = [(x, es)] := by
    induction work with
    | nil => cases h
    | cons w work ih =>
      rw [List.map_cons, List.nodup_cons] at hn
      rcases List.mem_cons.mp h with rfl | h
      · rw [List.filter_cons, if_pos (beq_self_eq_true _)]
        refine congrArg _ (List.filter_eq_nil_iff.mpr fun v hv => ?_)
        intro hvx
        exact hn.1 (List.mem_map.mpr ⟨v, hv, by simpa using hvx⟩)
      · have hne : w.1 ≠ x := fun e => hn.1 (List.mem_map.mpr ⟨_, h, e.symm⟩)
        rw [List.filter_cons, if_neg (by simpa using hne), ih hn.2 h]
  rw [hfilter]
  simp

/-- The event concerns a partition with this key. -/
def Event.Names (e : Event) (key : String) : Prop := ∃ s ∈ e.subscriptions, s.partition.key = key

theorem Event.names_iff_of_subscriptions_eq {d e : Event} (h : d.subscriptions = e.subscriptions)
    {key : String} : d.Names key ↔ e.Names key := by
  unfold Event.Names
  rw [h]

namespace Master

variable {m : Master}

/-- Events are queued for members whose row is free. -/
def letsThrough (m : Master) (id : String) : Bool :=
  !(m.consumerRows.isLocked id || !m.groups.contains id)

theorem queueEvents_eq (m : Master) (id : String) (es : List Event) :
    m.queueEvents id es = { m with
      events := if m.letsThrough id then es.foldl (fun q e => q.push id e) m.events else m.events } := by
  unfold queueEvents letsThrough
  cases m.consumerRows.isLocked id || !m.groups.contains id <;> rfl

theorem foldl_queueEvents (m : Master) (work : List (String × List Event)) :
    work.foldl (fun m w => m.queueEvents w.1 w.2) m =
      { m with events := m.events.pushAll m.letsThrough work } := by
  induction work generalizing m with
  | nil => rfl
  | cons w work ih =>
    rw [List.foldl_cons, ih, queueEvents_eq]
    rfl

/-! ## Shards -/

/-- What leads the members of some groups to their targets. -/
def changes (pass : Nat) (view : ShardView) (targets : GroupView → Assignment)
    (gs : List GroupView) : List (String × List Event) :=
  gs.flatMap fun g => g.members.map fun c => (c.id, changeEvents pass c
    (HoldingChange.between c.overTls (view.holdings.getD c.id Table.empty) ((targets g).get? c.id)
      g.black))

theorem queueChanges_eq (m : Master) (pass : Nat) (view : ShardView) (targets : Assignment)
    (bound : Bool) : m.queueChanges pass view targets bound = { m with
      events := m.events.pushAll m.letsThrough (changes pass view (fun _ => targets)
        (view.groups.filter fun g => g.bound == bound)) } := by
  rw [← foldl_queueEvents]
  unfold queueChanges changes
  rw [List.foldl_flatMap]
  refine List.foldl_ext _ _ _ fun m' g _ => ?_
  rw [List.foldl_map]
  rfl

/-- The work of one shard: first the bound groups, then the free ones. -/
def shardWork (m : Master) (b : Balancer) (plan : PassPlan) (view : ShardView) :
    List (String × List Event) :=
  changes plan.pass view (fun g => m.shardTargets b plan.first view g.bound)
    (view.groups.filter (fun g => g.bound == true) ++ view.groups.filter fun g => g.bound == false)

theorem changes_congr {pass : Nat} {view : ShardView} {targets targets' : GroupView → Assignment}
    {gs : List GroupView} (h : ∀ g ∈ gs, targets g = targets' g) :
    changes pass view targets gs = changes pass view targets' gs := by
  unfold changes
  refine List.flatMap_congr fun g hg => ?_
  rw [h g hg]

theorem finishShard_eq (m : Master) (b : Balancer) (plan : PassPlan) (view : ShardView) :
    m.finishShard b plan view = { m with
      events := m.events.pushAll m.letsThrough (m.shardWork b plan view)
      inFlight := m.inFlight - 1 } := by
  have hwork : m.shardWork b plan view =
      changes plan.pass view (fun _ => m.shardTargets b plan.first view true)
          (view.groups.filter fun g => g.bound == true) ++
        changes plan.pass view (fun _ => m.shardTargets b plan.first view false)
          (view.groups.filter fun g => g.bound == false) := by
    have hkind : ∀ bound, ∀ g ∈ view.groups.filter (fun g => g.bound == bound),
        m.shardTargets b plan.first view g.bound = m.shardTargets b plan.first view bound := by
      intro bound g hg
      rw [beq_iff_eq.mp (List.mem_filter.mp hg).2]
    unfold shardWork
    rw [show changes plan.pass view (fun g => m.shardTargets b plan.first view g.bound)
        (view.groups.filter (fun g => g.bound == true) ++
          view.groups.filter fun g => g.bound == false) = _ from List.flatMap_append]
    exact congrArg₂ _ (changes_congr (hkind true)) (changes_congr (hkind false))
  rw [hwork, EventQueues.pushAll, List.foldl_append]
  unfold finishShard endShard
  simp only [queueChanges_eq]
  rfl

/-- What the shards of a pass still have to queue, whatever has been queued before. -/
def passWork (m : Master) (b : Balancer) (plan : PassPlan) (shards : List (List String)) :
    List (String × List Event) :=
  shards.flatMap fun names => m.shardWork b plan (m.viewShard names)

theorem foldl_runShard (m : Master) (b : Balancer) (plan : PassPlan) (shards : List (List String)) :
    shards.foldl (fun m names => m.runShard b plan names) m = { m with
      events := m.events.pushAll m.letsThrough (m.passWork b plan shards)
      inFlight := m.inFlight - shards.length } := by
  induction shards generalizing m with
  | nil => rfl
  | cons names shards ih =>
    rw [List.foldl_cons, ih]
    unfold runShard
    rw [finishShard_eq]
    have hpush : m.events.pushAll m.letsThrough (m.passWork b plan (names :: shards)) =
        (m.events.pushAll m.letsThrough (m.shardWork b plan (m.viewShard names))).pushAll
          m.letsThrough (m.passWork b plan shards) := by
      rw [passWork, List.flatMap_cons, EventQueues.pushAll, List.foldl_append]
      rfl
    rw [hpush, List.length_cons, Nat.add_comm, Nat.sub_add_eq]
    rfl

/-! ## A whole pass -/

/-- The events a pass queues for a member of a group. -/
def eventsFor (m : Master) (v : GroupView) (c : Consumer) : List Event :=
  changeEvents (m.lastPass + 1) c
    (HoldingChange.between c.overTls (m.holdingOf c.id) (m.targetIn v c.id) v.black)

/-- The partitions the take-up events of a change name are those to take up. -/
theorem exists_connect_iff {pass : Nat} {c : Consumer} {change : HoldingChange} {key : String} :
    (∃ e ∈ changeEvents pass c change, e.kind.isConnect = true ∧ e.Names key) ↔
      ∃ p ∈ change.connect, p.key = key := by
  unfold changeEvents Event.Names
  simp only []
  split <;> simp_all [EventKind.isConnect, Consumer.subscription]

/-- The partitions the drop events of a change name are those to drop. -/
theorem exists_disconnect_iff {pass : Nat} {c : Consumer} {change : HoldingChange} {key : String} :
    (∃ e ∈ changeEvents pass c change, e.kind.isConnect = false ∧ e.Names key) ↔
      ∃ p ∈ change.disconnect, p.key = key := by
  unfold changeEvents Event.Names
  simp only []
  split <;> simp_all [EventKind.isConnect, Consumer.subscription]

theorem pass_of_mem_changeEvents {pass : Nat} {c : Consumer} {change : HoldingChange} {e : Event}
    (h : e ∈ changeEvents pass c change) : e.pass = pass := by
  unfold changeEvents at h
  simp only [] at h
  split at h <;> simp only [List.mem_cons, List.not_mem_nil, or_false] at h
  · rw [h]
  · rw [h]
  · rcases h with h | h <;> rw [h]

section RunPass

variable (hin : m.inFlight = 0) (hco : m.groups.Coherent)

include hin

theorem runPass_spec : ∃ events, (m.runPass m.balancer).2 = { m with
      events := events
      lastPass := m.lastPass + 1
      inFlight := 0
      firstPass := false } ∧
    ∀ id, events.queue id = m.beginPass.2.events.queue id ++
      if m.letsThrough id then
        ((m.passWork m.balancer m.beginPass.1 m.beginPass.1.shards).filter
          fun w => w.1 == id).flatMap Prod.snd
      else [] := by
  obtain ⟨begun, hbegun, -⟩ := beginPass_spec hin
  refine ⟨begun.pushAll m.letsThrough (m.passWork m.balancer m.beginPass.1 m.beginPass.1.shards),
    ?_, fun id => ?_⟩
  · unfold runPass
    simp only [foldl_runShard]
    rw [hbegun]
    simp only [Nat.sub_self]
    rfl
  · rw [EventQueues.queue_pushAll, hbegun]

omit hin in
theorem map_fst_shardWork (b : Balancer) (plan : PassPlan) (names : List String) :
    ((m.shardWork b plan (m.viewShard names)).map Prod.fst).Perm
      (names.flatMap fun name => (m.groups.membersOf name).map Consumer.id) := by
  have hperm : ((m.viewShard names).groups.filter (fun g => g.bound == true) ++
      (m.viewShard names).groups.filter fun g => g.bound == false).Perm
      (m.viewShard names).groups := by
    have hnot : ((m.viewShard names).groups.filter fun g => g.bound == false) =
        (m.viewShard names).groups.filter fun g => !(g.bound == true) := by
      refine List.filter_congr fun g _ => ?_
      cases g.bound <;> rfl
    rw [hnot]
    exact List.filter_append_perm _ _
  rw [← flatMap_ids_viewShard]
  unfold shardWork changes
  rw [List.map_flatMap]
  simp only [List.map_map]
  exact hperm.flatMap_right _

omit hin in
theorem map_fst_passWork (b : Balancer) (plan : PassPlan) (shards : List (List String)) :
    ((m.passWork b plan shards).map Prod.fst).Perm
      (shards.flatten.flatMap fun name => (m.groups.membersOf name).map Consumer.id) := by
  unfold passWork
  rw [List.map_flatMap, ← List.flatMap_id, List.flatMap_assoc]
  exact List.Perm.flatMap_left _ fun names _ => map_fst_shardWork _ _ names

include hco

omit hin in
theorem nodup_map_fst_passWork (b : Balancer) (plan : PassPlan) {shards : List (List String)}
    (hn : shards.flatten.Nodup) : ((m.passWork b plan shards).map Prod.fst).Nodup :=
  (map_fst_passWork b plan shards).nodup_iff.mpr (nodup_members hco hn)

theorem nodup_passWork :
    ((m.passWork m.balancer m.beginPass.1 m.beginPass.1.shards).map Prod.fst).Nodup :=
  nodup_map_fst_passWork hco _ _ (nodup_selected hin)

omit hin in
/-- However the groups are dealt out to shards, the work is the same. -/
theorem mem_passWork_iff {plan : PassPlan} (hpass : plan.pass = m.lastPass + 1)
    (hfirst : plan.first = m.firstPass) {shards : List (List String)} (hn : shards.flatten.Nodup)
    {w : String × List Event} : w ∈ m.passWork m.balancer plan shards ↔
      ∃ name ∈ shards.flatten, ∃ g, m.groups.group? name = some g ∧
        ∃ c ∈ g.members.values, (c.id, m.eventsFor (m.viewGroup g) c) = w := by
  have hshard : ∀ names ∈ shards, ∀ v ∈ (m.viewShard names).groups, ∀ c ∈ v.members,
      changeEvents plan.pass c (HoldingChange.between c.overTls
        ((m.viewShard names).holdings.getD c.id Table.empty)
        ((m.shardTargets m.balancer plan.first (m.viewShard names) v.bound).get? c.id) v.black) =
      m.eventsFor v c := by
    intro names hnames v hv c hc
    have hheld : (m.viewShard names).holdings.getD c.id Table.empty = m.holdingOf c.id := by
      rw [Table.getD, holdings_viewShard hv hc]
      rfl
    rw [hpass, hfirst, hheld,
      get?_shardTargets hco (hn.sublist (List.sublist_flatten_of_mem hnames)) hv hc]
    rfl
  have hkinds : ∀ {view : ShardView} {v : GroupView},
      v ∈ view.groups.filter (fun g => g.bound == true) ++
        view.groups.filter (fun g => g.bound == false) ↔ v ∈ view.groups := by
    intro view v
    cases hb : v.bound <;> simp [hb]
  unfold passWork shardWork changes
  simp only [List.mem_flatMap, List.mem_map, hkinds, List.mem_flatten]
  constructor
  · rintro ⟨names, hnames, v, hv, c, hc, rfl⟩
    obtain ⟨name, hname, g, hg, rfl⟩ := mem_groups_viewShard.mp hv
    exact ⟨name, ⟨names, hnames, hname⟩, g, hg, c, hc, by rw [hshard names hnames _ hv c hc]⟩
  · rintro ⟨name, ⟨names, hnames, hname⟩, g, hg, c, hc, rfl⟩
    have hv := mem_groups_viewShard.mpr ⟨name, hname, g, hg, rfl⟩
    exact ⟨names, hnames, m.viewGroup g, hv, c, hc, by rw [hshard names hnames _ hv c hc]⟩

theorem mem_passWork {name : String} {g : Group} {c : Consumer} (hname : name ∈ m.selected)
    (hg : m.groups.group? name = some g) (hc : c ∈ g.members.values) :
    (c.id, m.eventsFor (m.viewGroup g) c) ∈
      m.passWork m.balancer m.beginPass.1 m.beginPass.1.shards := by
  obtain ⟨events, -, hpass, hfirst, -⟩ := beginPass_spec hin
  exact (mem_passWork_iff hco hpass hfirst (nodup_selected hin)).mpr ⟨name, hname, g, hg, c, hc, rfl⟩

omit hco in
theorem queue_runPass_of_not_selected {id : String}
    (h : m.consumerRows.isLocked id = true ∨
      ∀ name ∈ m.selected, ∀ c ∈ m.groups.membersOf name, c.id ≠ id) :
    (m.runPass m.balancer).2.events.queue id = m.events.queue id := by
  obtain ⟨events, he, hq⟩ := runPass_spec hin
  rw [he]
  show events.queue id = m.events.queue id
  rw [hq, queue_begun_of_not_selected hin h]
  split
  · rename_i hthrough
    have hnone : (m.passWork m.balancer m.beginPass.1 m.beginPass.1.shards).filter
        (fun w => w.1 == id) = [] := by
      refine List.filter_eq_nil_iff.mpr fun w hw hid => ?_
      have hfst : id ∈ (m.passWork m.balancer m.beginPass.1 m.beginPass.1.shards).map Prod.fst :=
        List.mem_map.mpr ⟨w, hw, by simpa using hid⟩
      obtain ⟨name, hname, hmem⟩ := List.mem_flatMap.mp
        ((map_fst_passWork _ _ _).mem_iff.mp hfst)
      obtain ⟨c, hc, hcid⟩ := List.mem_map.mp hmem
      rcases h with hlocked | hno
      · rw [letsThrough, hlocked] at hthrough
        cases hthrough
      · exact hno name hname c hc hcid
    rw [hnone, List.flatMap_nil, List.append_nil]
  · rw [List.append_nil]

theorem queue_runPass_of_selected (hfirst : m.firstPass = true → ∀ id, m.events.queue id = [])
    (htracked : ∀ id c, m.groups.consumer? id = some c →
      m.liveness.isRegistered .consumer c.livenessKey = true)
    {name : String} {g : Group} {c : Consumer} (hname : name ∈ m.selected)
    (hg : m.groups.group? name = some g) (hc : c ∈ g.members.values)
    (hfree : m.consumerRows.isLocked c.id = false) :
    (m.runPass m.balancer).2.events.queue c.id = m.eventsFor (m.viewGroup g) c := by
  obtain ⟨events, he, hq⟩ := runPass_spec hin
  have hmember : c ∈ m.groups.membersOf name := by
    rw [Groups.membersOf, hg]
    exact hc
  have hthrough : m.letsThrough c.id = true := by
    have hcons := (Groups.mem_members_iff hco hg).mp hc
    rw [letsThrough, hfree, (Groups.contains_iff hco).mpr ⟨c, hcons.1⟩]
    rfl
  rw [he]
  show events.queue c.id = _
  rw [hq, queue_begun_of_selected hin hco hfirst htracked hname hmember hfree, if_pos hthrough,
    List.nil_append]
  exact flatMap_filter_of_nodup (nodup_passWork hin hco) (mem_passWork hin hco hname hg hc)

end RunPass

/-- A pass changes events, its own numbers, and which pass is the first. -/
theorem pass_touches (m : Master) : ∃ events lastPass inFlight firstPass,
    m.after .pass = { m with events, lastPass, inFlight, firstPass } := by
  obtain ⟨events, inFlight, firstPass, he⟩ : ∃ events inFlight firstPass,
      m.beginPass.2 = { m with lastPass := m.lastPass + 1, events, inFlight, firstPass } := by
    unfold beginPass
    simp only []
    split
    · exact ⟨_, _, _, rfl⟩
    · split
      · exact ⟨_, _, _, rfl⟩
      · obtain ⟨events, he, -⟩ :=
          groupsDue_spec { m with lastPass := m.lastPass + 1, firstPass := false }
        rw [he]
        exact ⟨_, _, _, rfl⟩
  show ∃ events lastPass inFlight firstPass,
    (m.runPass m.balancer).2 = { m with events, lastPass, inFlight, firstPass }
  unfold runPass
  simp only [foldl_runShard, he]
  exact ⟨_, _, _, _, rfl⟩

/-! ## What is done on behalf of no node -/

/-- The masters know the same nodes, and the same of them. -/
structure SameNodes (m m' : Master) : Prop where
  liveness : m'.liveness = m.liveness
  producers : m'.producers = m.producers
  groups : m'.groups = m.groups
  holdings : m'.holdings = m.holdings
  brokers : m'.brokers = m.brokers
  runs : m'.runs = m.runs
  topology : m'.topology = m.topology

/-- Operators, passes and time change nothing about the nodes. -/
theorem sameNodes_after {op : Operation} (hop : op.class? = none) (m : Master) :
    SameNodes m (m.after op) := by
  cases op with
  | setIntent id intent =>
    show SameNodes m (m.setBrokerIntent id intent).2
    rcases setBrokerIntent_cases m id intent with ⟨store, -, he⟩ | he
    · rw [he]
      exact ⟨rfl, rfl, rfl, rfl, rfl, rfl, rfl⟩
    · rw [he]
      exact ⟨rfl, rfl, rfl, rfl, rfl, rfl, rfl⟩
  | edit e =>
    show SameNodes m (m.editStore e).2
    rcases editStore_cases m e with ⟨store, -, he⟩ | ⟨fault, he⟩
    · rw [he]
      exact ⟨rfl, rfl, rfl, rfl, rfl, rfl, rfl⟩
    · rw [he]
      exact ⟨rfl, rfl, rfl, rfl, rfl, rfl, rfl⟩
  | pass =>
    obtain ⟨events, lastPass, inFlight, firstPass, he⟩ := pass_touches m
    rw [he]
    exact ⟨rfl, rfl, rfl, rfl, rfl, rfl, rfl⟩
  | hold kind key => cases kind <;> exact ⟨rfl, rfl, rfl, rfl, rfl, rfl, rfl⟩
  | giveBack kind key => cases kind <;> exact ⟨rfl, rfl, rfl, rfl, rfl, rfl, rfl⟩
  | commit group key offset => exact ⟨rfl, rfl, rfl, rfl, rfl, rfl, rfl⟩
  | wait ms => exact ⟨rfl, rfl, rfl, rfl, rfl, rfl, rfl⟩
  | stepWait ms => exact ⟨rfl, rfl, rfl, rfl, rfl, rfl, rfl⟩
  | _ => cases hop

end Master

end ClusterMaster
