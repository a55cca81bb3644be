import ClusterMaster.Proofs.Rounds
import ClusterMaster.Proofs.SmallCluster

/-!
# No group starves behind unacknowledged events

A pass looks at the consumers that have events in their queues, in no particular order, and decides
about a group when it meets the first live member of it: either the group is waited for, or its
backlog is dropped. A visit in any order comes to the same (`Visited.unique`), which is what a
master selects at once (`visited_groupsDue`). Together with the counts of rounds this gives, for
every reachable master (`waitsFairly_of_reachable`):

    the count of a group never exceeds the allowed rounds                                 (bounded)
    a registered group is left out exactly while a live member of it has a backlog
      and the count has not reached the allowed rounds                                (leftOut_iff)
    of more passes in a row than rounds are allowed, one balances the group              (balanced)
    whoever is balanced has lost what was queued before                                   (dropped)
    whatever the order of the visit, the pass begins alike                               (anyOrder)
-/

namespace ClusterMaster

namespace Master

variable {m : Master} {g : String}

/-! ## Visiting the consumers one by one -/

/-- How far a visit has come: the groups it waits for, those whose backlog it has dropped, and the
master that is left. -/
structure Visit where
  waiting : NameSet := KeySet.empty
  cleared : NameSet := KeySet.empty
  left : Master

/-- Look at one consumer with events. What becomes of a group is decided once, at the first of its
live members. -/
def Visit.visit (v : Visit) (id : String) : Visit :=
  match v.left.groups.consumer? id with
  | none => v
  | some c =>
    if v.left.liveness.isRegistered .consumer c.livenessKey = false then v
    else if c.group ∈ v.waiting ∨ c.group ∈ v.cleared then v
    else if v.left.isWaitedFor c.group then { v with waiting := v.waiting.insert c.group }
    else { v with cleared := v.cleared.insert c.group, left := v.left.dropBacklog c.group }

/-- The groups a later pass balances when the consumers with events are visited in some order. -/
def groupsDueVisiting (m : Master) (order : List String) : List String × Master :=
  let v := order.foldl Visit.visit { left := m }
  (v.left.groups.names.filter fun g => decide (g ∉ v.waiting),
    { v.left with events := v.left.events.countUnfinished v.waiting })

/-- How a later pass begins then. -/
def beginPassVisiting (m : Master) (order : List String) : PassPlan × Master :=
  let due := m.numbered.groupsDueVisiting order
  let shards := due.2.shardsOf due.1
  ({ pass := m.lastPass + 1, first := false, shards }, { due.2 with inFlight := shards.length })

/-- The group of a consumer that is heard of. -/
def liveGroup? (m : Master) (id : String) : Option String :=
  match m.groups.consumer? id with
  | some c => if m.liveness.isRegistered .consumer c.livenessKey then some c.group else none
  | none => none

/-- A live member of the group is among these consumers. -/
def SeenIn (m : Master) (seen : List String) (g : String) : Prop :=
  ∃ id ∈ seen, m.liveGroup? id = some g

/-- What a visit has come to once it has seen some consumers. -/
structure Visited (m : Master) (seen : List String) (v : Visit) : Prop where
  waiting : ∀ g, g ∈ v.waiting ↔ m.SeenIn seen g ∧ m.isWaitedFor g = true
  cleared : ∀ g, g ∈ v.cleared ↔ m.SeenIn seen g ∧ m.isWaitedFor g = false
  frame : v.left = { m with events := v.left.events }
  unfinished : v.left.events.unfinished = m.events.unfinished
  queues : ∀ x, v.left.events.queues.get? x =
    if (∃ g ∈ v.cleared, ∃ c ∈ m.groups.membersOf g, c.id = x) ∧ m.consumerRows.isLocked x = false
    then none else m.events.queues.get? x

theorem get?_queues_clear {q : EventQueues} {c x : String} :
    (q.clear c).queues.get? x = if c = x then none else q.queues.get? x := by
  show (q.queues.erase c).get? x = _
  rw [Table.get?_erase]

theorem get?_queues_dropBacklog {x : String} : (m.dropBacklog g).events.queues.get? x =
    if (∃ c ∈ m.groups.membersOf g, c.id = x) ∧ m.consumerRows.isLocked x = false then none
    else m.events.queues.get? x := by
  unfold dropBacklog
  simp only []
  generalize m.events = q
  generalize m.groups.membersOf g = cs
  induction cs generalizing q with
  | nil => simp
  | cons c cs ih =>
    rw [List.foldl_cons, ih]
    by_cases hx : c.id = x
    · subst hx
      cases hl : m.consumerRows.isLocked c.id <;> simp [get?_queues_clear]
    · have hskip : (if m.consumerRows.isLocked c.id then q else q.clear c.id).queues.get? x =
          q.queues.get? x := by
        split
        · rfl
        · rw [get?_queues_clear, if_neg hx]
      rw [hskip]
      simp [hx]

namespace Visited

variable {seen seen' : List String} {v v' : Visit} {id : String}

theorem nil (m : Master) : Visited m [] { left := m } := by
  refine ⟨fun g => ?_, fun g => ?_, rfl, rfl, fun x => ?_⟩
  · simp [SeenIn]
  · simp [SeenIn]
  · simp

theorem seenIn_append : m.SeenIn (seen ++ [id]) g ↔ m.SeenIn seen g ∨ m.liveGroup? id = some g := by
  simp [SeenIn, or_and_right, exists_or]

/-- A consumer whose group has been decided about, or that is not heard of, changes nothing. -/
theorem skip (h : Visited m seen v) (hid : ∀ g, m.liveGroup? id = some g → m.SeenIn seen g) :
    Visited m (seen ++ [id]) v := by
  have hsame : ∀ g, m.SeenIn (seen ++ [id]) g ↔ m.SeenIn seen g := by
    intro g
    rw [seenIn_append]
    exact or_iff_left_of_imp (hid g)
  exact ⟨fun g => by rw [hsame, h.waiting], fun g => by rw [hsame, h.cleared], h.frame, h.unfinished,
    h.queues⟩

theorem visit (h : Visited m seen v) (id : String) : Visited m (seen ++ [id]) (v.visit id) := by
  have hgroups : v.left.groups = m.groups := by rw [h.frame]
  have hliveness : v.left.liveness = m.liveness := by rw [h.frame]
  have hrows : v.left.consumerRows = m.consumerRows := by rw [h.frame]
  have hwaited : ∀ g, v.left.isWaitedFor g = m.isWaitedFor g := by
    intro g
    unfold isWaitedFor EventQueues.unfinishedCount
    rw [h.unfinished, show v.left.settings = m.settings by rw [h.frame]]
  unfold Visit.visit
  rw [hgroups, hliveness]
  cases hget : m.groups.consumer? id with
  | none => exact h.skip fun g hg => by simp [liveGroup?, hget] at hg
  | some c =>
    simp only [hwaited]
    split
    · rename_i hdead
      exact h.skip fun g hg => by simp [liveGroup?, hget, hdead] at hg
    · rename_i hlive
      have hgroup : ∀ g, m.liveGroup? id = some g ↔ c.group = g := by
        intro g
        simp [liveGroup?, hget, hlive]
      split
      · rename_i hdecided
        refine h.skip fun g hg => ?_
        obtain rfl := (hgroup g).mp hg
        rcases hdecided with hin | hin
        · exact ((h.waiting _).mp hin).1
        · exact ((h.cleared _).mp hin).1
      · split
        · rename_i hwait
          refine ⟨fun g => ?_, fun g => ?_, h.frame, h.unfinished, h.queues⟩
          · rw [KeySet.mem_insert, h.waiting, seenIn_append, hgroup]
            constructor
            · rintro (rfl | ⟨hseen, hw⟩)
              · exact ⟨.inr rfl, hwait⟩
              · exact ⟨.inl hseen, hw⟩
            · rintro ⟨hseen | rfl, hw⟩
              · exact .inr ⟨hseen, hw⟩
              · exact .inl rfl
          · rw [h.cleared, seenIn_append, hgroup]
            constructor
            · rintro ⟨hseen, hw⟩
              exact ⟨.inl hseen, hw⟩
            · rintro ⟨hseen | rfl, hw⟩
              · exact ⟨hseen, hw⟩
              · rw [hwait] at hw
                cases hw
        · rename_i hover
          rw [Bool.not_eq_true] at hover
          refine ⟨fun g => ?_, fun g => ?_, ?_, ?_, fun x => ?_⟩
          · rw [h.waiting, seenIn_append, hgroup]
            constructor
            · rintro ⟨hseen, hw⟩
              exact ⟨.inl hseen, hw⟩
            · rintro ⟨hseen | rfl, hw⟩
              · exact ⟨hseen, hw⟩
              · rw [hover] at hw
                cases hw
          · rw [KeySet.mem_insert, h.cleared, seenIn_append, hgroup]
            constructor
            · rintro (rfl | ⟨hseen, hw⟩)
              · exact ⟨.inr rfl, hover⟩
              · exact ⟨.inl hseen, hw⟩
            · rintro ⟨hseen | rfl, hw⟩
              · exact .inr ⟨hseen, hw⟩
              · exact .inl rfl
          · show v.left.dropBacklog c.group = _
            unfold dropBacklog
            rw [h.frame]
          · exact (requeued_dropBacklog v.left c.group).unfinished.trans h.unfinished
          · show (v.left.dropBacklog c.group).events.queues.get? x = _
            rw [get?_queues_dropBacklog, h.queues, hgroups, hrows]
            by_cases hx : m.consumerRows.isLocked x = false
            · simp only [hx, and_true, KeySet.mem_insert, exists_eq_or_imp]
              by_cases h₁ : ∃ d ∈ m.groups.membersOf c.group, d.id = x
              · simp [h₁]
              · simp [h₁]
            · simp [hx]

theorem foldl (h : Visited m seen v) (order : List String) :
    Visited m (seen ++ order) (order.foldl Visit.visit v) := by
  induction order generalizing seen v with
  | nil => simpa using h
  | cons id order ih =>
    have hrest := ih (h.visit id)
    rw [List.append_assoc] at hrest
    exact hrest

/-- What a visit comes to depends on whom it has seen, and on nothing else. -/
theorem unique (h : Visited m seen v) (h' : Visited m seen' v')
    (hsame : ∀ g, m.SeenIn seen g ↔ m.SeenIn seen' g) : v = v' := by
  have hwaiting : v.waiting = v'.waiting :=
    KeySet.ext_mem fun g => by rw [h.waiting, h'.waiting, hsame]
  have hcleared : v.cleared = v'.cleared :=
    KeySet.ext_mem fun g => by rw [h.cleared, h'.cleared, hsame]
  have hqueues : v.left.events.queues = v'.left.events.queues :=
    Table.ext_get? fun x => by rw [h.queues, h'.queues, hcleared]
  have hevents : v.left.events = v'.left.events := by
    have hunfinished := h.unfinished.trans h'.unfinished.symm
    cases hv : v.left.events
    cases hv' : v'.left.events
    rw [hv, hv'] at hqueues hunfinished
    simp only at hqueues hunfinished
    rw [hqueues, hunfinished]
  have hleft : v.left = v'.left := by rw [h.frame, h'.frame, hevents]
  cases v
  cases v'
  simp only at hwaiting hcleared hleft
  rw [hwaiting, hcleared, hleft]

end Visited

/-- Selecting all groups at once comes to the same as visiting the consumers with events. -/
theorem visited_groupsDue (m : Master) : Visited m m.events.waitingConsumers
    { waiting := m.stalledGroups.filter m.isWaitedFor
      cleared := m.stalledGroups.filter fun g => !m.isWaitedFor g
      left := (m.stalledGroups.filter fun g => !m.isWaitedFor g).toList.foldl dropBacklog m } := by
  have hstalled : ∀ g, g ∈ m.stalledGroups ↔ m.SeenIn m.events.waitingConsumers g := by
    intro g
    rw [stalledGroups, KeySet.mem_ofList, List.mem_filterMap]
    rfl
  have hqueues : ∀ (names : List String) (m : Master) (x : String),
      (names.foldl dropBacklog m).events.queues.get? x =
        if (∃ g ∈ names, ∃ c ∈ m.groups.membersOf g, c.id = x) ∧ m.consumerRows.isLocked x = false
        then none else m.events.queues.get? x := by
    intro names
    induction names with
    | nil => simp
    | cons n names ih =>
      intro m x
      rw [List.foldl_cons, ih, get?_queues_dropBacklog]
      show (if (∃ g ∈ names, ∃ c ∈ m.groups.membersOf g, c.id = x) ∧
        m.consumerRows.isLocked x = false then _ else _) = _
      by_cases hx : m.consumerRows.isLocked x = false
      · simp only [hx, and_true, List.exists_mem_cons_iff]
        by_cases h₁ : ∃ c ∈ m.groups.membersOf n, c.id = x
        · simp [h₁]
        · simp [h₁]
      · simp [hx]
  obtain ⟨events, he, -⟩ := foldl_dropBacklog_spec m
    (m.stalledGroups.filter fun g => !m.isWaitedFor g).toList
  refine ⟨fun g => ?_, fun g => ?_, ?_, (requeued_foldl_dropBacklog m _).unfinished, fun x => ?_⟩
  · rw [KeySet.mem_filter, hstalled]
  · rw [KeySet.mem_filter, hstalled, Bool.not_eq_true']
  · simp only [he]
  · simp only [hqueues]
    rfl

/-- In whatever order, and however often, the consumers with events are visited. -/
theorem groupsDueVisiting_eq (m : Master) {order : List String}
    (h : ∀ id, id ∈ order ↔ id ∈ m.events.waitingConsumers) :
    m.groupsDueVisiting order = m.groupsDue := by
  have hvisit : order.foldl Visit.visit { left := m } = _ :=
    ((Visited.nil m).foldl order).unique (visited_groupsDue m) fun g => by simp [SeenIn, h]
  unfold groupsDueVisiting
  simp only [hvisit]
  rfl

/-! ## Fairness -/

/-- How a master treats groups that have not taken up what was queued for them. -/
structure WaitsFairly (m : Master) : Prop where
  bounded : ∀ g, m.events.unfinishedCount g ≤ m.settings.maxUnfinishedRounds.toNat
  leftOut_iff : m.firstPass = false → ∀ g group, m.groups.group? g = some group →
    (g ∉ m.selected ↔
      m.HasBacklog g ∧ m.events.unfinishedCount g < m.settings.maxUnfinishedRounds.toNat)
  balanced : ∀ ops g, m.settings.maxUnfinishedRounds.toNat < (m.passMoments ops).length →
    (∀ n ∈ m.passMoments ops, ∃ group, n.groups.group? g = some group) →
    ∃ n ∈ m.passMoments ops, g ∈ n.selected
  dropped : (∀ id, m.consumerRows.isLocked id = false) →
    ∀ g ∈ m.selected, ∀ c ∈ m.groups.membersOf g, m.beginPass.2.events.queue c.id = [] ∧
      ∀ e ∈ (m.after .pass).events.queue c.id, e.pass = m.lastPass + 1
  anyOrder : m.firstPass = false → ∀ order, (∀ id, id ∈ order ↔ m.events.queue id ≠ []) →
    m.beginPassVisiting order = m.beginPass

/-- Of more passes in a row than a group may be left out of, one balances it. -/
theorem exists_mem_selected (h : m.Reachable) (ops : List Operation)
    (hmany : m.settings.maxUnfinishedRounds.toNat < (m.passMoments ops).length)
    (hreg : ∀ n ∈ m.passMoments ops, ∃ group, n.groups.group? g = some group) :
    ∃ n ∈ m.passMoments ops, g ∈ n.selected := by
  by_contra hnone
  have hout : ∀ n ∈ m.passMoments ops, g ∉ n.selected :=
    fun n hn hsel => hnone ⟨n, hn, hsel⟩
  have hcount := unfinishedCount_run_of_leftOut h ops hreg hout
  have hbound := (h.run ops).counted.bounded g
  rw [settings_run] at hbound
  omega

/-- Whatever order the consumers with events are visited in, a later pass begins alike. -/
theorem beginPassVisiting_eq (hr : Registry m) (hc : Counted m) (hf : m.firstPass = false)
    {order : List String} (h : ∀ id, id ∈ order ↔ m.events.queue id ≠ []) :
    m.beginPassVisiting order = m.beginPass := by
  have horder : ∀ id, id ∈ order ↔ id ∈ m.numbered.events.waitingConsumers := by
    intro id
    rw [h]
    exact (EventQueues.mem_waitingConsumers_iff hc.tidy).symm
  rw [beginPass_of_later hr.settled hf, beginPassVisiting, groupsDueVisiting_eq m.numbered horder]

/-- Whoever a pass balances starts without a backlog. -/
theorem backlog_dropped (hr : Registry m) (hfree : ∀ id, m.consumerRows.isLocked id = false)
    (hg : g ∈ m.selected) {c : Consumer} (hmem : c ∈ m.groups.membersOf g) :
    m.beginPass.2.events.queue c.id = [] ∧
      ∀ e ∈ (m.after .pass).events.queue c.id, e.pass = m.lastPass + 1 := by
  refine ⟨queue_begun_of_selected hr.settled hr.coherent hr.fresh hr.isRegistered hg hmem
    (hfree c.id), fun e he => ?_⟩
  obtain ⟨hget, rfl⟩ := (Groups.mem_membersOf hr.coherent).mp hmem
  obtain ⟨group, hgroup⟩ := exists_group_of_mem_selected hr.settled hg
  rw [hr.queue_after_pass hget hg hgroup (hfree c.id)] at he
  exact pass_of_mem_changeEvents he

/-- No group starves behind events that its members do not take up. -/
theorem waitsFairly_of_reachable (h : m.Reachable) : m.WaitsFairly where
  bounded := h.counted.bounded
  leftOut_iff hf _ group hg :=
    not_mem_selected_iff (registry_of_reachable h) h.counted hf ⟨group, hg⟩
  balanced ops _ := exists_mem_selected h ops
  dropped hfree _ hg _ hmem := backlog_dropped (registry_of_reachable h) hfree hg hmem
  anyOrder hf _ := beginPassVisiting_eq (registry_of_reachable h) h.counted hf

end Master

/-! ## A group that is not heard of

The only consumer of a group is sent a partition and never takes it up. One pass leaves the group
out, which is all that the settings allow.
-/

namespace Unheard

open Master SmallCluster

def history : List Operation := [serving, .consumerRegister (joining "a" "g"), .pass, .pass]

/-- The master once it has left the group out. -/
def waiting : Master := (fresh 1 { maxUnfinishedRounds := 1 }).run history

/-- The next pass balances the group. -/
theorem waitsFairly_history : waiting.Reachable ∧ waiting.events.unfinishedCount "g" = 1 ∧
    waiting.selected = ["g"] ∧ waiting.WaitsFairly :=
  have hreachable : waiting.Reachable := reachable_run rfl history
  ⟨hreachable, by cbv, by cbv, waitsFairly_of_reachable hreachable⟩

end Unheard

end ClusterMaster
