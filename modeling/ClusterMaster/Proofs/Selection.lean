import ClusterMaster.Master.Pass
import ClusterMaster.Proofs.Membership

/-!
# Which groups a pass balances

A pass that begins while no shard is unfinished selects groups and cuts their names into shards.
The first one selects all groups. A later one leaves out those whose members still have events to
take up, unless they have been left out too often: then the members whose rows are free lose
their events. So whoever is in a selected group and can be reached begins with an empty queue:

    the queue of an unlocked member of a selected group, when a pass has begun, is empty
                                                                       (queue_begun_of_selected)
    any other queue is what it was, except that a member of a group may have lost it
                                                                   (queue_begun_of_not_selected)
-/

namespace ClusterMaster

theorem flatten_chunks {α : Type} {n : Nat} (hn : n ≠ 0) (xs : List α) :
    (chunks n xs).flatten = xs := by
  induction hlen : xs.length using Nat.strong_induction_on generalizing xs with
  | _ len ih =>
    unfold chunks
    split
    · rename_i hstop
      rcases hstop with rfl | hzero
      · rfl
      · exact absurd hzero hn
    · rename_i hgo
      have hpos : 0 < xs.length := List.length_pos_iff.mpr fun h => hgo (.inl h)
      have hlt : (xs.drop n).length < len := by
        rw [List.length_drop]
        omega
      rw [List.flatten_cons, ih _ hlt _ rfl, List.take_append_drop]

namespace EventQueues

theorem mem_waitingConsumers {q : EventQueues} {c : String} (h : q.queue c ≠ []) :
    c ∈ q.waitingConsumers := by
  unfold waitingConsumers
  rw [KeySet.mem_toList, Table.mem_keys]
  unfold queue Table.getD at h
  unfold Table.contains
  cases hq : q.queues.get? c with
  | none =>
    rw [hq] at h
    exact absurd rfl h
  | some es => rfl

end EventQueues

namespace Master

variable {m : Master} {id name : String}

/-! ## Stalled groups -/

/-- A group is stalled when one of its members, which is heard of, has something in its queue. -/
theorem mem_stalledGroups {c : Consumer} (hc : m.groups.consumer? id = some c)
    (ht : m.liveness.isRegistered .consumer c.livenessKey = true) (hq : m.events.queue id ≠ []) :
    c.group ∈ m.stalledGroups := by
  refine KeySet.mem_ofList.mpr (List.mem_filterMap.mpr
    ⟨id, EventQueues.mem_waitingConsumers hq, ?_⟩)
  rw [hc]
  simp only []
  rw [if_pos ht]

/-- A member whose row is held keeps its events. -/
theorem queue_dropBacklog : (m.dropBacklog name).events.queue id =
    if (∃ c ∈ m.groups.membersOf name, c.id = id) ∧ m.consumerRows.isLocked id = false then []
    else m.events.queue id := by
  unfold dropBacklog
  simp only []
  generalize m.events = q
  generalize m.groups.membersOf name = cs
  induction cs generalizing q with
  | nil => simp
  | cons c cs ih =>
    rw [List.foldl_cons, ih]
    by_cases hrest : (∃ d ∈ cs, d.id = id) ∧ m.consumerRows.isLocked id = false
    · have hall : (∃ d ∈ c :: cs, d.id = id) ∧ m.consumerRows.isLocked id = false :=
        ⟨hrest.1.imp fun d hd => ⟨List.mem_cons_of_mem _ hd.1, hd.2⟩, hrest.2⟩
      rw [if_pos hrest, if_pos hall]
    · rw [if_neg hrest]
      by_cases hc : c.id = id
      · subst hc
        by_cases hl : m.consumerRows.isLocked c.id = true
        · rw [if_pos hl, if_neg fun h => by simp [hl] at h]
        · rw [if_neg hl, EventQueues.queue_clear, if_pos rfl,
            if_pos ⟨⟨c, List.mem_cons_self, rfl⟩, by simpa using hl⟩]
      · have hiff : ¬((∃ d ∈ c :: cs, d.id = id) ∧ m.consumerRows.isLocked id = false) := by
          rintro ⟨⟨d, hd, hid⟩, hl⟩
          rcases List.mem_cons.mp hd with rfl | hd
          · exact hc hid
          · exact hrest ⟨⟨d, hd, hid⟩, hl⟩
        rw [if_neg hiff]
        split
        · rfl
        · rw [EventQueues.queue_clear, if_neg hc]

/-- Dropping backlogs changes nothing but events. -/
theorem foldl_dropBacklog_spec (m : Master) (names : List String) :
    ∃ events, names.foldl dropBacklog m = { m with events } ∧ ∀ id, events.queue id =
      if (∃ n ∈ names, ∃ c ∈ m.groups.membersOf n, c.id = id) ∧ m.consumerRows.isLocked id = false
      then [] else m.events.queue id := by
  induction names generalizing m with
  | nil => exact ⟨m.events, rfl, fun id => by simp⟩
  | cons n names ih =>
    obtain ⟨events, he, hq⟩ := ih (m.dropBacklog n)
    refine ⟨events, he, fun id => ?_⟩
    rw [hq, queue_dropBacklog]
    show (if (∃ n ∈ names, ∃ c ∈ m.groups.membersOf n, c.id = id) ∧
      m.consumerRows.isLocked id = false then [] else _) = _
    by_cases hl : m.consumerRows.isLocked id = false
    · simp only [hl, and_true, List.exists_mem_cons_iff]
      by_cases h₁ : ∃ n ∈ names, ∃ c ∈ m.groups.membersOf n, c.id = id
      · rw [if_pos h₁, if_pos (.inr h₁)]
      · by_cases h₂ : ∃ c ∈ m.groups.membersOf n, c.id = id
        · rw [if_neg h₁, if_pos h₂, if_pos (.inl h₂)]
        · rw [if_neg h₁, if_neg h₂, if_neg (not_or.mpr ⟨h₂, h₁⟩)]
    · simp [hl]

/-! ## Beginning -/

/-- The names of the groups the next pass balances. -/
def selected (m : Master) : List String := m.beginPass.1.shards.flatten

theorem flatten_shardsOf (m : Master) (names : List String) : (m.shardsOf names).flatten = names := by
  unfold shardsOf
  simp only []
  rcases Nat.eq_zero_or_pos names.length with h | h
  · rw [List.length_eq_zero_iff] at h
    subst h
    unfold chunks
    rw [dif_pos (.inl rfl)]
    rfl
  · refine flatten_chunks (Nat.ne_of_gt (Nat.div_pos ?_ ?_)) names <;> omega

/-- A later pass selects the groups it does not wait for, and drops the backlog of those it has
waited for long enough. -/
theorem groupsDue_spec (m : Master) : ∃ events,
    m.groupsDue = (m.groups.names.filter
      (fun g => decide (g ∉ m.stalledGroups.filter m.isWaitedFor)), { m with events := events }) ∧
    ∀ id, events.queue id =
      if (∃ n ∈ m.stalledGroups, m.isWaitedFor n = false ∧ ∃ c ∈ m.groups.membersOf n, c.id = id) ∧
        m.consumerRows.isLocked id = false then [] else m.events.queue id := by
  obtain ⟨events, he, hq⟩ := foldl_dropBacklog_spec m
    (m.stalledGroups.filter fun g => !m.isWaitedFor g).toList
  refine ⟨events.countUnfinished (m.stalledGroups.filter m.isWaitedFor), ?_, fun id => ?_⟩
  · unfold groupsDue
    simp only [he]
  · have hiff : (∃ n ∈ (m.stalledGroups.filter fun g => !m.isWaitedFor g).toList,
        ∃ c ∈ m.groups.membersOf n, c.id = id) ↔
        ∃ n ∈ m.stalledGroups, m.isWaitedFor n = false ∧ ∃ c ∈ m.groups.membersOf n, c.id = id := by
      refine exists_congr fun n => ?_
      rw [KeySet.mem_toList, KeySet.mem_filter, Bool.not_eq_true', and_assoc]
    rw [show (events.countUnfinished (m.stalledGroups.filter m.isWaitedFor)).queue id =
      events.queue id from rfl, hq]
    simp only [hiff]

/-- A pass has taken its number, but not selected any group. -/
def numbered (m : Master) : Master := { m with lastPass := m.lastPass + 1, firstPass := false }

section Begun

variable (hin : m.inFlight = 0)

include hin

theorem beginPass_of_first (hf : m.firstPass = true) : m.beginPass =
    ({ pass := m.lastPass + 1, first := true, shards := m.numbered.shardsOf m.groups.names },
      { m.numbered with inFlight := (m.numbered.shardsOf m.groups.names).length }) := by
  unfold beginPass numbered
  simp [hin, hf]

theorem beginPass_of_later (hf : m.firstPass = false) : m.beginPass =
    ({ pass := m.lastPass + 1, first := false,
       shards := m.numbered.groupsDue.2.shardsOf m.numbered.groupsDue.1 },
      { m.numbered.groupsDue.2 with
        inFlight := (m.numbered.groupsDue.2.shardsOf m.numbered.groupsDue.1).length }) := by
  unfold beginPass numbered
  simp [hin, hf]

/-- Beginning a pass changes its number, which pass is the first, how many shards are unfinished,
and perhaps some events. -/
theorem beginPass_spec : ∃ events,
    m.beginPass.2 = { m with
      events := events
      lastPass := m.lastPass + 1
      inFlight := m.beginPass.1.shards.length
      firstPass := false } ∧
    m.beginPass.1.pass = m.lastPass + 1 ∧ m.beginPass.1.first = m.firstPass ∧
    (m.firstPass = true → m.selected = m.groups.names ∧ events = m.events) ∧
    (m.firstPass = false →
      m.selected = m.groups.names.filter (fun g => decide (g ∉ m.stalledGroups.filter m.isWaitedFor)) ∧
      ∀ id, events.queue id =
        if (∃ n ∈ m.stalledGroups, m.isWaitedFor n = false ∧ ∃ c ∈ m.groups.membersOf n, c.id = id) ∧
          m.consumerRows.isLocked id = false then [] else m.events.queue id) := by
  unfold selected
  cases hf : m.firstPass with
  | true =>
    rw [beginPass_of_first hin hf]
    exact ⟨m.events, rfl, rfl, rfl, fun _ => ⟨flatten_shardsOf _ _, rfl⟩, fun h => absurd h (by decide)⟩
  | false =>
    obtain ⟨events, he, hq⟩ := groupsDue_spec m.numbered
    rw [beginPass_of_later hin hf, he]
    exact ⟨events, rfl, rfl, rfl, fun h => absurd h (by decide), fun _ => ⟨flatten_shardsOf _ _, hq⟩⟩

theorem mem_names_of_mem_selected (h : name ∈ m.selected) : name ∈ m.groups.names := by
  obtain ⟨events, -, -, -, hfirst, hlater⟩ := beginPass_spec hin
  cases hf : m.firstPass with
  | true =>
    rw [(hfirst hf).1] at h
    exact h
  | false =>
    rw [(hlater hf).1] at h
    exact List.mem_of_mem_filter h

theorem exists_group_of_mem_selected (h : name ∈ m.selected) : ∃ g, m.groups.group? name = some g :=
  Table.contains_iff.mp (Table.mem_keys.mp (KeySet.mem_toList.mp (mem_names_of_mem_selected hin h)))

theorem nodup_selected : m.selected.Nodup := by
  obtain ⟨events, -, -, -, hfirst, hlater⟩ := beginPass_spec hin
  cases hf : m.firstPass with
  | true =>
    rw [(hfirst hf).1]
    exact KeySet.nodup_toList _
  | false =>
    rw [(hlater hf).1]
    exact (KeySet.nodup_toList _).filter _

/-- When the members of groups are heard of and no queue outlives its consumer, a pass begins with
empty queues for the members of selected groups that it can reach. -/
theorem queue_begun_of_selected (hco : m.groups.Coherent)
    (hfirst : m.firstPass = true → ∀ id, m.events.queue id = [])
    (htracked : ∀ id c, m.groups.consumer? id = some c →
      m.liveness.isRegistered .consumer c.livenessKey = true)
    (h : name ∈ m.selected) {c : Consumer} (hc : c ∈ m.groups.membersOf name)
    (hfree : m.consumerRows.isLocked c.id = false) : m.beginPass.2.events.queue c.id = [] := by
  obtain ⟨events, he, -, -, hfst, hlater⟩ := beginPass_spec hin
  rw [he]
  cases hf : m.firstPass with
  | true =>
    rw [(hfst hf).2]
    exact hfirst hf c.id
  | false =>
    rw [(hlater hf).1] at h
    show events.queue c.id = []
    rw [(hlater hf).2]
    split
    · rfl
    · rename_i hkeep
      by_contra hne
      obtain ⟨hcons, rfl⟩ := (Groups.mem_membersOf hco).mp hc
      have hstalled := mem_stalledGroups hcons (htracked c.id c hcons) hne
      have hnot := (List.mem_filter.mp h).2
      simp only [decide_eq_true_eq, KeySet.mem_filter, not_and, Bool.not_eq_true] at hnot
      exact hkeep ⟨⟨c.group, hstalled, hnot hstalled, c, hc, rfl⟩, hfree⟩

/-- Whoever is in no selected group, or cannot be reached, keeps its queue. -/
theorem queue_begun_of_not_selected
    (h : m.consumerRows.isLocked id = true ∨
      ∀ name ∈ m.selected, ∀ c ∈ m.groups.membersOf name, c.id ≠ id) :
    m.beginPass.2.events.queue id = m.events.queue id := by
  obtain ⟨events, he, -, -, hfst, hlater⟩ := beginPass_spec hin
  rw [he]
  show events.queue id = m.events.queue id
  cases hf : m.firstPass with
  | true => rw [(hfst hf).2]
  | false =>
    rw [(hlater hf).2]
    split
    · rename_i hdrop
      obtain ⟨⟨n, hn, hover, c, hc, rfl⟩, hfree⟩ := hdrop
      rcases h with hlocked | hno
      · rw [hlocked] at hfree
        cases hfree
      · refine absurd rfl (hno n ?_ c hc)
        rw [(hlater hf).1]
        refine List.mem_filter.mpr ⟨?_, ?_⟩
        · unfold Groups.membersOf at hc
          cases hg : m.groups.group? n with
          | none =>
            rw [hg] at hc
            cases hc
          | some g => exact KeySet.mem_toList.mpr (Table.mem_keys.mpr (Table.contains_iff.mpr ⟨g, hg⟩))
        · simp [hover]
    · rfl

end Begun

end Master

end ClusterMaster
