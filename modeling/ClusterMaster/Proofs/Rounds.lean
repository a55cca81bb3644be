import ClusterMaster.Proofs.Registry

/-!
# For how many rounds a group is waited for

A later pass leaves out the groups whose members have not taken up what was queued before, and
counts for how many passes in a row it has done so. Nothing but a pass touches the counts
(`sameRounds_after`), and a pass writes them anew: the count of a group that is left out goes up,
that of any other is forgotten.

    a registered group is left out of a later pass ↔
      a live member has a backlog and the count is below the maximum            (not_mem_selected_iff)
    after a pass the count is one more, or zero                           (unfinishedCount_after_pass)
    m.Reachable → no count exceeds the maximum                                     (Reachable.counted)
    passes that leave a group out add up                             (unfinishedCount_run_of_leftOut)
-/

namespace ClusterMaster

/-! ## Queues that change -/

namespace EventQueues

variable {q q' q'' : EventQueues} {c g : String} {n : Nat}

/-- No queue is kept that holds nothing. -/
def Tidy (q : EventQueues) : Prop := ∀ c, q.queues.get? c ≠ some []

/-- Queues have been replaced, and the counts are the same. -/
structure Requeued (q q' : EventQueues) : Prop where
  unfinished : q'.unfinished = q.unfinished
  tidy : q.Tidy → q'.Tidy

namespace Requeued

theorem refl (q : EventQueues) : Requeued q q := ⟨rfl, id⟩

theorem trans (h : Requeued q q') (h' : Requeued q' q'') : Requeued q q'' :=
  ⟨h'.unfinished.trans h.unfinished, fun ht => h'.tidy (h.tidy ht)⟩

theorem setQueue (q : EventQueues) (c : String) (es : List Event) :
    Requeued q (q.setQueue c es) := by
  refine ⟨rfl, fun ht d => ?_⟩
  unfold EventQueues.setQueue
  cases es with
  | nil =>
    show (q.queues.erase c).get? d ≠ some []
    rw [Table.get?_erase]
    split
    · simp
    · exact ht d
  | cons e es =>
    show (q.queues.insert c (e :: es)).get? d ≠ some []
    rw [Table.get?_insert]
    split
    · simp
    · exact ht d

theorem foldl {α : Type} {f : EventQueues → α → EventQueues} (hf : ∀ q a, Requeued q (f q a))
    (q : EventQueues) (as : List α) : Requeued q (as.foldl f q) := by
  induction as generalizing q with
  | nil => exact .refl q
  | cons a as ih => exact (hf q a).trans (ih (f q a))

theorem acknowledge (q : EventQueues) (c : String) (n : Nat) :
    Requeued q (q.acknowledge c n).2 := by
  unfold EventQueues.acknowledge
  split
  · exact .refl q
  · split
    · exact .setQueue q c _
    · exact .refl q

theorem deliver (q : EventQueues) (c : String) : Requeued q (q.deliver c).2 := by
  unfold EventQueues.deliver
  split
  · exact .refl q
  · simp only []
    split
    · exact .refl q
    · exact .setQueue q c _

theorem pushAll (through : String → Bool) (q : EventQueues) (work : List (String × List Event)) :
    Requeued q (q.pushAll through work) := by
  refine .foldl (fun q w => ?_) q work
  split
  · exact .foldl (fun q e => .setQueue q w.1 _) q w.2
  · exact .refl q

end Requeued

/-- The consumers with a queue are those that have something in it. -/
theorem mem_waitingConsumers_iff (h : q.Tidy) : c ∈ q.waitingConsumers ↔ q.queue c ≠ [] := by
  refine ⟨fun hc => ?_, mem_waitingConsumers⟩
  unfold waitingConsumers at hc
  rw [KeySet.mem_toList, Table.mem_keys, Table.contains_iff] at hc
  obtain ⟨es, hes⟩ := hc
  unfold queue Table.getD
  rw [hes, Option.getD_some]
  rintro rfl
  exact h c hes

/-- Tidy queues are told by what is in them. -/
theorem queues_ext (h : q.Tidy) (h' : q'.Tidy) (heq : ∀ c, q.queue c = q'.queue c) :
    q.queues = q'.queues := by
  refine Table.ext_get? fun c => ?_
  have hc := heq c
  unfold queue Table.getD at hc
  cases hq : q.queues.get? c with
  | none =>
    cases hq' : q'.queues.get? c with
    | none => rfl
    | some es =>
      rw [hq, hq'] at hc
      obtain rfl : [] = es := hc
      exact absurd hq' (h' c)
  | some es =>
    cases hq' : q'.queues.get? c with
    | none =>
      rw [hq, hq'] at hc
      obtain rfl : es = [] := hc
      exact absurd hq (h c)
    | some es' =>
      rw [hq, hq'] at hc
      exact congrArg some hc

/-- Waiting groups are counted up, and the others forgotten. -/
theorem get?_countUnfinished {waiting : NameSet} :
    (q.countUnfinished waiting).unfinished.get? g =
      if g ∈ waiting then some (q.unfinishedCount g + 1) else none := by
  have hkeys : ((waiting.toList.map fun g => (g, q.unfinishedCount g + 1)).map Prod.fst).Nodup := by
    rw [List.map_map]
    simpa [Function.comp_def] using KeySet.nodup_toList waiting
  show (Table.ofList (waiting.toList.map fun g => (g, q.unfinishedCount g + 1))).get? g = _
  by_cases hg : g ∈ waiting
  · have hmem : (g, q.unfinishedCount g + 1) ∈
        waiting.toList.map fun g => (g, q.unfinishedCount g + 1) :=
      List.mem_map.mpr ⟨g, hg, rfl⟩
    rw [if_pos hg, (Table.get?_ofList_of_nodup hkeys).mpr hmem]
  · rw [if_neg hg]
    cases hget : (Table.ofList (waiting.toList.map fun g => (g, q.unfinishedCount g + 1))).get? g with
    | none => rfl
    | some n =>
      obtain ⟨g', hg', heq⟩ := List.mem_map.mp (Table.mem_of_get?_ofList hget)
      obtain ⟨rfl, -⟩ := Prod.mk.inj heq
      exact absurd hg' hg

end EventQueues

namespace Master

open EventQueues (Requeued)

variable {m m' m'' : Master} {op : Operation} {g : String}

/-! ## What is not a pass -/

/-- The masters have the same settings, have begun the same passes and have counted alike. -/
structure SameRounds (m m' : Master) : Prop where
  settings : m'.settings = m.settings
  lastPass : m'.lastPass = m.lastPass
  inFlight : m'.inFlight = m.inFlight
  firstPass : m'.firstPass = m.firstPass
  events : Requeued m.events m'.events

namespace SameRounds

theorem refl (m : Master) : SameRounds m m := ⟨rfl, rfl, rfl, rfl, .refl _⟩

theorem trans (h : SameRounds m m') (h' : SameRounds m' m'') : SameRounds m m'' where
  settings := h'.settings.trans h.settings
  lastPass := h'.lastPass.trans h.lastPass
  inFlight := h'.inFlight.trans h.inFlight
  firstPass := h'.firstPass.trans h.firstPass
  events := h.events.trans h'.events

theorem dropConsumer (m : Master) (x : String) : SameRounds m (m.dropConsumer x).2 := by
  have hclear : Requeued m.events (m.events.clear x) := .setQueue _ _ _
  unfold Master.dropConsumer
  simp only []
  split
  · exact ⟨rfl, rfl, rfl, rfl, hclear⟩
  · split <;> exact ⟨rfl, rfl, rfl, rfl, hclear⟩

theorem releaseConsumer (m : Master) (x : String) : SameRounds m (m.releaseConsumer x).2 :=
  allow_snd (.refl m) (.dropConsumer m x)

theorem takeAcknowledgement (m : Master) (r : ConsumerHeartbeat) :
    SameRounds m (m.takeAcknowledgement r) := by
  unfold Master.takeAcknowledgement
  split
  · exact .refl m
  · simp only []
    have hack := Requeued.acknowledge m.events r.consumer r.acknowledged
    split
    · exact ⟨rfl, rfl, rfl, rfl, .refl _⟩
    · rename_i heq
      rw [heq] at hack
      exact ⟨rfl, rfl, rfl, rfl, hack⟩

theorem consumerHeartbeat (m : Master) (r : ConsumerHeartbeat) :
    SameRounds m (m.consumerHeartbeat r).2 := by
  have hack := takeAcknowledgement (m.hear .consumer (livenessKey r.consumer r.group)) r
  refine allow_snd (.refl m) ?_
  simp only []
  generalize (m.hear .consumer (livenessKey r.consumer r.group)).takeAcknowledgement r = m₁ at hack
  have hheard : SameRounds m m₁ := ⟨hack.settings, hack.lastPass, hack.inFlight, hack.firstPass,
    hack.events⟩
  have hreport : ∀ subs, SameRounds m (m₁.takeReport r.consumer subs) := by
    intro subs
    obtain ⟨holdings, he, -⟩ := takeReport_spec m₁ r.consumer subs
    rw [he]
    exact hheard.trans ⟨rfl, rfl, rfl, rfl, .refl _⟩
  cases r.reported with
  | none => exact hheard.trans ⟨rfl, rfl, rfl, rfl, .deliver _ _⟩
  | some subs => exact (hreport subs).trans ⟨rfl, rfl, rfl, rfl, .deliver _ _⟩

theorem expireConsumers (m : Master) : SameRounds m (m.expire .consumer).2 := by
  refine expire_induction (p := SameRounds m) (fun m' key h => h.trans ⟨rfl, rfl, rfl, rfl, .refl _⟩)
    (fun m' key h => h.trans ⟨rfl, rfl, rfl, rfl, .refl _⟩) (fun m' key h => ?_) (.refl m)
  rcases releaseNode_consumer_snd m' key with he | ⟨id, he⟩
  · rw [he]
    exact h
  · rw [he]
    exact h.trans (.releaseConsumer m' id)

end SameRounds

theorem SameConsumers.sameRounds (h : SameConsumers m m') : SameRounds m m' where
  settings := h.settings
  lastPass := h.lastPass
  inFlight := h.inFlight
  firstPass := h.firstPass
  events := h.events ▸ .refl _

/-- Nothing but a pass counts. -/
theorem sameRounds_after (hop : op ≠ .pass) (m : Master) : SameRounds m (m.after op) := by
  rcases op.cases with hno | ⟨r, rfl⟩ | ⟨r, rfl⟩ | hgo | hrow | rfl
  · exact (sameConsumers_after hno m).sameRounds
  · rcases after_consumerRegister m r with ⟨-, he⟩ | ⟨-, he⟩
    · rw [he]
      exact ⟨rfl, rfl, rfl, rfl, .setQueue _ _ _⟩
    · rw [he]
      exact .refl m
  · exact .consumerHeartbeat m r
  · cases op with
    | consumerClose r =>
      show SameRounds m (m.consumerClose r).2
      rcases consumerClose_snd m r with he | he
      · rw [he]
        exact .refl m
      · rw [he]
        exact .releaseConsumer m r.consumer
    | expire c =>
      cases c with
      | consumer => exact .expireConsumers m
      | _ => cases hgo
    | _ => cases hgo
  · obtain ⟨rows, he⟩ := after_of_isRowing hrow m
    rw [he]
    exact ⟨rfl, rfl, rfl, rfl, .refl _⟩
  · exact absurd rfl hop

/-! ## What a pass counts -/

theorem requeued_dropBacklog (m : Master) (name : String) :
    Requeued m.events (m.dropBacklog name).events := by
  refine .foldl (fun q c => ?_) m.events _
  split
  · exact .refl q
  · exact .setQueue q c.id []

theorem requeued_foldl_dropBacklog (m : Master) (names : List String) :
    Requeued m.events (names.foldl dropBacklog m).events := by
  induction names generalizing m with
  | nil => exact .refl _
  | cons n names ih => exact (requeued_dropBacklog m n).trans (ih (m.dropBacklog n))

/-- What a pass does to the counts is done when it begins. -/
theorem requeued_after_pass (m : Master) :
    Requeued m.beginPass.2.events (m.after .pass).events := by
  show Requeued m.beginPass.2.events (m.runPass m.balancer).2.events
  unfold runPass
  simp only [foldl_runShard]
  exact .pushAll _ _ _

theorem unfinishedCount_congr {q q' : EventQueues} (h : Requeued q q') :
    q'.unfinishedCount g = q.unfinishedCount g := by
  unfold EventQueues.unfinishedCount
  rw [h.unfinished]

/-- A later pass counts up the groups it waits for and forgets the others; the first one does not
count. -/
theorem get?_unfinished_after_pass (hin : m.inFlight = 0) :
    (m.after .pass).events.unfinished.get? g =
      if m.firstPass then m.events.unfinished.get? g
      else if g ∈ m.stalledGroups.filter m.isWaitedFor then some (m.events.unfinishedCount g + 1)
      else none := by
  rw [(requeued_after_pass m).unfinished]
  cases hf : m.firstPass with
  | true =>
    rw [beginPass_of_first hin hf]
    rfl
  | false =>
    rw [beginPass_of_later hin hf]
    show (EventQueues.countUnfinished _ _).unfinished.get? g = _
    rw [EventQueues.get?_countUnfinished,
      unfinishedCount_congr (requeued_foldl_dropBacklog m.numbered _)]
    rfl

theorem unfinishedCount_after_pass (hin : m.inFlight = 0) :
    (m.after .pass).events.unfinishedCount g =
      if m.firstPass then m.events.unfinishedCount g
      else if g ∈ m.stalledGroups.filter m.isWaitedFor then m.events.unfinishedCount g + 1 else 0 := by
  unfold EventQueues.unfinishedCount Table.getD
  rw [get?_unfinished_after_pass hin]
  unfold EventQueues.unfinishedCount Table.getD
  split
  · rfl
  · split <;> rfl

theorem tidy_after_pass (hin : m.inFlight = 0) (h : m.events.Tidy) : (m.after .pass).events.Tidy := by
  refine (requeued_after_pass m).tidy ?_
  cases hf : m.firstPass with
  | true =>
    rw [beginPass_of_first hin hf]
    exact h
  | false =>
    rw [beginPass_of_later hin hf]
    exact (requeued_foldl_dropBacklog m.numbered _).tidy h

/-! ## Counts of a reachable master -/

/-- Queues are tidy, and no group has been left out for more rounds than allowed. -/
structure Counted (m : Master) : Prop where
  tidy : m.events.Tidy
  bounded : ∀ g, m.events.unfinishedCount g ≤ m.settings.maxUnfinishedRounds.toNat

theorem mem_waited_iff : g ∈ m.stalledGroups.filter m.isWaitedFor ↔
    g ∈ m.stalledGroups ∧ m.events.unfinishedCount g < m.settings.maxUnfinishedRounds.toNat := by
  rw [KeySet.mem_filter]
  unfold isWaitedFor
  rw [decide_eq_true_iff]

theorem settings_after_pass (m : Master) : (m.after .pass).settings = m.settings := by
  obtain ⟨events, lastPass, inFlight, firstPass, he⟩ := pass_touches m
  rw [he]

namespace Counted

theorem create {settings : Settings} {store : Store} (h : Master.create settings store = .ok m) :
    Counted m := by
  obtain rfl := eq_of_create h
  refine ⟨fun c hc => ?_, fun g => Nat.zero_le _⟩
  cases hc

theorem after (h : Counted m) (hr : Registry m) (op : Operation) : Counted (m.after op) := by
  by_cases hop : op = .pass
  · subst hop
    refine ⟨tidy_after_pass hr.settled h.tidy, fun g => ?_⟩
    have hle := h.bounded g
    rw [unfinishedCount_after_pass hr.settled, settings_after_pass]
    split
    · exact hle
    · split
      · rename_i hwaited
        have hlt := (mem_waited_iff.mp hwaited).2
        omega
      · omega
  · have hs := sameRounds_after hop m
    refine ⟨hs.events.tidy h.tidy, fun g => ?_⟩
    rw [unfinishedCount_congr hs.events, hs.settings]
    exact h.bounded g

end Counted

theorem Reachable.counted (h : m.Reachable) : Counted m :=
  (h.induction (p := fun m => Registry m ∧ Counted m) (fun _ _ _ hm => ⟨.create hm, .create hm⟩)
    fun _ op hm => ⟨hm.1.after op, hm.2.after hm.1 op⟩).2

/-! ## Who is left out -/

/-- A member of the group that is heard of has something in its queue. -/
def HasBacklog (m : Master) (g : String) : Prop :=
  ∃ c ∈ m.groups.membersOf g, m.isTracked c.id c.group = true ∧ m.events.queue c.id ≠ []

theorem mem_stalledGroups_iff (hc : m.groups.Coherent) (ht : m.events.Tidy) :
    g ∈ m.stalledGroups ↔ m.HasBacklog g := by
  constructor
  · intro hg
    obtain ⟨id, hid, hsome⟩ := List.mem_filterMap.mp (KeySet.mem_ofList.mp hg)
    cases hget : m.groups.consumer? id with
    | none =>
      simp only [hget] at hsome
      cases hsome
    | some c =>
      simp only [hget, Option.ite_none_right_eq_some, Option.some.injEq] at hsome
      obtain ⟨htracked, rfl⟩ := hsome
      have hcid := hc.id_eq hget
      refine ⟨c, (Groups.mem_membersOf hc).mpr ⟨hcid ▸ hget, rfl⟩, htracked, ?_⟩
      rw [hcid]
      exact (EventQueues.mem_waitingConsumers_iff ht).mp hid
  · rintro ⟨c, hmem, htracked, hq⟩
    obtain ⟨hget, rfl⟩ := (Groups.mem_membersOf hc).mp hmem
    exact mem_stalledGroups hget htracked hq

theorem mem_names_iff : g ∈ m.groups.names ↔ ∃ group, m.groups.group? g = some group := by
  unfold Groups.names
  rw [KeySet.mem_toList, Table.mem_keys]
  exact Table.contains_iff

/-- A later pass leaves a group out exactly when it waits for it. -/
theorem not_mem_selected_iff (hr : Registry m) (hc : Counted m) (hf : m.firstPass = false)
    (hg : ∃ group, m.groups.group? g = some group) : g ∉ m.selected ↔
      m.HasBacklog g ∧ m.events.unfinishedCount g < m.settings.maxUnfinishedRounds.toNat := by
  obtain ⟨events, -, -, -, -, hlater⟩ := beginPass_spec hr.settled
  rw [(hlater hf).1, List.mem_filter, mem_names_iff, ← mem_stalledGroups_iff hr.coherent hc.tidy,
    ← mem_waited_iff]
  simp [hg]

/-! ## Passes in a row -/

/-- The master right before each pass of a run. -/
def passMoments (m : Master) : List Operation → List Master
  | [] => []
  | op :: ops => (if op = .pass then [m] else []) ++ (m.after op).passMoments ops

theorem run_cons (m : Master) (op : Operation) (ops : List Operation) :
    m.run (op :: ops) = (m.after op).run ops := rfl

theorem settings_after (m : Master) (op : Operation) : (m.after op).settings = m.settings := by
  by_cases hop : op = .pass
  · rw [hop]
    exact settings_after_pass m
  · exact (sameRounds_after hop m).settings

theorem settings_run (m : Master) (ops : List Operation) : (m.run ops).settings = m.settings := by
  induction ops generalizing m with
  | nil => rfl
  | cons op ops ih => rw [run_cons, ih, settings_after]

theorem Reachable.run (h : m.Reachable) (ops : List Operation) : (m.run ops).Reachable := by
  induction ops generalizing m with
  | nil => exact h
  | cons op ops ih => exact ih (h.after op)

/-- While every pass leaves a registered group out, its count goes up with each of them. -/
theorem unfinishedCount_run_of_leftOut (h : m.Reachable) (ops : List Operation)
    (hreg : ∀ n ∈ m.passMoments ops, ∃ group, n.groups.group? g = some group)
    (hout : ∀ n ∈ m.passMoments ops, g ∉ n.selected) :
    (m.run ops).events.unfinishedCount g =
      m.events.unfinishedCount g + (m.passMoments ops).length := by
  induction ops generalizing m with
  | nil => rfl
  | cons op ops ih =>
    have hrest := ih (h.after op) (fun n hn => hreg n (List.mem_append_right _ hn))
      fun n hn => hout n (List.mem_append_right _ hn)
    rw [run_cons, hrest, passMoments, List.length_append]
    by_cases hop : op = .pass
    · subst hop
      have hm : m ∈ m.passMoments (.pass :: ops) := List.mem_append_left _ (by simp)
      have hr := registry_of_reachable h
      have hleft := hout m hm
      have hlater : m.firstPass = false := by
        -- the first pass selects everybody
        by_contra hfirst
        obtain ⟨events, -, -, -, hall, -⟩ := beginPass_spec hr.settled
        refine hleft ?_
        rw [(hall (by simpa using hfirst)).1]
        exact mem_names_iff.mpr (hreg m hm)
      have hwaited : g ∈ m.stalledGroups.filter m.isWaitedFor := by
        rw [mem_waited_iff, mem_stalledGroups_iff hr.coherent h.counted.tidy]
        exact (not_mem_selected_iff hr h.counted hlater (hreg m hm)).mp hleft
      rw [unfinishedCount_after_pass hr.settled, if_neg (by simp [hlater]), if_pos hwaited]
      simp only [if_true, List.length_singleton]
      omega
    · rw [unfinishedCount_congr (sameRounds_after hop m).events, if_neg hop]
      simp

end Master

end ClusterMaster
