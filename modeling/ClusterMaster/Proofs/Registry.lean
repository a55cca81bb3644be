import ClusterMaster.Proofs.Passes

/-!
# What every reachable master has in common

`Registry m` gathers what holds of the consumer side of a master at any time between operations,
whatever its store: the groups are coherent, members have usable names and are heard of, holdings
are well filed, no shard is unfinished, and every queue is the remainder of what one pass queued
(`Backlog`). One operation keeps it (`Registry.after`), so all reachable masters have it
(`registry_of_reachable`).
-/

namespace ClusterMaster

/-! ## What a pass leaves in a queue -/

/-- The remainder of what one pass queued for a consumer: nothing, one event, or a pair of which
only the first may have been handed out. -/
inductive Backlog (last : Nat) : List Event → Prop
  | nil : Backlog last []
  | single {e : Event} (pos : 0 < e.pass) (le : e.pass ≤ last) (kind : e.kind ≠ .disconnect) :
    Backlog last [e]
  | pair {d e : Event} (pos : 0 < d.pass) (le : d.pass ≤ last) (drop : d.kind = .disconnect)
    (take : e.kind = .connect) (pass : e.pass = d.pass) (todo : e.status = .todo) :
    Backlog last [d, e]

namespace Backlog

variable {last : Nat} {es : List Event}

theorem mono {last' : Nat} (h : Backlog last es) (hle : last ≤ last') : Backlog last' es := by
  cases h with
  | nil => exact .nil
  | single pos le kind => exact .single pos (le.trans hle) kind
  | pair pos le drop take pass todo => exact .pair pos (le.trans hle) drop take pass todo

theorem pass_bounds (h : Backlog last es) : ∀ e ∈ es, 0 < e.pass ∧ e.pass ≤ last := by
  cases h with
  | nil => simp
  | single pos le _ => simpa using ⟨pos, le⟩
  | pair pos le _ _ pass _ => simp [pass, pos, le]

theorem handedOut (h : Backlog last es) : Backlog last (handedOut es) := by
  cases h with
  | nil => exact .nil
  | single pos le kind => exact .single pos le kind
  | pair pos le drop take pass todo => exact .pair pos le drop take pass todo

theorem tail (h : Backlog last es) : Backlog last es.tail := by
  cases h with
  | nil => exact .nil
  | single pos le kind => exact .nil
  | pair pos le drop take pass todo =>
    exact .single (pass ▸ pos) (pass ▸ le) (by rw [take]; decide)

theorem leftOver (h : Backlog last es) (n : Nat) : Backlog last (leftOver es n) := by
  unfold ClusterMaster.leftOver
  split
  · exact h.tail
  · exact h

theorem changeEvents {pass : Nat} (pos : 0 < pass) (le : pass ≤ last) (c : Consumer)
    (change : HoldingChange) : Backlog last (Master.changeEvents pass c change) := by
  unfold Master.changeEvents
  simp only []
  split
  · exact .nil
  · exact .single pos le (by simp)
  · exact .single pos le (by simp)
  · exact .pair pos le rfl rfl rfl rfl

end Backlog

namespace Master

/-! ## The invariant -/

structure Registry (m : Master) : Prop where
  coherent : m.groups.Coherent
  usable : ∀ id c, m.groups.consumer? id = some c → Usable c.id ∧ Usable c.group
  tracked : ∀ id c, m.groups.consumer? id = some c → m.isTracked c.id c.group = true
  wellFiled : ∀ id, (m.holdingOf id).WellFiled
  settled : m.inFlight = 0
  fresh : m.firstPass = true → ∀ id, m.events.queue id = []
  owned : ∀ id, m.events.queue id ≠ [] → ∃ c, m.groups.consumer? id = some c
  backlog : ∀ id, Backlog m.lastPass (m.events.queue id)

namespace Registry

variable {m m' : Master}

theorem groupsUsable (h : Registry m) : m.GroupsUsable := fun id c hc => (h.usable id c hc).2.2

theorem isRegistered (h : Registry m) : ∀ id c, m.groups.consumer? id = some c →
    m.liveness.isRegistered .consumer c.livenessKey = true := h.tracked

theorem create {settings : Settings} {store : Store} (h : create settings store = .ok m) :
    Registry m := by
  obtain rfl := eq_of_create h
  refine ⟨Groups.coherent_empty, ?_, ?_, fun id => Holding.wellFiled_empty, rfl, fun _ _ => rfl, ?_,
    fun id => .nil⟩
  · intro id c hc
    cases hc
  · intro id c hc
    cases hc
  · intro id hq
    exact absurd rfl hq

/-! ## Steps -/

theorem same (h : Registry m) (hs : SameConsumers m m') : Registry m' where
  coherent := hs.groups ▸ h.coherent
  usable id c hc := h.usable id c (hs.groups ▸ hc)
  tracked id c hc := by
    rw [hs.groups] at hc
    exact hs.tracked _ _ (h.usable id c hc).2.2 (h.tracked id c hc)
  wellFiled id := by
    unfold holdingOf
    rw [hs.holdings]
    exact h.wellFiled id
  settled := hs.inFlight.trans h.settled
  fresh hf id := by
    rw [hs.events]
    exact h.fresh (hs.firstPass ▸ hf) id
  owned id hq := by
    rw [hs.groups]
    exact h.owned id (hs.events ▸ hq)
  backlog id := by
    rw [hs.events, hs.lastPass]
    exact h.backlog id

theorem enrol (h : Registry m) {r : ConsumerRegister} (hr : m.checkConsumerRegister r = .ok ()) :
    Registry (m.enrolConsumer r) := by
  obtain ⟨hid, hgroup, hj⟩ := of_checkConsumerRegister hr
  refine ⟨coherent_enrol h.coherent hj, fun id c hc => ?_, fun id c hc => ?_, fun id => ?_, h.settled,
    fun hf id => ?_, fun id hq => ?_, fun id => ?_⟩
  · rw [consumer?_enrol h.coherent hj] at hc
    split at hc
    · obtain rfl := Option.some.inj hc
      exact ⟨hid, hgroup⟩
    · exact h.usable id c hc
  · rw [consumer?_enrol h.coherent hj] at hc
    split at hc
    · obtain rfl := Option.some.inj hc
      exact isTracked_enrol (.inr ⟨rfl, rfl⟩)
    · exact isTracked_enrol (.inl (h.tracked id c hc))
  · unfold holdingOf Table.getD
    rw [holdings_enrol]
    split
    · split
      · exact Holding.wellFiled_empty
      · exact Holding.wellFiled_ofSubscriptions _
    · exact h.wellFiled id
  · rw [queue_enrol]
    split
    · rfl
    · exact h.fresh hf id
  · rw [queue_enrol] at hq
    rw [consumer?_enrol h.coherent hj]
    split at hq
    · exact absurd rfl hq
    · split
      · exact ⟨_, rfl⟩
      · exact h.owned id hq
  · rw [queue_enrol]
    split
    · exact .nil
    · exact h.backlog id

theorem beaten (h : Registry m) {r : ConsumerHeartbeat} (hb : m.Beaten r m') : Registry m' where
  coherent := hb.coherent h.coherent
  usable id c hc := h.usable id c (hb.consumer? id ▸ hc)
  tracked id c hc := hb.tracked _ _ (h.tracked id c (hb.consumer? id ▸ hc))
  wellFiled id := by
    by_cases hid : r.consumer = id
    · subst hid
      exact hb.wellFiled (h.wellFiled _)
    · unfold holdingOf Table.getD
      rw [hb.others id hid]
      exact h.wellFiled id
  settled := hb.inFlight.trans h.settled
  fresh hf id := by
    have hempty := h.fresh (hb.firstPass ▸ hf) id
    rw [hb.queue, hempty]
    split <;> rfl
  owned id hq := by
    rw [hb.consumer?]
    refine h.owned id fun hempty => hq ?_
    rw [hb.queue, hempty]
    split <;> rfl
  backlog id := by
    rw [hb.queue, hb.lastPass]
    split
    · exact ((h.backlog id).leftOver _).handedOut
    · exact h.backlog id

theorem drops (h : Registry m) {x : String} (hd : DropsConsumer x m m') : Registry m' where
  coherent := hd.groups ▸ h.coherent.leave x
  usable id c hc := h.usable id c ((hd.consumer?_iff h.coherent).mp hc).2
  tracked id c hc := by
    obtain ⟨hne, hc⟩ := (hd.consumer?_iff h.coherent).mp hc
    refine hd.tracked _ _ ?_ (h.usable id c hc).2.2 (h.tracked id c hc)
    rw [h.coherent.id_eq hc]
    exact hne.symm
  wellFiled id := by
    rw [hd.holdingOf]
    split
    · exact Holding.wellFiled_empty
    · exact h.wellFiled id
  settled := hd.inFlight.trans h.settled
  fresh hf id := by
    rw [hd.queue]
    split
    · rfl
    · exact h.fresh (hd.firstPass ▸ hf) id
  owned id hq := by
    rw [hd.queue] at hq
    split at hq
    · exact absurd rfl hq
    · rename_i hne
      obtain ⟨c, hc⟩ := h.owned id hq
      exact ⟨c, (hd.consumer?_iff h.coherent).mpr ⟨hne, hc⟩⟩
  backlog id := by
    rw [hd.queue, hd.lastPass]
    split
    · exact .nil
    · exact h.backlog id

/-- A pass changes events, its own number, and which pass is the first. -/
theorem after_pass (h : Registry m) : ∃ events, m.after .pass = { m with
    events := events
    lastPass := m.lastPass + 1
    inFlight := 0
    firstPass := false } := by
  obtain ⟨events, he, -⟩ := runPass_spec h.settled
  exact ⟨events, he⟩

/-- The queue of a member of a selected group after a pass. -/
theorem queue_after_pass (h : Registry m) {c : Consumer} {g : Group}
    (hc : m.groups.consumer? c.id = some c) (hsel : c.group ∈ m.selected)
    (hg : m.groups.group? c.group = some g) (hfree : m.consumerRows.isLocked c.id = false) :
    (m.after .pass).events.queue c.id = m.eventsFor (m.viewGroup g) c :=
  queue_runPass_of_selected h.settled h.coherent h.fresh h.isRegistered hsel hg
    ((Groups.mem_members_iff h.coherent hg).mpr ⟨hc, rfl⟩) hfree

theorem queue_after_pass_of_not_selected (h : Registry m) {c : Consumer}
    (hc : m.groups.consumer? c.id = some c) (hsel : c.group ∉ m.selected) :
    (m.after .pass).events.queue c.id = m.events.queue c.id := by
  refine queue_runPass_of_not_selected h.settled (.inr fun name hname d hd hid => hsel ?_)
  obtain ⟨hcons, hgroup⟩ := (Groups.mem_membersOf h.coherent).mp hd
  rw [hid, hc] at hcons
  rw [Option.some.inj hcons, hgroup]
  exact hname

/-- Every queue after a pass is what it was, or holds the events that lead a member of a selected
group to its target. -/
theorem queue_pass (h : Registry m) (id : String) :
    (m.runPass m.balancer).2.events.queue id = m.events.queue id ∨
      ∃ name g c, name ∈ m.selected ∧ m.groups.group? name = some g ∧ c ∈ g.members.values ∧
        c.id = id ∧
        (m.runPass m.balancer).2.events.queue id = m.eventsFor (m.viewGroup g) c := by
  by_cases hlocked : m.consumerRows.isLocked id = true
  · exact .inl (queue_runPass_of_not_selected h.settled (.inl hlocked))
  · by_cases hsel : ∃ name ∈ m.selected, ∃ c ∈ m.groups.membersOf name, c.id = id
    · obtain ⟨name, hname, c, hc, rfl⟩ := hsel
      obtain ⟨g, hg⟩ := exists_group_of_mem_selected h.settled hname
      rw [Groups.membersOf, hg] at hc
      exact .inr ⟨name, g, c, hname, hg, hc, rfl, queue_runPass_of_selected h.settled h.coherent
        h.fresh h.isRegistered hname hg hc (by simpa using hlocked)⟩
    · simp only [not_exists, not_and] at hsel
      exact .inl (queue_runPass_of_not_selected h.settled (.inr hsel))

theorem pass (h : Registry m) : Registry (m.runPass m.balancer).2 := by
  obtain ⟨events, he, -⟩ := runPass_spec h.settled
  have hqueue := h.queue_pass
  rw [he] at hqueue ⊢
  refine ⟨h.coherent, h.usable, h.tracked, h.wellFiled, rfl, fun hf => ?_, fun id hq => ?_,
    fun id => ?_⟩
  · cases hf
  · rcases hqueue id with hsame | ⟨name, g, c, -, hg, hc, rfl, -⟩
    · exact h.owned id (hsame ▸ hq)
    · exact ⟨c, ((Groups.mem_members_iff h.coherent hg).mp hc).1⟩
  · rcases hqueue id with hsame | ⟨name, g, c, -, -, -, -, hnew⟩
    · rw [hsame]
      exact (h.backlog id).mono (Nat.le_succ _)
    · rw [hnew]
      exact Backlog.changeEvents (Nat.succ_pos _) (le_refl _) _ _

/-! ## Departures -/

theorem letGo (h : Registry m) (key : String) : Registry (m.letGo .consumer key) := by
  rcases letGo_consumer h.coherent h.groupsUsable key with hsame | ⟨x, hdrop⟩
  · exact h.same hsame
  · exact h.drops hdrop

/-- What the steps of a departure keep is kept by a consumer that closes and by a scan for silent
consumers, however many of them leave. -/
theorem departure_induction {p : Master → Prop} {op : Operation} (hop : op.isDeparture = true)
    (same : ∀ m m', Registry m → SameConsumers m m' → p m → p m')
    (drop : ∀ x m m', Registry m → DropsConsumer x m m' → p m → p m')
    (h : Registry m) (hp : p m) : Registry (m.after op) ∧ p (m.after op) := by
  cases op with
  | consumerClose r =>
    rcases after_consumerClose h.coherent h.groupsUsable r with hsame | hdrop
    · rw [hsame]
      exact ⟨h, hp⟩
    · exact ⟨h.drops hdrop, drop _ m _ h hdrop hp⟩
  | expire c =>
    cases c with
    | consumer =>
      refine letGoAll_induction (p := fun m => Registry m ∧ p m) (fun m key _ hm => ?_) m _ ⟨h, hp⟩
      rcases letGo_consumer hm.1.coherent hm.1.groupsUsable key with hsame | ⟨x, hdrop⟩
      · exact ⟨hm.1.same hsame, same m _ hm.1 hsame hm.2⟩
      · exact ⟨hm.1.drops hdrop, drop x m _ hm.1 hdrop hm.2⟩
    | _ => cases hop
  | _ => cases hop

/-! ## Operations -/

/-- Every operation keeps the invariant. -/
theorem after (h : Registry m) (op : Operation) : Registry (m.after op) := by
  rcases op.cases with hop | ⟨r, rfl⟩ | ⟨r, rfl⟩ | hop | hop | rfl
  · exact h.same (sameConsumers_after hop m)
  · rcases after_consumerRegister m r with ⟨hr, he⟩ | ⟨-, he⟩
    · rw [he]
      exact h.enrol hr
    · rw [he]
      exact h
  · rcases after_consumerHeartbeat m r with ⟨-, hb⟩ | ⟨-, he⟩
    · exact h.beaten hb
    · rw [he]
      exact h
  · exact (departure_induction (p := fun _ => True) hop (fun _ _ _ _ _ => trivial)
      (fun _ _ _ _ _ _ => trivial) h trivial).1
  · obtain ⟨rows, he⟩ := after_of_isRowing hop m
    rw [he]
    exact ⟨h.coherent, h.usable, h.tracked, h.wellFiled, h.settled, h.fresh, h.owned, h.backlog⟩
  · exact h.pass

end Registry

/-- Every reachable master has it. -/
theorem registry_of_reachable {m : Master} (h : m.Reachable) : Registry m :=
  h.induction (fun _ _ _ hm => .create hm) fun _ op hm => hm.after op

end Master

end ClusterMaster
