import ClusterMaster.Proofs.Ownership

/-!
# What an acknowledgement takes out

A consumer applies the events it receives one after the other, and names in every heartbeat the
pass of the event it has applied last. Answers may be lost, heartbeats may be repeated, and
meanwhile the master does everything else it can do (`Session.Step`).

The two events of a pair are of one pass. When the acknowledgement of the first one is repeated
after the second one has been handed out, it takes out the second one as well, although the
consumer may never have received it (`Unseen.takes_partner`). There is no other way to lose an
event like that:

    the consumer may send r → (s.KeepsUnapplied r ↔ ¬s.TakesPartner r)      (keepsUnapplied_iff)

What carries the argument is that every event that was handed out leads the queue (`Leads`): it is
of an earlier pass, it is the head, or it is the partner of what is left.
-/

namespace ClusterMaster

/-! ## Events that were handed out -/

/-- How an event that was handed out stands to the queue it was in. -/
inductive Leads (d : Event) : List Event → Prop
  | past {q : List Event} (newer : ∀ e ∈ q, d.pass < e.pass) : Leads d q
  | head {es : List Event} : Leads d (d :: es)
  | partner {e : Event} (drop : d.kind = .disconnect) (take : e.kind = .connect)
    (pass : e.pass = d.pass) : Leads d [e]

namespace Leads

variable {d : Event} {q : List Event} {last n : Nat}

theorem nil (d : Event) : Leads d [] := .past fun _ he => absurd he List.not_mem_nil

theorem handedOut (hs : d.status = .processing) (h : Leads d q) : Leads d (handedOut q) := by
  cases h with
  | past newer =>
    refine .past fun e he => ?_
    obtain ⟨e', he', hpass, -⟩ := mem_handedOut he
    rw [hpass]
    exact newer e' he'
  | head =>
    rename_i es
    have hsame : ClusterMaster.handedOut (d :: es) = d :: es := by
      show { d with status := .processing } :: es = d :: es
      rw [← hs]
    rw [hsame]
    exact .head
  | partner drop take pass => exact .partner drop take pass

/-- Behind the head of a backlog there is its partner or nothing. -/
theorem tail (hb : Backlog last q) (h : Leads d q) : Leads d q.tail := by
  cases h with
  | past newer => exact .past fun e he => newer e (List.mem_of_mem_tail he)
  | head =>
    cases hb with
    | single pos le kind => exact nil d
    | pair pos le drop take pass todo => exact .partner drop take pass
  | partner drop take pass => exact nil d

theorem leftOver (hb : Backlog last q) (h : Leads d q) : Leads d (leftOver q n) := by
  unfold ClusterMaster.leftOver
  split
  · exact h.tail hb
  · exact h

end Leads

theorem handedOut_of_nextEvent {q : List Event} {d : Event} (h : nextEvent q = some d) :
    d.status = .processing ∧ ∃ es, handedOut q = d :: es := by
  cases q with
  | nil => cases h
  | cons e es =>
    unfold nextEvent at h
    simp only [] at h
    split at h
    · cases h
    · obtain rfl := Option.some.inj h
      exact ⟨rfl, es, rfl⟩

namespace Master

variable {m m' : Master} {x : String} {d : Event}

/-- The event has been handed out to a consumer at some time. -/
structure Sent (m : Master) (x : String) (d : Event) : Prop where
  status : d.status = .processing
  le : d.pass ≤ m.lastPass
  leads : Leads d (m.events.queue x)

/-- The event that an answer carries. -/
def carried : Except Fault Answer → Option Event
  | .ok (.pulse p) => p.event
  | _ => none

namespace Sent

theorem of_queue_eq (h : Sent m x d) (hlast : m'.lastPass = m.lastPass)
    (hq : m'.events.queue x = m.events.queue x) : Sent m' x d :=
  ⟨h.status, hlast ▸ h.le, hq ▸ h.leads⟩

theorem of_queue_nil (h : Sent m x d) (hlast : m'.lastPass = m.lastPass)
    (hq : m'.events.queue x = []) : Sent m' x d :=
  ⟨h.status, hlast ▸ h.le, hq ▸ Leads.nil d⟩

theorem drops {y : String} (h : Sent m x d) (hd : DropsConsumer y m m') : Sent m' x d := by
  have hqueue := hd.queue x
  split at hqueue
  · exact h.of_queue_nil hd.lastPass hqueue
  · exact h.of_queue_eq hd.lastPass hqueue

theorem beaten (h : Sent m x d) (hr : Registry m) {r : ConsumerHeartbeat} (hb : m.Beaten r m') :
    Sent m' x d := by
  refine ⟨h.status, hb.lastPass ▸ h.le, ?_⟩
  rw [hb.queue]
  split
  · exact (h.leads.leftOver (hr.backlog x)).handedOut h.status
  · exact h.leads

/-- What a pass queues is newer than everything that was handed out before. -/
theorem pass (h : Sent m x d) (hr : Registry m) : Sent (m.after .pass) x d := by
  obtain ⟨events, he⟩ := hr.after_pass
  have hlast : (m.after .pass).lastPass = m.lastPass + 1 := by rw [he]
  refine ⟨h.status, hlast ▸ h.le.trans (Nat.le_succ _), ?_⟩
  rcases hr.queue_pass x with hsame | ⟨name, g, c, -, -, -, -, hnew⟩
  · have hq : (m.after .pass).events.queue x = m.events.queue x := hsame
    rw [hq]
    exact h.leads
  · have hq : (m.after .pass).events.queue x = m.eventsFor (m.viewGroup g) c := hnew
    rw [hq]
    refine .past fun e he => ?_
    rw [pass_of_mem_changeEvents he]
    exact Nat.lt_succ_of_le h.le

/-- What was handed out stays so, whatever happens. -/
theorem after (h : Sent m x d) (hr : Registry m) (op : Operation) : Sent (m.after op) x d := by
  have hsame : ∀ m m', SameConsumers m m' → Sent m x d → Sent m' x d :=
    fun m m' hs h => h.of_queue_eq hs.lastPass (by rw [hs.events])
  rcases op.cases with hop | ⟨r, rfl⟩ | ⟨r, rfl⟩ | hop | hop | rfl
  · exact hsame m _ (sameConsumers_after hop m) h
  · rcases after_consumerRegister m r with ⟨-, he⟩ | ⟨-, he⟩
    · rw [he]
      have hqueue : (m.enrolConsumer r).events.queue x =
          if r.consumer = x then [] else m.events.queue x := queue_enrol
      split at hqueue
      · exact h.of_queue_nil rfl hqueue
      · exact h.of_queue_eq rfl hqueue
    · rw [he]
      exact h
  · rcases after_consumerHeartbeat m r with ⟨-, hb⟩ | ⟨-, he⟩
    · exact h.beaten hr hb
    · rw [he]
      exact h
  · exact (Registry.departure_induction (p := fun m => Sent m x d) hop
      (fun m m' _ hs h => hsame m m' hs h) (fun _ _ _ _ hd h => h.drops hd) hr h).2
  · obtain ⟨rows, he⟩ := after_of_isRowing hop m
    rw [he]
    exact h.of_queue_eq rfl rfl
  · exact h.pass hr

/-- The event in the answer to a heartbeat has been handed out. -/
theorem of_carried (hr : Registry m) {r : ConsumerHeartbeat}
    (hd : carried (m.perform (.consumerHeartbeat r)).1 = some d) :
    Sent (m.after (.consumerHeartbeat r)) r.consumer d := by
  rcases m.perform_consumerHeartbeat_cases r with ⟨-, hb, notAllocated, hans⟩ | ⟨e, -, he⟩
  · rw [hans] at hd
    obtain ⟨hs, es, hes⟩ := handedOut_of_nextEvent hd
    have hqueue : (m.after (.consumerHeartbeat r)).events.queue r.consumer = d :: es := by
      rw [hb.queue, if_pos rfl]
      exact hes
    have hbounds := ((hr.after (.consumerHeartbeat r)).backlog r.consumer).pass_bounds d
    rw [hqueue] at hbounds
    exact ⟨hs, (hbounds List.mem_cons_self).2, hqueue ▸ .head⟩
  · rw [he] at hd
    cases hd

end Sent

end Master

/-! ## Sessions -/

/-- A master and one of its consumers. -/
structure Session where
  master : Master
  /-- The events the consumer is to apply, the oldest one first, wherever they are on their way. -/
  inbox : List Event := []
  /-- The events the consumer has applied, the last one first. -/
  applied : List Event := []

namespace Session

open Master

/-- A heartbeat that the consumer sends now, or that it has sent before and that is repeated: it
names the pass of the event that was applied last at the time, if there was one. -/
def MaySend (s : Session) (x : String) (r : ConsumerHeartbeat) : Prop :=
  r.consumer = x ∧ (r.acknowledged = 0 ∨ ∃ d ∈ s.applied, d.pass = r.acknowledged)

def beat (s : Session) (r : ConsumerHeartbeat) : Session :=
  { s with
    master := s.master.after (.consumerHeartbeat r)
    inbox := s.inbox ++ (carried (s.master.perform (.consumerHeartbeat r)).1).toList }

/-- One step of a master and a consumer: a heartbeat, the loss of answers, an event that the
consumer applies, or anything else that the master does. -/
inductive Step (x : String) : Session → Session → Prop
  | beat {s : Session} {r : ConsumerHeartbeat} (h : s.MaySend x r) : Step x s (s.beat r)
  | lose {s : Session} {inbox : List Event} (h : inbox.Sublist s.inbox) :
    Step x s { s with inbox := inbox }
  | apply {s : Session} {e : Event} {es : List Event} (h : s.inbox = e :: es) :
    Step x s { s with inbox := es, applied := e :: s.applied }
  | other {s : Session} {op : Operation} (h : ∀ r, op = .consumerHeartbeat r → r.consumer ≠ x) :
    Step x s { s with master := s.master.after op }

/-- The sessions of a consumer that has not heard of the master yet, and what becomes of them. -/
inductive Reachable (x : String) : Session → Prop
  | start {m : Master} (h : m.Reachable) : Reachable x { master := m }
  | step {s s' : Session} (h : Reachable x s) (hs : Step x s s') : Reachable x s'

/-- Everything the consumer has received was handed out to it. -/
structure Ordered (s : Session) (x : String) : Prop where
  registry : Registry s.master
  sent : ∀ d, d ∈ s.inbox ∨ d ∈ s.applied → s.master.Sent x d

variable {s s' : Session} {x : String} {r : ConsumerHeartbeat}

theorem Ordered.step (h : s.Ordered x) (hs : Step x s s') : s'.Ordered x := by
  cases hs with
  | beat hr =>
    obtain ⟨rfl, -⟩ := hr
    refine ⟨h.registry.after _, fun d hd => ?_⟩
    rw [Session.beat, List.mem_append, Option.mem_toList, or_assoc] at hd
    rcases hd with hd | hd | hd
    · exact (h.sent d (.inl hd)).after h.registry _
    · exact .of_carried h.registry hd
    · exact (h.sent d (.inr hd)).after h.registry _
  | lose hsub =>
    exact ⟨h.registry, fun d hd => h.sent d (hd.imp_left fun hd => hsub.subset hd)⟩
  | apply he =>
    refine ⟨h.registry, fun d hd => h.sent d ?_⟩
    rw [he]
    rcases hd with hd | hd
    · exact .inl (List.mem_cons_of_mem _ hd)
    · rcases List.mem_cons.mp hd with rfl | hd
      · exact .inl List.mem_cons_self
      · exact .inr hd
  | other _ => exact ⟨h.registry.after _, fun d hd => (h.sent d hd).after h.registry _⟩

theorem Reachable.ordered (h : s.Reachable x) : s.Ordered x := by
  induction h with
  | start hm =>
    refine ⟨registry_of_reachable hm, fun d hd => ?_⟩
    rcases hd with hd | hd <;> cases hd
  | step _ hs ih => exact ih.step hs

/-! ## Acknowledgements -/

/-- The heartbeat takes no event out of the queue that the consumer has not applied, and does not
count one as applied either. -/
def KeepsUnapplied (s : Session) (r : ConsumerHeartbeat) : Prop :=
  ∀ e es, s.master.events.queue r.consumer = e :: es → e ∉ s.applied →
    ((s.beat r).master.events.queue r.consumer).length = (e :: es).length ∧
      (r.reported = none →
        (s.beat r).master.holdingOf r.consumer = s.master.holdingOf r.consumer)

/-- The heartbeat acknowledges the first event of a pair, and the second one has been handed out
but not applied. -/
def TakesPartner (s : Session) (r : ConsumerHeartbeat) : Prop :=
  s.master.checkConsumerHeartbeat r = .ok () ∧
    ∃ d ∈ s.applied, d.kind = .disconnect ∧ d.pass = r.acknowledged ∧
      ∃ e, s.master.events.queue r.consumer = [e] ∧ e.kind = .connect ∧ e.pass = d.pass ∧
        e.status = .processing ∧ e ∉ s.applied

/-- The second event of the pair is taken out and counted as applied. -/
theorem TakesPartner.folded (h : s.TakesPartner r) (hr : Registry s.master) :
    (s.beat r).master.events.queue r.consumer = [] ∧
      ∃ e, s.master.events.queue r.consumer = [e] ∧ e ∉ s.applied ∧ (r.reported = none →
        (s.beat r).master.holdingOf r.consumer = (s.master.holdingOf r.consumer).apply e) := by
  obtain ⟨hc, d, -, -, hack, e, hq, -, hpass, hs, hnew⟩ := h
  have hpos : 0 < e.pass := ((hr.backlog r.consumer).pass_bounds e (hq ▸ List.mem_cons_self)).1
  have htaken : taken (s.master.events.queue r.consumer) r.acknowledged = some e :=
    taken_eq_some_iff.mpr ⟨[], hq, by omega, hs, by omega⟩
  rcases after_consumerHeartbeat s.master r with ⟨-, hb⟩ | ⟨⟨f, hf⟩, -⟩
  · refine ⟨?_, e, hq, hnew, fun hrep => ?_⟩
    · rw [Session.beat, hb.queue, if_pos rfl, leftOver, htaken, hq]
      rfl
    · rw [Session.beat, hb.holding hrep, htaken]
      rfl
  · rw [hc] at hf
    cases hf

/-- An acknowledgement takes out nothing that the consumer has not applied, but for the second
event of a pair when the first one is acknowledged again. -/
theorem keepsUnapplied_iff (h : s.Reachable x) (hr : s.MaySend x r) :
    s.KeepsUnapplied r ↔ ¬s.TakesPartner r := by
  obtain ⟨hreg, hsent⟩ := h.ordered
  obtain ⟨rfl, hack⟩ := hr
  constructor
  · intro hkeep htakes
    obtain ⟨hempty, e, hq, hnew, -⟩ := htakes.folded hreg
    obtain ⟨hlen, -⟩ := hkeep e [] hq hnew
    rw [hempty] at hlen
    cases hlen
  · intro hno e es hq hnew
    rcases after_consumerHeartbeat s.master r with ⟨hc, hb⟩ | ⟨-, he⟩
    · have hnone : taken (s.master.events.queue r.consumer) r.acknowledged = none := by
        by_contra hsome
        obtain ⟨e', htaken⟩ := Option.ne_none_iff_exists'.mp hsome
        obtain ⟨es', hes, hzero, hs, hle⟩ := taken_eq_some_iff.mp htaken
        rw [hq] at hes
        obtain ⟨rfl, rfl⟩ := List.cons.inj hes
        obtain ⟨d, hd, hdpass⟩ := hack.resolve_left hzero
        have hleads := (hsent d (.inr hd)).leads
        rw [hq] at hleads
        cases hleads with
        | past newer =>
          have hlt := newer e List.mem_cons_self
          omega
        | head => exact hnew hd
        | partner drop take pass =>
          exact hno ⟨hc, d, hd, drop, hdpass, e, hq, take, pass, hs, hnew⟩
      refine ⟨?_, fun hrep => ?_⟩
      · rw [Session.beat, hb.queue, if_pos rfl, length_handedOut, leftOver, hnone, hq]
      · rw [Session.beat, hb.holding hrep, hnone]
        rfl
    · rw [Session.beat, he, hq]
      exact ⟨rfl, fun _ => rfl⟩

end Session

/-! ## A pair and a repeated heartbeat

A consumer comes back with a partition of a broker that is gone. It is to drop that partition and
to take up the others. It does the first and says so twice, because the first answer was lost.
-/

namespace Unseen

open Master Moving SmallCluster

def gone : Broker := { id := 2, host := "h", port := 1 }

def stale : Subscription := first.subscription { broker := gone, topic := "t", number := 0 }

def returning : ConsumerRegister := { joining "a" "g" with subscribed := [stale] }

def pulse (acknowledged : Nat) : ConsumerHeartbeat :=
  { consumer := "a", group := "g", acknowledged := acknowledged }

def drop : Event :=
  { pass := 1, kind := .disconnect, subscriptions := [stale], status := .processing }

def take : Event :=
  { pass := 1
    kind := .connect
    subscriptions := [first.subscription (partition 0), first.subscription (partition 1)]
    status := .processing }

/-- The pair is queued. -/
def queued (runs : BrokerRuns) : Master :=
  { served runs with
    groups.groups := Table.empty.insert "g"
      { Group.foundedBy first with members := Table.empty.insert "a" first, notAllocated := false }
    groups.groupOf := Table.empty.insert "a" "g"
    liveness := (served runs).liveness.register .consumer "a@g" 0
    topology := (served runs).topology.subscribe "g" (KeySet.ofList ["t"])
    holdings := Table.empty.insert "a" (Holding.ofSubscriptions [stale])
    events.queues := Table.empty.insert "a"
      [{ drop with status := .todo }, { take with status := .todo }]
    lastPass := 1
    firstPass := false }

/-- The first event has been handed out. -/
def dropping (runs : BrokerRuns) : Master :=
  { queued runs with
    events.queues := Table.empty.insert "a" [drop, { take with status := .todo }] }

/-- The first event has been acknowledged, and the second one has been handed out. -/
def taking (runs : BrokerRuns) : Master :=
  { queued runs with
    events.queues := Table.empty.insert "a" [take]
    holdings := Table.empty.insert "a" Table.empty }

theorem run_returning (runs : BrokerRuns) :
    (served runs).run [.consumerRegister returning, .pass] = queued runs := by cbv

theorem perform_queued (runs : BrokerRuns) : (queued runs).perform (.consumerHeartbeat (pulse 0)) =
    (.ok (.pulse { notAllocated := false, event := some drop }), dropping runs) := rfl

theorem perform_dropping (runs : BrokerRuns) :
    (dropping runs).perform (.consumerHeartbeat (pulse 1)) =
      (.ok (.pulse { notAllocated := false, event := some take }), taking runs) := rfl

theorem beat_queued (runs : BrokerRuns) : ({ master := queued runs } : Session).beat (pulse 0) =
    { master := dropping runs, inbox := [drop] } := by
  unfold Session.beat Master.after
  rw [perform_queued]
  rfl

theorem beat_dropping (runs : BrokerRuns) :
    ({ master := dropping runs, applied := [drop] } : Session).beat (pulse 1) =
      { master := taking runs, inbox := [take], applied := [drop] } := by
  unfold Session.beat Master.after
  rw [perform_dropping]
  rfl

/-- The consumer has applied the first event, and the answer with the second one is lost. -/
def lost (runs : BrokerRuns) : Session := { master := taking runs, applied := [drop] }

theorem reachable_lost : ∃ runs, (lost runs).Reachable "a" := by
  obtain ⟨runs, hserved⟩ := after_serving
  have hmaster : (queued runs).Reachable := by
    rw [← run_returning, ← hserved]
    exact reachable_run rfl [serving, .consumerRegister returning, .pass]
  have hqueued : Session.Reachable "a" { master := queued runs } := .start hmaster
  have hsent : Session.Reachable "a" { master := dropping runs, inbox := [drop] } :=
    beat_queued runs ▸ hqueued.step (.beat ⟨rfl, .inl rfl⟩)
  have happlied : Session.Reachable "a" { master := dropping runs, applied := [drop] } :=
    hsent.step (.apply rfl)
  have htaking : Session.Reachable "a"
      { master := taking runs, inbox := [take], applied := [drop] } :=
    beat_dropping runs ▸ happlied.step (.beat ⟨rfl, .inr ⟨drop, List.mem_cons_self, rfl⟩⟩)
  exact ⟨runs, htaking.step (.lose (List.nil_sublist _))⟩

theorem takes_partner (runs : BrokerRuns) : (lost runs).TakesPartner (pulse 1) := by
  have hnew : take ∉ [drop] := by decide
  exact ⟨rfl, drop, List.mem_cons_self, rfl, rfl, take, rfl, rfl, rfl, rfl, hnew⟩

/-- The repeated heartbeat takes out an event that the consumer has never seen. -/
theorem not_keepsUnapplied : ∃ s : Session, s.Reachable "a" ∧ s.MaySend "a" (pulse 1) ∧
    ¬s.KeepsUnapplied (pulse 1) := by
  obtain ⟨runs, h⟩ := reachable_lost
  have hsend : (lost runs).MaySend "a" (pulse 1) := ⟨rfl, .inr ⟨drop, List.mem_cons_self, rfl⟩⟩
  refine ⟨lost runs, h, hsend, fun hkeep => ?_⟩
  exact (Session.keepsUnapplied_iff h hsend).mp hkeep (takes_partner runs)

end Unseen

end ClusterMaster
