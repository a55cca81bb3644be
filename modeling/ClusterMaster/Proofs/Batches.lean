import ClusterMaster.Proofs.Rounds
import ClusterMaster.Proofs.SmallCluster

/-!
# The events of one pass at a time

Nothing in the queues bounds them. But a pass queues events only for members of groups it has
selected, whose queues are empty by then, and at most a pair for each; so a queue holds the
remainder of what one pass has queued (`Backlog`). Over a run the passes queue batches for a
consumer, and everything its queue ever holds comes from them:

    two events of a queue are of one pass, and three there never are                  (SinglePass)
    the queue after an operation is what is left of it and what has been enqueued (queue_after_eq)
    an event of a later batch is of a later pass                               (pairwise_batches)
    whatever is queued has been enqueued                                       (exists_mem_batches)
-/

namespace ClusterMaster

/-! ## One queue -/

/-- What a queue may hold once a pass with this number has run: events of one pass, a disconnect
with the connect that waits behind it, or one event that is not half of a pair still to come. -/
structure SinglePass (last : Nat) (q : List Event) : Prop where
  short : q.length ≤ 2
  bounded : ∀ e ∈ q, e.pass ≤ last
  same : ∀ d ∈ q, ∀ e ∈ q, d.pass = e.pass
  pair : ∀ d e, q = [d, e] → d.kind = .disconnect ∧ e.kind = .connect ∧ e.status = .todo
  single : ∀ e, q = [e] → e.kind = .onlyConnect ∨ e.kind = .onlyDisconnect ∨ e.kind = .connect

theorem Backlog.singlePass {last : Nat} {q : List Event} (h : Backlog last q) :
    SinglePass last q := by
  have hbounds := h.pass_bounds
  refine ⟨?_, fun e he => (hbounds e he).2, ?_, ?_, ?_⟩
  · cases h <;> simp
  · cases h with
    | nil => simp
    | single _ _ _ => simp
    | pair _ _ _ _ hpass _ => simp [hpass]
  · cases h with
    | nil => simp
    | single _ _ _ => simp
    | pair _ _ hdrop htake _ htodo =>
      intro d e heq
      simp only [List.cons.injEq, and_true] at heq
      obtain ⟨rfl, rfl⟩ := heq
      exact ⟨hdrop, htake, htodo⟩
  · cases h with
    | nil => simp
    | @single e _ _ hkind =>
      intro e' heq
      simp only [List.cons.injEq, and_true] at heq
      subst heq
      cases hk : e.kind with
      | disconnect => exact absurd hk hkind
      | _ => simp
    | pair _ _ _ _ _ _ => simp

/-- The same event, perhaps handed out meanwhile. -/
structure SameEvent (d e : Event) : Prop where
  pass : d.pass = e.pass
  kind : d.kind = e.kind
  subscriptions : d.subscriptions = e.subscriptions

theorem SameEvent.refl (e : Event) : SameEvent e e := ⟨rfl, rfl, rfl⟩

theorem SameEvent.trans {d e f : Event} (h : SameEvent d e) (h' : SameEvent e f) : SameEvent d f :=
  ⟨h.pass.trans h'.pass, h.kind.trans h'.kind, h.subscriptions.trans h'.subscriptions⟩

/-- What is left of a queue: events may have gone, and the head may have been handed out. -/
def LeftOf (q rest : List Event) : Prop := ∀ e ∈ rest, ∃ d ∈ q, SameEvent d e

namespace LeftOf

variable {q rest rest' : List Event}

theorem of_suffix (h : rest <:+ q) : LeftOf q rest := fun e he => ⟨e, h.subset he, .refl e⟩

theorem trans (h : LeftOf q rest) (h' : LeftOf rest rest') : LeftOf q rest' := by
  intro e he
  obtain ⟨d, hd, hde⟩ := h' e he
  obtain ⟨c, hc, hcd⟩ := h d hd
  exact ⟨c, hc, hcd.trans hde⟩

theorem handedOut (q : List Event) : LeftOf q (handedOut q) := by
  intro e he
  obtain ⟨d, hd, hpass, hkind, hsubs⟩ := mem_handedOut he
  exact ⟨d, hd, hpass.symm, hkind.symm, hsubs.symm⟩

end LeftOf

namespace Master

variable {m : Master} {op : Operation} {id : String}

/-! ## What operations enqueue -/

/-- What an operation enqueues for a consumer: the shards of a pass push events behind what the
beginning of the pass has left of the queue, and nothing else enqueues any. -/
def enqueued (m : Master) (op : Operation) (id : String) : List Event :=
  match op with
  | .pass => ((m.after .pass).events.queue id).drop (m.beginPass.2.events.queue id).length
  | _ => []

theorem enqueued_of_ne (hop : op ≠ .pass) (m : Master) (id : String) : m.enqueued op id = [] := by
  cases op with
  | pass => exact absurd rfl hop
  | _ => rfl

/-- The beginning of a pass drops a queue or leaves it as it is. -/
theorem queue_begun_suffix (hin : m.inFlight = 0) (id : String) :
    m.beginPass.2.events.queue id <:+ m.events.queue id := by
  obtain ⟨events, he, -, -, hfirst, hlater⟩ := beginPass_spec hin
  rw [he]
  show events.queue id <:+ m.events.queue id
  cases hf : m.firstPass with
  | true =>
    rw [(hfirst hf).2]
  | false =>
    rw [(hlater hf).2]
    split
    · exact List.nil_suffix
    · exact List.suffix_refl _

/-- A pass pushes what its shards have worked out, behind what is left. -/
theorem queue_after_pass_eq (hin : m.inFlight = 0) (id : String) : (m.after .pass).events.queue id =
      m.beginPass.2.events.queue id ++ m.enqueued .pass id ∧
    ∀ e ∈ m.enqueued .pass id, ∃ w ∈ m.passWork m.balancer m.beginPass.1 m.beginPass.1.shards,
      e ∈ w.2 := by
  obtain ⟨events, he, hq⟩ := runPass_spec hin
  have hafter : (m.after .pass).events.queue id = events.queue id := by
    show (m.runPass m.balancer).2.events.queue id = _
    rw [he]
  have hpushed : m.enqueued .pass id = if m.letsThrough id then
      ((m.passWork m.balancer m.beginPass.1 m.beginPass.1.shards).filter
        fun w => w.1 == id).flatMap Prod.snd else [] := by
    show ((m.after .pass).events.queue id).drop _ = _
    rw [hafter, hq, List.drop_left]
  refine ⟨by rw [hafter, hq, hpushed], fun e hmem => ?_⟩
  rw [hpushed] at hmem
  split at hmem
  · obtain ⟨w, hw, hew⟩ := List.mem_flatMap.mp hmem
    exact ⟨w, List.mem_of_mem_filter hw, hew⟩
  · cases hmem

/-- What a pass enqueues carries its number. -/
theorem pass_of_mem_enqueued (hr : Registry m) {e : Event} (he : e ∈ m.enqueued op id) :
    op = .pass ∧ e.pass = m.lastPass + 1 := by
  by_cases hop : op = .pass
  · subst hop
    refine ⟨rfl, ?_⟩
    obtain ⟨w, hw, hew⟩ := (queue_after_pass_eq hr.settled id).2 e he
    obtain ⟨events, -, hpass, -⟩ := beginPass_spec hr.settled
    obtain ⟨names, -, hw⟩ := List.mem_flatMap.mp hw
    obtain ⟨g, -, hw⟩ := List.mem_flatMap.mp hw
    obtain ⟨c, -, rfl⟩ := List.mem_map.mp hw
    exact (pass_of_mem_changeEvents hew).trans hpass
  · rw [enqueued_of_ne hop] at he
    cases he

/-- A departure leaves a queue as it is or takes all of it. -/
theorem queue_departure (hr : Registry m) (hop : op.isDeparture = true) (id : String) :
    LeftOf (m.events.queue id) ((m.after op).events.queue id) := by
  refine (Registry.departure_induction
    (p := fun m' => LeftOf (m.events.queue id) (m'.events.queue id)) hop
    (fun m₁ m₂ _ hs hp => ?_) (fun x m₁ m₂ _ hd hp => ?_) hr
    (.of_suffix (List.suffix_refl _))).2
  · rw [hs.events]
    exact hp
  · rw [hd.queue]
    split
    · exact .of_suffix List.nil_suffix
    · exact hp

/-- The queue of a consumer after an operation is what is left of it, and what the operation has
enqueued. -/
theorem queue_after_eq (hr : Registry m) (op : Operation) (id : String) :
    ∃ rest, LeftOf (m.events.queue id) rest ∧
      (m.after op).events.queue id = rest ++ m.enqueued op id := by
  by_cases hop : op = .pass
  · subst hop
    exact ⟨_, .of_suffix (queue_begun_suffix hr.settled id), (queue_after_pass_eq hr.settled id).1⟩
  · rw [enqueued_of_ne hop]
    refine ⟨(m.after op).events.queue id, ?_, (List.append_nil _).symm⟩
    rcases op.cases with hno | ⟨r, rfl⟩ | ⟨r, rfl⟩ | hgo | hrow | hpass
    · rw [(sameConsumers_after hno m).events]
      exact .of_suffix (List.suffix_refl _)
    · rcases after_consumerRegister m r with ⟨-, he⟩ | ⟨-, he⟩
      · rw [he, queue_enrol]
        split
        · exact .of_suffix List.nil_suffix
        · exact .of_suffix (List.suffix_refl _)
      · rw [he]
        exact .of_suffix (List.suffix_refl _)
    · rcases after_consumerHeartbeat m r with ⟨-, hb⟩ | ⟨-, he⟩
      · rw [hb.queue]
        split
        · exact (LeftOf.of_suffix (leftOver_suffix _ _)).trans (.handedOut _)
        · exact .of_suffix (List.suffix_refl _)
      · rw [he]
        exact .of_suffix (List.suffix_refl _)
    · exact queue_departure hr hgo id
    · obtain ⟨rows, he⟩ := after_of_isRowing hrow m
      rw [he]
      exact .of_suffix (List.suffix_refl _)
    · exact absurd hpass hop

/-! ## Batches of a run -/

/-- What each operation of a run enqueues for a consumer. -/
def batches (m : Master) (id : String) : List Operation → List (List Event)
  | [] => []
  | op :: ops => m.enqueued op id :: (m.after op).batches id ops

/-- The number of the last pass goes up with every pass, and with nothing else. -/
theorem lastPass_after (hr : Registry m) (op : Operation) :
    (m.after op).lastPass = if op = .pass then m.lastPass + 1 else m.lastPass := by
  split
  · rename_i hop
    obtain ⟨events, he⟩ := hr.after_pass
    rw [hop, he]
  · rename_i hop
    exact (sameRounds_after hop m).lastPass

/-- What is still to be enqueued is of passes to come. -/
theorem lastPass_lt_of_mem_batches (hr : Registry m) (ops : List Operation) {b : List Event}
    (hb : b ∈ m.batches id ops) {e : Event} (he : e ∈ b) : m.lastPass < e.pass := by
  induction ops generalizing m with
  | nil => cases hb
  | cons op ops ih =>
    rcases List.mem_cons.mp hb with rfl | hb
    · have hpass := (pass_of_mem_enqueued hr he).2
      omega
    · have hlt := ih (hr.after op) hb
      rw [lastPass_after hr] at hlt
      split at hlt <;> omega

/-- From one batch to the next the numbers of their passes go up. -/
theorem pairwise_batches (hr : Registry m) (ops : List Operation) (id : String) :
    (m.batches id ops).Pairwise fun old new => ∀ d ∈ old, ∀ e ∈ new, d.pass < e.pass := by
  induction ops generalizing m with
  | nil => exact .nil
  | cons op ops ih =>
    refine .cons (fun b hb d hd e he => ?_) (ih (hr.after op))
    obtain ⟨rfl, hpass⟩ := pass_of_mem_enqueued hr hd
    have hlt := lastPass_lt_of_mem_batches (hr.after .pass) ops hb he
    rw [lastPass_after hr, if_pos rfl] at hlt
    omega

/-- A batch is of one pass. -/
theorem pass_eq_of_mem_batches (hr : Registry m) (ops : List Operation) {b : List Event}
    (hb : b ∈ m.batches id ops) {d e : Event} (hd : d ∈ b) (he : e ∈ b) : d.pass = e.pass := by
  induction ops generalizing m with
  | nil => cases hb
  | cons op ops ih =>
    rcases List.mem_cons.mp hb with rfl | hb
    · rw [(pass_of_mem_enqueued hr hd).2, (pass_of_mem_enqueued hr he).2]
    · exact ih (hr.after op) hb

/-- Whatever a queue holds after a run was there before, or has been enqueued. -/
theorem exists_mem_batches (hr : Registry m) (ops : List Operation) {e : Event}
    (he : e ∈ (m.run ops).events.queue id) : (∃ d ∈ m.events.queue id, SameEvent d e) ∨
      ∃ b ∈ m.batches id ops, ∃ d ∈ b, SameEvent d e := by
  induction ops generalizing m with
  | nil => exact .inl ⟨e, he, .refl e⟩
  | cons op ops ih =>
    rcases ih (hr.after op) he with ⟨d, hd, hde⟩ | ⟨b, hb, hd⟩
    · obtain ⟨rest, hleft, hq⟩ := queue_after_eq hr op id
      rw [hq] at hd
      rcases List.mem_append.mp hd with hd | hd
      · obtain ⟨c, hc, hcd⟩ := hleft d hd
        exact .inl ⟨c, hc, hcd.trans hde⟩
      · exact .inr ⟨_, List.mem_cons_self, d, hd, hde⟩
    · exact .inr ⟨b, List.mem_cons_of_mem _ hb, hd⟩

/-- At any time a queue holds events of one pass, in the shape that pass has given them, and over a
run the passes that enqueue something for a consumer follow each other in number. -/
theorem one_pass_at_a_time {settings : Settings} {store : Store} {fresh : Master}
    (hf : create settings store = .ok fresh) (ops : List Operation) (id : String) :
    SinglePass (fresh.run ops).lastPass ((fresh.run ops).events.queue id) ∧
    (∀ e ∈ (fresh.run ops).events.queue id,
      ∃ b ∈ fresh.batches id ops, ∃ d ∈ b, SameEvent d e) ∧
    (∀ b ∈ fresh.batches id ops, ∀ d ∈ b, ∀ e ∈ b, d.pass = e.pass) ∧
    (fresh.batches id ops).Pairwise fun old new => ∀ d ∈ old, ∀ e ∈ new, d.pass < e.pass := by
  have hfresh : Registry fresh := .create hf
  have hrun : Registry (fresh.run ops) := registry_of_reachable ⟨settings, store, fresh, ops, hf, rfl⟩
  refine ⟨(hrun.backlog id).singlePass, fun e he => ?_,
    fun b hb d hd e he => pass_eq_of_mem_batches hfresh ops hb hd he, pairwise_batches hfresh ops id⟩
  rcases exists_mem_batches hfresh ops he with ⟨d, hd, -⟩ | hbatch
  · obtain rfl := eq_of_create hf
    cases hd
  · exact hbatch

end Master

/-! ## A consumer that starts over

A consumer holds a partition of a broker that is gone. A pass asks it to drop that and to take up
another one; it is handed the first event, registers anew, and is asked again.
-/

namespace Restarted

open Master SmallCluster

def gone : Partition := { broker := { id := 2, host := "h", port := 1 }, topic := "t", number := 0 }

/-- The consumer says what it holds. -/
def returning : Operation :=
  .consumerRegister
    { joining "a" "g" with subscribed := [{ consumer := "a", group := "g", partition := gone }] }

def history : List Operation :=
  [serving, returning, .pass, .consumerHeartbeat { consumer := "a", group := "g" }, returning, .pass]

/-- The queue holds the pair of the second pass only. -/
theorem queue_history : Master.create {} (store 1) = .ok (fresh 1) ∧
    ((fresh 1).batches "a" history).map (List.map Event.pass) = [[], [], [1, 1], [], [], [2, 2]] ∧
    (((fresh 1).run history).events.queue "a").map Event.kind = [.disconnect, .connect] ∧
    SinglePass ((fresh 1).run history).lastPass (((fresh 1).run history).events.queue "a") :=
  have hfresh : Master.create {} (store 1) = .ok (fresh 1) := create_fresh rfl
  ⟨hfresh, by cbv, by cbv, (one_pass_at_a_time hfresh history "a").1⟩

end Restarted

end ClusterMaster
