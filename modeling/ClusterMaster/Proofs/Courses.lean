import ClusterMaster.Proofs.Accounts
import ClusterMaster.Proofs.Lifecycles

/-!
# The courses of registered brokers

A master keeps a lifecycle for every registered broker. A registration begins it, with a report; a
heartbeat is word of whether the broker is ready, a report, perhaps another intent, and an advance
(`pulse_eq_run`). Nothing else touches it: whatever happens to a master, the lifecycles it keeps
are those that such calls have led to, and so none of them shows what the operator does not want.

    a lifecycle of a reachable master has a course                             (Reachable.courses)
    it shows no more than its intent and its step allow                    (showsSafely_lifecycle)
-/

namespace ClusterMaster

/-- The lifecycle has begun at some time, and calls have made it what it is. -/
def Lifecycle.HasCourse (l : Lifecycle) : Prop :=
  ∃ c fastStartEnabled now calls, l = (begin c fastStartEnabled now).run calls

theorem Lifecycle.HasCourse.run {l : Lifecycle} (h : l.HasCourse) (calls : List Call) :
    (l.run calls).HasCourse := by
  obtain ⟨c, fastStartEnabled, now, earlier, rfl⟩ := h
  exact ⟨c, fastStartEnabled, now, earlier ++ calls, List.foldl_append.symm⟩

namespace Master

variable {m m' : Master} {id : BrokerId} {l : Lifecycle}

/-- Every lifecycle the master keeps has a course. -/
def Courses (m : Master) : Prop := ∀ id l, m.runs.lifecycle? id = some l → l.HasCourse

theorem begunLifecycle_eq_run (m : Master) (r : BrokerRegister) (c : BrokerConfig) :
    m.begunLifecycle r c = (Lifecycle.begin c m.settings.fastStart m.stepClock).run
      [.report c r.revision r.checksum] := rfl

theorem pulse_eq_run (m : Master) (r : BrokerHeartbeat) (c : BrokerConfig) (l : Lifecycle) :
    m.pulse r c l = l.run [.online r.online, .report c r.revision r.checksum,
      .setIntent c.intent m.stepClock, .advance m.stepClock m.settings] := rfl

namespace Courses

theorem create {settings : Settings} {store : Store} (h : Master.create settings store = .ok m) :
    Courses m := by
  obtain rfl := eq_of_create h
  intro id l hl
  cases hl

/-- Lifecycles that are kept or forgotten keep their courses. -/
theorem of_kept (h : Courses m) (hkept : ∀ id l, m'.runs.lifecycle? id = some l →
    m.runs.lifecycle? id = some l) : Courses m' :=
  fun id l hl => h id l (hkept id l hl)

theorem register (h : Courses m) (hl : l.HasCourse) (hruns : m'.runs = m.runs.register l) :
    Courses m' := by
  intro id l' hl'
  rw [hruns] at hl'
  change (m.runs.lifecycles.insert l.broker l).get? id = some l' at hl'
  rw [Table.get?_insert] at hl'
  split at hl'
  · obtain rfl := Option.some.inj hl'
    exact hl
  · exact h id l' hl'

theorem releaseBroker (h : Courses m) (id : BrokerId) : Courses (m.releaseBroker id).2 := by
  have hr := released_releaseBroker m id
  refine h.of_kept fun j l hl => ?_
  by_cases hj : id = j
  · subst hj
    by_cases hok : (m.releaseBroker id).1 = .ok ()
    · rw [(hr.gone hok).2.1] at hl
      cases hl
    · unfold BrokerRuns.lifecycle? at hl ⊢
      rw [(hr.failed hok).2] at hl
      exact hl
  · rw [(hr.others j hj).lifecycle?] at hl
    exact hl

theorem pushOffer (h : Courses m) (id : BrokerId) : Courses (m.pushOffer id).2 := by
  obtain ⟨hosted, offers, he⟩ := pushOffer_frame m id
  rw [he]
  exact h.of_kept fun _ _ hl => hl

theorem brokerRegister (h : Courses m) (r : BrokerRegister) : Courses (m.brokerRegister r).2 := by
  unfold Master.brokerRegister
  split
  · exact h
  · rename_i c _
    have hbegun : (m.begunLifecycle r c).HasCourse := ⟨c, _, _, _, begunLifecycle_eq_run m r c⟩
    have henrolled : Courses (m.enrolBroker r c) := h.register hbegun rfl
    exact henrolled.pushOffer r.broker

theorem brokerHeartbeat (h : Courses m) (r : BrokerHeartbeat) :
    Courses (m.brokerHeartbeat r).2 := by
  refine allow_snd h ?_
  have hear : Courses (m.hear .broker (brokerKey r.broker)) := h
  simp only []
  split
  · exact hear.releaseBroker r.broker
  · rename_i c _
    split
    · exact hear.releaseBroker r.broker
    · split
      · exact h
      · rename_i l hl
        have hpulse : (m.pulse r c l).HasCourse := by
          rw [pulse_eq_run]
          exact (h r.broker l hl).run _
        refine pushOffer ?_ r.broker
        exact h.register hpulse rfl

/-- Every operation keeps the courses. -/
theorem after (h : Courses m) (op : Operation) : Courses (m.after op) := by
  by_cases hop : op.concernsBrokers = false
  · have hs := sameBrokers_after hop m
    refine h.of_kept fun id l hl => ?_
    rw [hs.runs] at hl
    exact hl
  · cases op with
    | brokerRegister r => exact h.brokerRegister r
    | brokerHeartbeat r => exact h.brokerHeartbeat r
    | brokerClose id => exact allow_snd h (h.releaseBroker id)
    | setIntent id intent =>
      show Courses (m.setBrokerIntent id intent).2
      rcases setBrokerIntent_cases m id intent with ⟨store, -, he⟩ | he
      · rw [he]
        exact h
      · rw [he]
        exact h
    | edit e =>
      show Courses (m.editStore e).2
      rcases editStore_cases m e with ⟨store, -, he⟩ | ⟨fault, he⟩
      · rw [he]
        exact h
      · rw [he]
        exact h
    | expire c =>
      cases c with
      | broker =>
        exact expireBrokers_induction (p := Courses) (fun m _ hm => hm)
          (fun m id hm => hm.releaseBroker id) h
      | _ => exact absurd rfl hop
    | hold kind key => cases kind <;> exact h
    | giveBack kind key => cases kind <;> exact h
    | _ => exact absurd rfl hop

end Courses

/-- Whatever has happened to a master, registrations and heartbeats have made its lifecycles. -/
theorem Reachable.courses (h : m.Reachable) : Courses m :=
  h.induction (fun _ _ _ hm => .create hm) fun _ op hm => hm.after op

/-- No broker shows what the operator does not want. -/
theorem showsSafely_lifecycle (h : m.Reachable) (hl : m.runs.lifecycle? id = some l) :
    l.ShowsSafely := by
  obtain ⟨c, fastStartEnabled, now, calls, rfl⟩ := h.courses id l hl
  exact ((Lifecycle.decent_begin c fastStartEnabled now).run calls).showsSafely

end Master

end ClusterMaster
