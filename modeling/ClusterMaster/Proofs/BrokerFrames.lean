import ClusterMaster.Proofs.Passes

/-!
# What concerns brokers, and what does not

`SameBrokers m m'` : the two masters know the same of brokers, of what they are configured with and
of what they offer, and the same topic rows are held. Whatever producers and consumers do, whatever
passes decide, and whatever time passes, leads from a master to such a one (`sameBrokers_after`).
-/

namespace ClusterMaster

/-- The operations that change what is known of brokers, their configuration, or the rows that a
change of their offers takes. -/
def Operation.concernsBrokers : Operation → Bool
  | .brokerRegister _ | .brokerHeartbeat _ | .brokerClose _ | .expire .broker => true
  | .setIntent _ _ | .edit _ => true
  | .hold .topic _ | .giveBack .topic _ => true
  | _ => false

namespace Master

variable {m m' : Master} {c : NodeClass}

/-- The masters know the same of brokers and of their configuration, and the same topic rows are
held. -/
structure SameBrokers (m m' : Master) : Prop where
  store : m'.store = m.store
  brokers : m'.brokers = m.brokers
  runs : m'.runs = m.runs
  hosted : m'.topology.hosted = m.topology.hosted
  topicRows : m'.topicRows = m.topicRows

theorem DiffersIn.sameBrokers (h : DiffersIn c m m') (hc : c ≠ .broker) : SameBrokers m m' := by
  have htables := h.tables
  cases c with
  | producer =>
    obtain ⟨_, _, _, rfl⟩ := htables
    exact ⟨rfl, rfl, rfl, rfl, rfl⟩
  | consumer =>
    obtain ⟨_, _, _, _, _, rfl⟩ := htables
    exact ⟨rfl, rfl, rfl, rfl, rfl⟩
  | broker => exact absurd rfl hc

theorem sameBrokers_after {op : Operation} (hop : op.concernsBrokers = false) (m : Master) :
    SameBrokers m (m.after op) := by
  cases hclass : op.class? with
  | some c =>
    refine (differsIn_after hclass m).sameBrokers ?_
    rintro rfl
    cases op <;> cases hclass <;> cases hop
  | none =>
    cases op with
    | setIntent id intent => cases hop
    | edit e => cases hop
    | hold kind key =>
      cases kind with
      | topic => cases hop
      | _ => exact ⟨rfl, rfl, rfl, rfl, rfl⟩
    | giveBack kind key =>
      cases kind with
      | topic => cases hop
      | _ => exact ⟨rfl, rfl, rfl, rfl, rfl⟩
    | pass =>
      obtain ⟨events, lastPass, inFlight, firstPass, he⟩ := pass_touches m
      rw [he]
      exact ⟨rfl, rfl, rfl, rfl, rfl⟩
    | commit group key offset => exact ⟨rfl, rfl, rfl, rfl, rfl⟩
    | wait ms => exact ⟨rfl, rfl, rfl, rfl, rfl⟩
    | stepWait ms => exact ⟨rfl, rfl, rfl, rfl, rfl⟩
    | _ => cases hclass

/-- What tracking and releases of brokers keep is kept when silent brokers are let go. -/
theorem expireBrokers_induction {p : Master → Prop}
    (track : ∀ m liveness, p m → p { m with liveness })
    (release : ∀ m id, p m → p (m.releaseBroker id).2) (h : p m) : p (m.expire .broker).2 := by
  refine expire_induction (fun m _ => track m _) (fun m _ => track m _) (fun m key hm => ?_) h
  rcases releaseNode_broker_snd m key with hr | ⟨id, hr⟩
  · rw [hr]
    exact hm
  · rw [hr]
    exact release m id hm

end Master

end ClusterMaster
