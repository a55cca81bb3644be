import ClusterMaster.Proofs.Footprints
import ClusterMaster.Proofs.Naming

/-!
# What concerns consumers, and what does not

`SameConsumers m m'` : the two masters know the same of consumers, of their events and of what
they hold, have begun the same passes, and `m'` tracks every consumer that `m` tracks. Whatever
producers, brokers and operators do, and whatever time passes, leads from a master to such a one
(`sameConsumers_after`). A release of brokers or producers, or a push that stops midway, is no
exception.
-/

namespace ClusterMaster

/-- The calls, scans and passes that concern consumers, and the calls that hold their rows. -/
def Operation.concernsConsumers : Operation → Bool
  | .consumerRegister _ | .consumerHeartbeat _ | .consumerClose _ | .expire .consumer | .pass => true
  | .hold .consumer _ | .giveBack .consumer _ => true
  | _ => false

/-- What lets consumers go. -/
def Operation.isDeparture : Operation → Bool
  | .consumerClose _ | .expire .consumer => true
  | _ => false

/-- What holds or gives back the row of a consumer. -/
def Operation.isRowing : Operation → Bool
  | .hold .consumer _ | .giveBack .consumer _ => true
  | _ => false

theorem Operation.cases (op : Operation) : op.concernsConsumers = false ∨
    (∃ r, op = .consumerRegister r) ∨ (∃ r, op = .consumerHeartbeat r) ∨ op.isDeparture = true ∨
      op.isRowing = true ∨ op = .pass := by
  cases op with
  | consumerRegister r => exact .inr (.inl ⟨r, rfl⟩)
  | consumerHeartbeat r => exact .inr (.inr (.inl ⟨r, rfl⟩))
  | consumerClose r => exact .inr (.inr (.inr (.inl rfl)))
  | expire c =>
    cases c with
    | consumer => exact .inr (.inr (.inr (.inl rfl)))
    | _ => exact .inl rfl
  | hold kind key =>
    cases kind with
    | consumer => exact .inr (.inr (.inr (.inr (.inl rfl))))
    | _ => exact .inl rfl
  | giveBack kind key =>
    cases kind with
    | consumer => exact .inr (.inr (.inr (.inr (.inl rfl))))
    | _ => exact .inl rfl
  | pass => exact .inr (.inr (.inr (.inr (.inr rfl))))
  | _ => exact .inl rfl

/-! ## Checks -/

theorem bind_eq_ok_iff {α : Type} {x : Except Fault Unit} {f : Unit → Except Fault α} {a : α} :
    (x >>= f) = .ok a ↔ x = .ok () ∧ f () = .ok a := by
  cases x with
  | error e =>
    constructor
    · intro h
      cases h
    · rintro ⟨h, -⟩
      cases h
  | ok u =>
    constructor
    · exact fun h => ⟨rfl, h⟩
    · exact fun h => h.2

namespace Master

theorem eq_of_create {settings : Settings} {store : Store} {m : Master}
    (h : create settings store = .ok m) : m = { settings, store } := by
  unfold create at h
  split at h
  · cases h
  · exact (Except.ok.inj h).symm

/-! ## Frames -/

/-- The master would take a heartbeat of the consumer as one of the group. -/
def isTracked (m : Master) (id group : String) : Bool :=
  m.liveness.isRegistered .consumer (livenessKey id group)

structure SameConsumers (m m' : Master) : Prop where
  settings : m'.settings = m.settings
  groups : m'.groups = m.groups
  events : m'.events = m.events
  holdings : m'.holdings = m.holdings
  consumerRows : m'.consumerRows = m.consumerRows
  lastPass : m'.lastPass = m.lastPass
  inFlight : m'.inFlight = m.inFlight
  firstPass : m'.firstPass = m.firstPass
  tracked : ∀ id group, '@' ∉ group.toList → m.isTracked id group = true →
    m'.isTracked id group = true

namespace SameConsumers

variable {m m' m'' : Master}

theorem refl (m : Master) : SameConsumers m m :=
  ⟨rfl, rfl, rfl, rfl, rfl, rfl, rfl, rfl, fun _ _ _ h => h⟩

end SameConsumers

/-! ## Liveness -/

theorem isRegistered_hear {m : Master} {c d : NodeClass} {key k : String} :
    (m.hear c key).liveness.isRegistered d k =
      (decide ((c, key) = (d, k)) || m.liveness.isRegistered d k) := by
  unfold hear Liveness.isRegistered Liveness.register Table.contains
  rw [Table.get?_insert]
  by_cases h : (c, key) = (d, k)
  · simp [h]
  · rw [if_neg h, decide_eq_false h, Bool.false_or]

theorem isRegistered_forget {m : Master} {c d : NodeClass} {key k : String} :
    (m.forget c key).liveness.isRegistered d k =
      (!decide ((c, key) = (d, k)) && m.liveness.isRegistered d k) := by
  unfold forget Liveness.isRegistered Liveness.unregister Table.contains
  rw [Table.get?_erase]
  by_cases h : (c, key) = (d, k)
  · simp [h]
  · rw [if_neg h, decide_eq_false h, Bool.not_false, Bool.true_and]

variable {m : Master}

/-! ## All operations -/

theorem DiffersIn.sameConsumers {m' : Master} {c : NodeClass} (h : DiffersIn c m m')
    (hc : c ≠ .consumer) : SameConsumers m m' := by
  have htracked : ∀ id group, '@' ∉ group.toList → m.isTracked id group = true →
      m'.isTracked id group = true := by
    intro id group _ ht
    unfold isTracked Liveness.isRegistered Table.contains at ht ⊢
    rw [h.lastSeen _ _ hc]
    exact ht
  have htables := h.tables
  cases c with
  | producer =>
    obtain ⟨_, _, _, rfl⟩ := htables
    exact ⟨rfl, rfl, rfl, rfl, rfl, rfl, rfl, rfl, htracked⟩
  | consumer => exact absurd rfl hc
  | broker =>
    obtain ⟨_, _, _, _, rfl⟩ := htables
    exact ⟨rfl, rfl, rfl, rfl, rfl, rfl, rfl, rfl, htracked⟩

theorem SameConsumers.withStore (m : Master) (store : Store) : SameConsumers m { m with store } :=
  ⟨rfl, rfl, rfl, rfl, rfl, rfl, rfl, rfl, fun _ _ _ h => h⟩

/-- What does not concern consumers leaves them alone. -/
theorem sameConsumers_after {op : Operation} (hop : op.concernsConsumers = false) (m : Master) :
    SameConsumers m (m.after op) := by
  cases hclass : op.class? with
  | some c =>
    refine (differsIn_after hclass m).sameConsumers ?_
    rintro rfl
    cases op <;> cases hclass <;> cases hop
  | none =>
    cases op with
    | setIntent id intent =>
      show SameConsumers m (m.setBrokerIntent id intent).2
      rcases setBrokerIntent_cases m id intent with ⟨store, -, he⟩ | he
      · rw [he]
        exact .withStore m store
      · rw [he]
        exact .refl m
    | edit e =>
      show SameConsumers m (m.editStore e).2
      rcases editStore_cases m e with ⟨store, -, he⟩ | ⟨fault, he⟩
      · rw [he]
        exact .withStore m store
      · rw [he]
        exact .refl m
    | hold kind key =>
      cases kind with
      | consumer => cases hop
      | _ => exact ⟨rfl, rfl, rfl, rfl, rfl, rfl, rfl, rfl, fun _ _ _ h => h⟩
    | giveBack kind key =>
      cases kind with
      | consumer => cases hop
      | _ => exact ⟨rfl, rfl, rfl, rfl, rfl, rfl, rfl, rfl, fun _ _ _ h => h⟩
    | commit group key offset => exact ⟨rfl, rfl, rfl, rfl, rfl, rfl, rfl, rfl, fun _ _ _ h => h⟩
    | wait ms => exact ⟨rfl, rfl, rfl, rfl, rfl, rfl, rfl, rfl, fun _ _ _ h => h⟩
    | stepWait ms => exact ⟨rfl, rfl, rfl, rfl, rfl, rfl, rfl, rfl, fun _ _ _ h => h⟩
    | pass => cases hop
    | _ => cases hclass

theorem after_of_isRowing {op : Operation} (hop : op.isRowing = true) (m : Master) :
    ∃ rows, m.after op = { m with consumerRows := rows } := by
  cases op with
  | hold kind key =>
    cases kind with
    | consumer => exact ⟨m.consumerRows.take key, rfl⟩
    | _ => cases hop
  | giveBack kind key =>
    cases kind with
    | consumer => exact ⟨m.consumerRows.release key, rfl⟩
    | _ => cases hop
  | _ => cases hop

end Master

end ClusterMaster
