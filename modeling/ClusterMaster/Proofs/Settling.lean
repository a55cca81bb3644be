import ClusterMaster.Proofs.Lifecycles

/-!
# No lifecycle is stuck

Intents may change in the middle of the way to another one, and a broker may lose its readiness on
its way online. Still, only some steps occur on the way to each intent, and from each of those it
is known how many there are still to come (`ahead`). So a lifecycle that has begun, whatever has
happened to it, stands at a step with a next one, or has settled:

    every call leads to a step that belongs to the intent                   (OnItsWay.after)
    an advance of a ready broker that has waited long enough takes a step   (OnItsWay.advance_of_rested)
    four such advances settle it, whatever is reported meanwhile, and from then on nothing but
      another intent moves it                                               (comesToRest_of_patient)
-/

namespace ClusterMaster

namespace Lifecycle

variable {l : Lifecycle} {s : Settings} {now t : Nat}

/-! ## Steps to come -/

/-- How many steps are to come on the way to an intent, for the steps that occur on it. -/
def ahead : Intent → Phase → Option Nat
  | .online, .waitRegister | .online, .partWaitRegister => some 4
  | .online, .waitOnline | .online, .partWaitOnline => some 3
  | .online, .onlyRead | .online, .partOnlyRead => some 2
  | .online, .readAndWrite => some 1
  | .onlineNotWrite, .onlyRead | .onlineNotRead, .onlyWrite => some 2
  | .offline, .notWrite => some 3
  | .offline, .notReadWrite => some 2
  | .onlineNotWrite, .waitRebalance | .onlineNotRead, .waitRebalance
  | .offline, .waitRebalance => some 1
  | _, .settled => some 0
  | _, _ => none

theorem ahead_le {i : Intent} {p : Phase} {n : Nat} (h : ahead i p = some n) : n ≤ 4 := by
  unfold ahead at h
  split at h <;> simp at h <;> omega

theorem ahead_eq_zero_iff {i : Intent} {p : Phase} : ahead i p = some 0 ↔ p = .settled := by
  cases i <;> cases p <;> simp [ahead]

/-- The lifecycle stands at a step that belongs to its intent, with so many to come. -/
def OnItsWay (l : Lifecycle) (n : Nat) : Prop := ahead l.intent l.phase = some n

theorem ahead_firstStep (target : Intent) (previous : Option Intent) (current : Visibility) :
    ∃ n, ahead target (firstStep target previous current).1 = some n := by
  cases target with
  | online =>
    refine ⟨4, ?_⟩
    unfold firstStep
    simp only []
    split <;> rfl
  | onlineNotWrite => exact ⟨2, rfl⟩
  | onlineNotRead => exact ⟨2, rfl⟩
  | offline => exact ⟨3, rfl⟩
  | apply => exact ⟨0, rfl⟩

section Steps

variable {n : Nat}

/-- From a step to the next one there is one fewer to come. -/
theorem OnItsWay.further {i : Intent} {p q : Phase} {k : Nat} (h : l.OnItsWay n)
    (hi : l.intent = i) (hp : l.phase = p) (hfrom : ahead i p = some (k + 1))
    (hto : ahead i q = some k) : ∃ k, n = k + 1 ∧ ahead l.intent q = some k := by
  rw [OnItsWay, hi, hp, hfrom] at h
  exact ⟨k, (Option.some.inj h).symm, hi ▸ hto⟩

/-- A step leads one step further, or back to waiting for the broker to be ready. -/
theorem Takes.ahead {p : Phase} {v : Visibility} (h : l.Takes now s p v) (hn : l.OnItsWay n) :
    (∃ k, n = k + 1 ∧ ahead l.intent p = some k) ∨
      l.brokerOnline = false ∧ ahead l.intent p = some 3 := by
  cases h with
  | registered hi hp _ => exact .inl (hn.further hi hp rfl rfl)
  | registeredPart hi hp _ => exact .inl (hn.further hi hp rfl rfl)
  | readable hi hp _ _ => exact .inl (hn.further hi hp rfl rfl)
  | readablePart hi hp _ _ => exact .inl (hn.further hi hp rfl rfl)
  | writable hi hp _ _ =>
    rcases hp with hp | hp
    · exact .inl (hn.further hi hp rfl rfl)
    · exact .inl (hn.further hi hp rfl rfl)
  | up hi hp _ _ => exact .inl (hn.further hi hp rfl rfl)
  | lost hi _ hunready =>
    rw [hi]
    exact .inr ⟨hunready, rfl⟩
  | halved h _ =>
    rcases h with ⟨hi, hp⟩ | ⟨hi, hp⟩
    · exact .inl (hn.further hi hp rfl rfl)
    · exact .inl (hn.further hi hp rfl rfl)
  | silenced hi hp => exact .inl (hn.further hi hp rfl rfl)
  | drained hi hp _ => exact .inl (hn.further hi hp rfl rfl)
  | rebalanced hi hp _ =>
    rcases hi with hi | hi | hi
    · exact .inl (hn.further hi hp rfl rfl)
    · exact .inl (hn.further hi hp rfl rfl)
    · exact .inl (hn.further hi hp rfl rfl)

/-- The longest wait that any step may ask for. -/
def longestWait (s : Settings) : Nat :=
  max s.stepWait.toNat (max s.readToWriteWait.toNat s.settleWait.toNat)

theorem gate_le (l : Lifecycle) (wait : UInt64) : l.gate wait ≤ wait.toNat := by
  unfold gate
  split
  · exact Nat.zero_le _
  · exact Nat.le_refl _

theorem readToWrite_le (l : Lifecycle) (s : Settings) :
    l.readToWrite s ≤ s.readToWriteWait.toNat := by
  unfold readToWrite
  split
  · exact l.gate_le _
  · exact Nat.zero_le _

/-- A lifecycle that has rested for the longest wait can take a step, unless it has settled. -/
theorem OnItsWay.due (h : l.OnItsWay (n + 1)) (hready : l.brokerOnline = true)
    (hrested : l.since + longestWait s ≤ now) : ∃ p v, l.Takes now s p v := by
  have hwaited : ∀ wait, wait ≤ longestWait s → wait ≤ l.timeInStep now := by
    intro wait hle
    unfold timeInStep
    omega
  have hstep : l.gate s.stepWait ≤ l.timeInStep now :=
    hwaited _ (Nat.le_trans (l.gate_le _) (Nat.le_max_left _ _))
  have hread : l.readToWrite s ≤ l.timeInStep now :=
    hwaited _ <| Nat.le_trans (l.readToWrite_le s)
      (Nat.le_trans (Nat.le_max_left _ _) (Nat.le_max_right _ _))
  have hsettle : l.gate s.settleWait ≤ l.timeInStep now :=
    hwaited _ <| Nat.le_trans (l.gate_le _)
      (Nat.le_trans (Nat.le_max_right _ _) (Nat.le_max_right _ _))
  unfold OnItsWay Lifecycle.ahead at h
  split at h
  · rename_i hi hp
    exact ⟨_, _, .registered hi hp hstep⟩
  · rename_i hi hp
    exact ⟨_, _, .registeredPart hi hp hstep⟩
  · rename_i hi hp
    exact ⟨_, _, .readable hi hp hready hstep⟩
  · rename_i hi hp
    exact ⟨_, _, .readablePart hi hp hready hstep⟩
  · rename_i hi hp
    exact ⟨_, _, .writable hi (.inl hp) hready hread⟩
  · rename_i hi hp
    exact ⟨_, _, .writable hi (.inr hp) hready hread⟩
  · rename_i hi hp
    exact ⟨_, _, .up hi hp hready hstep⟩
  · rename_i hi hp
    exact ⟨_, _, .halved (.inl ⟨hi, hp⟩) hstep⟩
  · rename_i hi hp
    exact ⟨_, _, .halved (.inr ⟨hi, hp⟩) hstep⟩
  · rename_i hi hp
    exact ⟨_, _, .silenced hi hp⟩
  · rename_i hi hp
    exact ⟨_, _, .drained hi hp hstep⟩
  · rename_i hi hp
    exact ⟨_, _, .rebalanced (.inl hi) hp hsettle⟩
  · rename_i hi hp
    exact ⟨_, _, .rebalanced (.inr (.inl hi)) hp hsettle⟩
  · rename_i hi hp
    exact ⟨_, _, .rebalanced (.inr (.inr hi)) hp hsettle⟩
  · cases h
  · cases h

/-! ## Every call -/

theorem onItsWay_begin (c : BrokerConfig) (fastStartEnabled : Bool) (now : Nat) :
    ∃ n, (begin c fastStartEnabled now).OnItsWay n :=
  ahead_firstStep c.intent none .none

theorem OnItsWay.advance (h : l.OnItsWay n) (now : Nat) (s : Settings) :
    ∃ n, (l.advance now s).OnItsWay n := by
  rcases advance_cases l now s with ⟨p, v, ht, he⟩ | he
  · rw [he]
    rcases ht.ahead h with ⟨k, -, hk⟩ | ⟨-, hback⟩
    · exact ⟨k, hk⟩
    · exact ⟨3, hback⟩
  · rw [he]
    exact ⟨n, h⟩

/-- Every call leads to a step that belongs to the intent. -/
theorem OnItsWay.after (h : l.OnItsWay n) (call : Call) : ∃ n, (l.after call).OnItsWay n := by
  cases call with
  | report c revision checksum => exact ⟨n, h⟩
  | online ready => exact ⟨n, h⟩
  | setIntent intent now =>
    show ∃ n, (l.setIntent intent now).OnItsWay n
    unfold setIntent
    split
    · exact ⟨n, h⟩
    · exact ahead_firstStep intent (some l.intent) l.visibility
  | advance now s => exact h.advance now s

theorem OnItsWay.run (h : l.OnItsWay n) (calls : List Call) : ∃ n, (l.run calls).OnItsWay n := by
  induction calls generalizing l n with
  | nil => exact ⟨n, h⟩
  | cons call calls ih =>
    obtain ⟨k, hk⟩ := h.after call
    exact ih hk

end Steps

/-! ## Coming to rest -/

/-- The call does not ask for another intent. -/
def Call.LeavesIntent (i : Intent) : Call → Prop
  | .setIntent j _ => j = i
  | _ => True

theorem nextStep_of_settled (h : l.phase = .settled) (now : Nat) (s : Settings) :
    l.nextStep now s = none := by
  unfold nextStep
  simp [h]

theorem advance_of_settled (h : l.phase = .settled) (now : Nat) (s : Settings) :
    l.advance now s = l := by
  unfold advance
  rw [nextStep_of_settled h]

/-- Only another intent moves a lifecycle that has settled. -/
theorem settled_after {call : Call} (h : l.phase = .settled) (hcall : call.LeavesIntent l.intent) :
    (l.after call).phase = .settled ∧ (l.after call).intent = l.intent := by
  cases call with
  | report c revision checksum => exact ⟨h, rfl⟩
  | online ready => exact ⟨h, rfl⟩
  | setIntent intent now =>
    have hsame : l.after (.setIntent intent now) = l := if_pos hcall
    rw [hsame]
    exact ⟨h, rfl⟩
  | advance now s =>
    have hsame : l.after (.advance now s) = l := advance_of_settled h now s
    rw [hsame]
    exact ⟨h, rfl⟩

theorem settled_run {calls : List Call} (h : l.phase = .settled)
    (hcalls : ∀ call ∈ calls, call.LeavesIntent l.intent) : (l.run calls).phase = .settled := by
  induction calls generalizing l with
  | nil => exact h
  | cons call calls ih =>
    obtain ⟨hphase, hintent⟩ := settled_after h (hcalls call List.mem_cons_self)
    refine ih hphase fun next hnext => ?_
    rw [hintent]
    exact hcalls next (List.mem_cons_of_mem call hnext)

/-- So many advances of a broker that stays ready, each after the longest wait since the one before
(the first since some moment), whatever is reported in between, while the intent stays. -/
inductive Patient (i : Intent) : Nat → Nat → List Call → Prop where
  | done {t : Nat} : Patient i t 0 []
  | report {t n : Nat} {calls : List Call} (c : BrokerConfig) (revision checksum : UInt64)
      (rest : Patient i t n calls) : Patient i t n (.report c revision checksum :: calls)
  | ready {t n : Nat} {calls : List Call} (rest : Patient i t n calls) :
      Patient i t n (.online true :: calls)
  | remain {t n : Nat} {calls : List Call} (now : Nat) (rest : Patient i t n calls) :
      Patient i t n (.setIntent i now :: calls)
  | advance {t n now : Nat} {calls : List Call} (s : Settings) (le : t + longestWait s ≤ now)
      (rest : Patient i now n calls) : Patient i t (n + 1) (.advance now s :: calls)

/-- A patient advance takes a step, or finds the lifecycle settled. -/
theorem OnItsWay.advance_of_rested {n : Nat} (h : l.OnItsWay n) (hready : l.brokerOnline = true)
    (hrested : l.since + longestWait s ≤ now) : (l.advance now s).OnItsWay (n - 1) ∧
      (l.advance now s).intent = l.intent ∧ (l.advance now s).brokerOnline = true ∧
      (l.advance now s).since ≤ now := by
  cases n with
  | zero =>
    rw [advance_of_settled (ahead_eq_zero_iff.mp h)]
    exact ⟨h, rfl, hready, Nat.le_trans (Nat.le_add_right _ _) hrested⟩
  | succ n =>
    obtain ⟨p, v, ht⟩ := h.due hready hrested
    rw [advance_of_takes ht]
    refine ⟨?_, rfl, hready, Nat.le_refl now⟩
    rcases ht.ahead h with ⟨k, hk, hahead⟩ | ⟨hunready, -⟩
    · obtain rfl : n = k := Nat.succ.inj hk
      exact hahead
    · rw [hready] at hunready
      cases hunready

/-- Patience outlasts the steps to come. -/
theorem OnItsWay.settles {i : Intent} {n k : Nat} {calls : List Call} (hp : Patient i t n calls)
    (h : l.OnItsWay k) (hi : l.intent = i) (hready : l.brokerOnline = true) (hsince : l.since ≤ t)
    (hk : k ≤ n) : (l.run calls).phase = .settled ∧ (l.run calls).intent = i := by
  induction hp generalizing l k with
  | done =>
    obtain rfl := Nat.le_zero.mp hk
    exact ⟨ahead_eq_zero_iff.mp h, hi⟩
  | report c revision checksum rest ih => exact ih h hi hready hsince hk
  | ready rest ih => exact ih h hi rfl hsince hk
  | remain now rest ih =>
    have hsame : l.after (.setIntent i now) = l := if_pos hi.symm
    refine ih ?_ ?_ ?_ ?_ hk
    all_goals rw [hsame]
    all_goals assumption
  | @advance t n now calls s le rest ih =>
    have hrested : l.since + longestWait s ≤ now :=
      Nat.le_trans (Nat.add_le_add_right hsince _) le
    obtain ⟨hahead, hintent, hstill, hlast⟩ := h.advance_of_rested hready hrested
    exact ih hahead (hintent.trans hi) hstill hlast (Nat.sub_le_of_le_add hk)

/-- Whatever has happened to a lifecycle, four patient advances settle it, and then nothing but
another intent moves it. -/
theorem comesToRest_of_patient {c : BrokerConfig} {fastStartEnabled : Bool} {t₀ n : Nat}
    {calls later further : List Call} (hl : (begin c fastStartEnabled t₀).run calls = l)
    (hready : l.brokerOnline = true) (hpatient : Patient l.intent l.since n later) (hn : 4 ≤ n)
    (hfurther : ∀ call ∈ further, call.LeavesIntent l.intent) :
    ((l.run later).run further).phase = .settled ∧ ∀ now s,
      ((l.run later).run further).nextStep now s = none ∧
      ((l.run later).run further).advance now s = (l.run later).run further := by
  obtain ⟨_, hbegun⟩ := onItsWay_begin c fastStartEnabled t₀
  obtain ⟨k, hk⟩ := hbegun.run calls
  rw [hl] at hk
  obtain ⟨hsettled, hintent⟩ :=
    hk.settles hpatient rfl hready (Nat.le_refl _) (Nat.le_trans (ahead_le hk) hn)
  have hrest : ((l.run later).run further).phase = .settled :=
    settled_run hsettled (hintent ▸ hfurther)
  exact ⟨hrest, fun now s => ⟨nextStep_of_settled hrest now s, advance_of_settled hrest now s⟩⟩

end Lifecycle

/-! ## A detour

The operator changes his mind twice, and the broker loses its readiness when it can be read from.
-/

namespace Detour

open Lifecycle

def config : BrokerConfig :=
  { id := 1, host := "h", port := 1, topics := [{ topic := "t", partitionCount := 1 }] }

def calls : List Call :=
  [.setIntent .onlineNotWrite 5, .setIntent .online 10, .advance 12010 {}, .advance 24010 {},
   .online false, .advance 24011 {}, .online true]

def waiting : Lifecycle := (begin config true 0).run calls

/-- Its configuration changes while it waits. -/
def later : List Call :=
  [.report { config with revision := 7 } 0 0, .advance 144011 {}, .advance 264011 {},
   .report { config with revision := 8 } 7 0, .advance 384011 {}, .advance 504011 {}]

def further : List Call := [.online false, .setIntent .online 600000, .advance 700000 {}]

theorem patient_later : Patient .online 24011 4 later := by
  refine .report _ 0 0 (.advance {} (by decide) (.advance {} (by decide) ?_))
  exact .report _ 7 0 (.advance {} (by decide) (.advance {} (by decide) .done))

/-- From a step that it has gone back to, it settles all the same. -/
theorem waiting_comesToRest : waiting.phase = .waitOnline ∧ waiting.brokerOnline = true ∧
    Patient waiting.intent waiting.since 4 later ∧
    (∀ call ∈ further, call.LeavesIntent waiting.intent) ∧
    ((waiting.run later).run further).phase = .settled := by
  have hpatient : Patient waiting.intent waiting.since 4 later := patient_later
  have hfurther : ∀ call ∈ further, call.LeavesIntent waiting.intent := by
    simp only [further, List.forall_mem_cons, Call.LeavesIntent, true_and]
    exact ⟨rfl, List.forall_mem_nil _⟩
  exact ⟨rfl, rfl, hpatient, hfurther,
    (comesToRest_of_patient (l := waiting) rfl rfl hpatient (Nat.le_refl 4) hfurther).1⟩

end Detour

end ClusterMaster
