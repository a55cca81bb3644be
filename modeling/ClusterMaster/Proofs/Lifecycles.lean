import ClusterMaster.Lifecycle

/-!
# What may be seen of a broker on its way

A lifecycle is changed by four kinds of calls: a report of the configuration, word of whether the
broker is ready, another intent, and an advance. What an advance can do is said once, as a list of
the steps there are (`Takes`). Through all of them, in whatever order, at whatever times and under
whatever settings, a broker shows no more than its intent and its step allow (`MayShow`), even
where a step takes over what an earlier intent has shown. So in every lifecycle that has begun:

    settled → its visibility is the steady one of the intent
    publishing is accepted → the intent is to be online, perhaps without reading
    subscribing is accepted → the intent is to be online, perhaps without writing,
      or to go offline, in the first step
    an advance that opens publishing finds subscribing open, and leaves it so   (showsSafely_run)
-/

namespace ClusterMaster

namespace Lifecycle

variable {l : Lifecycle} {now : Nat} {s : Settings}

/-! ## Calls -/

/-- What can happen to a lifecycle. -/
inductive Call where
  /-- The broker reports the revision and checksum it runs with, next to its configuration. -/
  | report (config : BrokerConfig) (revision checksum : UInt64)
  /-- The broker says whether it is ready to serve. -/
  | online (ready : Bool)
  | setIntent (intent : Intent) (now : Nat)
  | advance (now : Nat) (settings : Settings)
  deriving DecidableEq

/-- A lifecycle after a call. -/
def after (l : Lifecycle) : Call → Lifecycle
  | .report c revision checksum => l.report c revision checksum
  | .online ready => { l with brokerOnline := ready }
  | .setIntent intent now => l.setIntent intent now
  | .advance now s => l.advance now s

/-- A lifecycle after calls, one after the other. -/
def run (l : Lifecycle) (calls : List Call) : Lifecycle := calls.foldl after l

/-! ## Steps -/

/-- The steps a lifecycle can take, with the step it comes to and what is visible then. -/
inductive Takes (l : Lifecycle) (now : Nat) (s : Settings) : Phase → Visibility → Prop where
  | registered (intent : l.intent = .online) (phase : l.phase = .waitRegister)
      (wait : l.gate s.stepWait ≤ l.timeInStep now) : Takes l now s .waitOnline l.visibility
  | registeredPart (intent : l.intent = .online) (phase : l.phase = .partWaitRegister)
      (wait : l.gate s.stepWait ≤ l.timeInStep now) : Takes l now s .partWaitOnline l.visibility
  | readable (intent : l.intent = .online) (phase : l.phase = .waitOnline)
      (ready : l.brokerOnline = true) (wait : l.gate s.stepWait ≤ l.timeInStep now) :
      Takes l now s .onlyRead .subscribeOnly
  | readablePart (intent : l.intent = .online) (phase : l.phase = .partWaitOnline)
      (ready : l.brokerOnline = true) (wait : l.gate s.stepWait ≤ l.timeInStep now) :
      Takes l now s .partOnlyRead { l.visibility with subscribe := true }
  | writable (intent : l.intent = .online)
      (phase : l.phase = .onlyRead ∨ l.phase = .partOnlyRead) (ready : l.brokerOnline = true)
      (wait : l.readToWrite s ≤ l.timeInStep now) : Takes l now s .readAndWrite .both
  | up (intent : l.intent = .online) (phase : l.phase = .readAndWrite)
      (ready : l.brokerOnline = true) (wait : l.gate s.stepWait ≤ l.timeInStep now) :
      Takes l now s .settled .both
  | lost (intent : l.intent = .online)
      (phase : l.phase = .onlyRead ∨ l.phase = .partOnlyRead ∨ l.phase = .readAndWrite)
      (unready : l.brokerOnline = false) : Takes l now s .waitOnline .none
  | halved (intent : l.intent = .onlineNotWrite ∧ l.phase = .onlyRead ∨
        l.intent = .onlineNotRead ∧ l.phase = .onlyWrite)
      (wait : l.gate s.stepWait ≤ l.timeInStep now) : Takes l now s .waitRebalance l.visibility
  | silenced (intent : l.intent = .offline) (phase : l.phase = .notWrite) :
      Takes l now s .notReadWrite .none
  | drained (intent : l.intent = .offline) (phase : l.phase = .notReadWrite)
      (wait : l.gate s.stepWait ≤ l.timeInStep now) : Takes l now s .waitRebalance l.visibility
  | rebalanced (intent : l.intent = .onlineNotWrite ∨ l.intent = .onlineNotRead ∨
        l.intent = .offline) (phase : l.phase = .waitRebalance)
      (wait : l.gate s.settleWait ≤ l.timeInStep now) : Takes l now s .settled l.visibility

/-- These are the steps that are due, and there are no others. -/
theorem nextStep_eq_some_iff {p : Phase} {v : Visibility} :
    l.nextStep now s = some (p, v) ↔ l.Takes now s p v := by
  constructor
  · intro h
    unfold nextStep at h
    simp only [] at h
    split at h
    · rename_i hi hp
      obtain ⟨hw, h⟩ := Option.ite_none_right_eq_some.mp h
      cases h
      exact .registered hi hp hw
    · rename_i hi hp
      obtain ⟨hw, h⟩ := Option.ite_none_right_eq_some.mp h
      cases h
      exact .registeredPart hi hp hw
    · rename_i hi hp
      obtain ⟨hr, h⟩ := Option.ite_none_right_eq_some.mp h
      obtain ⟨hw, h⟩ := Option.ite_none_right_eq_some.mp h
      cases h
      exact .readable hi hp hr hw
    · rename_i hi hp
      obtain ⟨hr, h⟩ := Option.ite_none_right_eq_some.mp h
      obtain ⟨hw, h⟩ := Option.ite_none_right_eq_some.mp h
      cases h
      exact .readablePart hi hp hr hw
    · rename_i hi hp
      split at h
      · rename_i hr
        obtain ⟨hw, h⟩ := Option.ite_none_right_eq_some.mp h
        cases h
        exact .writable hi (.inl hp) hr hw
      · rename_i hr
        cases h
        exact .lost hi (.inl hp) (by simpa using hr)
    · rename_i hi hp
      split at h
      · rename_i hr
        obtain ⟨hw, h⟩ := Option.ite_none_right_eq_some.mp h
        cases h
        exact .writable hi (.inr hp) hr hw
      · rename_i hr
        cases h
        exact .lost hi (.inr (.inl hp)) (by simpa using hr)
    · rename_i hi hp
      split at h
      · rename_i hr
        obtain ⟨hw, h⟩ := Option.ite_none_right_eq_some.mp h
        cases h
        exact .up hi hp hr hw
      · rename_i hr
        cases h
        exact .lost hi (.inr (.inr hp)) (by simpa using hr)
    · rename_i hi hp
      obtain ⟨hw, h⟩ := Option.ite_none_right_eq_some.mp h
      cases h
      exact .halved (.inl ⟨hi, hp⟩) hw
    · rename_i hi hp
      obtain ⟨hw, h⟩ := Option.ite_none_right_eq_some.mp h
      cases h
      exact .halved (.inr ⟨hi, hp⟩) hw
    · rename_i hi hp
      cases h
      exact .silenced hi hp
    · rename_i hi hp
      obtain ⟨hw, h⟩ := Option.ite_none_right_eq_some.mp h
      cases h
      exact .drained hi hp hw
    · rename_i hi hp
      obtain ⟨hw, h⟩ := Option.ite_none_right_eq_some.mp h
      cases h
      exact .rebalanced (.inl hi) hp hw
    · rename_i hi hp
      obtain ⟨hw, h⟩ := Option.ite_none_right_eq_some.mp h
      cases h
      exact .rebalanced (.inr (.inl hi)) hp hw
    · rename_i hi hp
      obtain ⟨hw, h⟩ := Option.ite_none_right_eq_some.mp h
      cases h
      exact .rebalanced (.inr (.inr hi)) hp hw
    · cases h
  · intro h
    unfold nextStep
    cases h with
    | registered hi hp hw => simp [hi, hp, hw]
    | registeredPart hi hp hw => simp [hi, hp, hw]
    | readable hi hp hr hw => simp [hi, hp, hr, hw]
    | readablePart hi hp hr hw => simp [hi, hp, hr, hw]
    | writable hi hp hr hw => rcases hp with hp | hp <;> simp [hi, hp, hr, hw]
    | up hi hp hr hw => simp [hi, hp, hr, hw]
    | lost hi hp hr => rcases hp with hp | hp | hp <;> simp [hi, hp, hr]
    | halved h hw => rcases h with ⟨hi, hp⟩ | ⟨hi, hp⟩ <;> simp [hi, hp, hw]
    | silenced hi hp => simp [hi, hp]
    | drained hi hp hw => simp [hi, hp, hw]
    | rebalanced hi hp hw => rcases hi with hi | hi | hi <;> simp [hi, hp, hw]

theorem advance_of_takes {p : Phase} {v : Visibility} (h : l.Takes now s p v) :
    l.advance now s = l.enter (p, v) now s := by
  unfold advance
  rw [nextStep_eq_some_iff.mpr h]

/-- An advance takes the step that is due, or changes nothing. -/
theorem advance_cases (l : Lifecycle) (now : Nat) (s : Settings) :
    (∃ p v, l.Takes now s p v ∧ l.advance now s = l.enter (p, v) now s) ∨ l.advance now s = l := by
  unfold advance
  split
  · rename_i step heq
    exact .inl ⟨step.1, step.2, nextStep_eq_some_iff.mp heq, rfl⟩
  · exact .inr rfl

/-! ## What an intent and a step allow to be seen -/

/-- What may be visible in a step on the way to an intent. Towards being online the first steps
take over whatever an earlier intent has shown. -/
def MayShow : Intent → Phase → Visibility → Prop
  | .online, .onlyRead, v | .online, .partOnlyRead, v => v.subscribe = true
  | .online, .readAndWrite, v | .online, .settled, v => v = .both
  | .online, _, _ => True
  | .onlineNotWrite, _, v => v = .subscribeOnly
  | .onlineNotRead, _, v => v = .publishOnly
  | .offline, .notWrite, v => v.publish = false
  | .offline, _, v => v = .none
  | .apply, _, v => v = .none

/-- A lifecycle shows no more than that. -/
def Decent (l : Lifecycle) : Prop := MayShow l.intent l.phase l.visibility

/-- Whatever has been visible, the way to an intent begins with what that intent allows. -/
theorem mayShow_firstStep (target : Intent) (previous : Option Intent) (current : Visibility) :
    MayShow target (firstStep target previous current).1 (firstStep target previous current).2 := by
  cases target with
  | online =>
    unfold firstStep
    simp only []
    split <;> trivial
  | _ => rfl

theorem decent_begin (c : BrokerConfig) (fastStartEnabled : Bool) (now : Nat) :
    (begin c fastStartEnabled now).Decent :=
  mayShow_firstStep c.intent none .none

/-- Every step leads to what the intent allows there. -/
theorem Takes.mayShow {p : Phase} {v : Visibility} (h : l.Takes now s p v) (hl : l.Decent) :
    MayShow l.intent p v := by
  unfold Decent at hl
  cases h with
  | registered hi _ _ => rw [hi]; trivial
  | registeredPart hi _ _ => rw [hi]; trivial
  | readable hi _ _ _ => rw [hi]; rfl
  | readablePart hi _ _ _ => rw [hi]; rfl
  | writable hi _ _ _ => rw [hi]; rfl
  | up hi _ _ _ => rw [hi]; rfl
  | lost hi _ _ => rw [hi]; trivial
  | halved h _ =>
    rcases h with ⟨hi, hp⟩ | ⟨hi, hp⟩
    · rw [hi, hp] at hl
      rw [hi]
      exact hl
    · rw [hi, hp] at hl
      rw [hi]
      exact hl
  | silenced hi _ => rw [hi]; rfl
  | drained hi hp _ =>
    rw [hi, hp] at hl
    rw [hi]
    exact hl
  | rebalanced hi hp _ =>
    rcases hi with hi | hi | hi
    all_goals
      rw [hi, hp] at hl
      rw [hi]
      exact hl

theorem Decent.advance (h : l.Decent) (now : Nat) (s : Settings) : (l.advance now s).Decent := by
  rcases advance_cases l now s with ⟨p, v, ht, he⟩ | he
  · rw [he]
    exact ht.mayShow h
  · rw [he]
    exact h

theorem Decent.setIntent (h : l.Decent) (intent : Intent) (now : Nat) :
    (l.setIntent intent now).Decent := by
  unfold Lifecycle.setIntent
  split
  · exact h
  · exact mayShow_firstStep intent (some l.intent) l.visibility

/-- Every call keeps a lifecycle decent. -/
theorem Decent.after (h : l.Decent) (call : Call) : (l.after call).Decent := by
  cases call with
  | report c revision checksum => exact h
  | online ready => exact h
  | setIntent intent now => exact h.setIntent intent now
  | advance now s => exact h.advance now s

theorem Decent.run (h : l.Decent) (calls : List Call) : (l.run calls).Decent := by
  induction calls generalizing l with
  | nil => exact h
  | cons call calls ih => exact ih (h.after call)

/-! ## Safety -/

/-- What can be seen of a broker never runs ahead of what the operator wants. -/
structure ShowsSafely (l : Lifecycle) : Prop where
  settled : l.phase = .settled → l.visibility = l.intent.steadyVisibility
  publish : l.visibility.publish = true → l.intent = .online ∨ l.intent = .onlineNotRead
  subscribe : l.visibility.subscribe = true → l.intent = .online ∨ l.intent = .onlineNotWrite ∨
    l.intent = .offline ∧ l.phase = .notWrite
  opens : ∀ now s, l.visibility.publish = false → (l.advance now s).visibility.publish = true →
    l.visibility.subscribe = true ∧ (l.advance now s).visibility.subscribe = true

theorem MayShow.of_settled {i : Intent} {v : Visibility} (h : MayShow i .settled v) :
    v = i.steadyVisibility := by
  cases i <;> exact h

theorem MayShow.of_publish {i : Intent} {p : Phase} {v : Visibility} (h : MayShow i p v)
    (hv : v.publish = true) : i = .online ∨ i = .onlineNotRead := by
  cases i with
  | online => exact .inl rfl
  | onlineNotRead => exact .inr rfl
  | onlineNotWrite =>
    obtain rfl : v = .subscribeOnly := h
    cases hv
  | apply =>
    obtain rfl : v = .none := h
    cases hv
  | offline =>
    cases p with
    | notWrite => exact absurd hv (Bool.eq_false_iff.mp h)
    | _ =>
      obtain rfl : v = .none := h
      cases hv

theorem MayShow.of_subscribe {i : Intent} {p : Phase} {v : Visibility} (h : MayShow i p v)
    (hv : v.subscribe = true) :
    i = .online ∨ i = .onlineNotWrite ∨ i = .offline ∧ p = .notWrite := by
  cases i with
  | online => exact .inl rfl
  | onlineNotWrite => exact .inr (.inl rfl)
  | onlineNotRead =>
    obtain rfl : v = .publishOnly := h
    cases hv
  | apply =>
    obtain rfl : v = .none := h
    cases hv
  | offline =>
    cases p with
    | notWrite => exact .inr (.inr ⟨rfl, rfl⟩)
    | _ =>
      obtain rfl : v = .none := h
      cases hv

/-- The step that opens publishing is the one from reading to writing. -/
theorem Takes.opens {p : Phase} {v : Visibility} (h : l.Takes now s p v) (hl : l.Decent)
    (hshut : l.visibility.publish = false) (hopen : v.publish = true) :
    l.visibility.subscribe = true ∧ v.subscribe = true := by
  unfold Decent at hl
  -- all the others take over what is visible, or show nothing of it
  cases h with
  | writable hi hp _ _ =>
    rcases hp with hp | hp
    · rw [hi, hp] at hl
      exact ⟨hl, rfl⟩
    · rw [hi, hp] at hl
      exact ⟨hl, rfl⟩
  | up hi hp _ _ =>
    rw [hi, hp] at hl
    rw [show l.visibility = .both from hl] at hshut
    cases hshut
  | readable _ _ _ _ => cases hopen
  | lost _ _ _ => cases hopen
  | silenced _ _ => cases hopen
  | _ => exact absurd hopen (Bool.eq_false_iff.mp hshut)

theorem Decent.showsSafely (h : l.Decent) : l.ShowsSafely where
  settled hp := by
    unfold Decent at h
    rw [hp] at h
    exact h.of_settled
  publish := MayShow.of_publish h
  subscribe := MayShow.of_subscribe h
  opens now s hshut hopen := by
    rcases advance_cases l now s with ⟨p, v, ht, he⟩ | he
    · rw [he] at hopen ⊢
      exact ht.opens h hshut hopen
    · rw [he, hshut] at hopen
      cases hopen

/-- A lifecycle that has begun shows safely, whatever happens to it. -/
theorem showsSafely_run (c : BrokerConfig) (fastStartEnabled : Bool) (now : Nat)
    (calls : List Call) : ((begin c fastStartEnabled now).run calls).ShowsSafely :=
  ((decent_begin c fastStartEnabled now).run calls).showsSafely

end Lifecycle

end ClusterMaster
