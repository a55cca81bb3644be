import ClusterMaster.Proofs.Lifecycles

/-!
# Going online takes its time

A broker that begins its way online at some moment, without fast start, waits in two steps before
it is readable and in a third before it is writable, unless it runs with the configuration it
should run with. It may fall back whenever it reports that it is not ready, and its configuration
may change while it waits, but each step has an earliest moment that no course of events gets
around (`Rising`). So, however the calls follow each other (`takesTime_run`):

    subscribing is closed before two step waits have passed                              (hidden)
    publishing is opened no earlier, and after the long wait when the configuration has
      changed or is not loaded                                                            (opens)
    each call takes at most one step, up or back                                        (oneStep)
    writing is entered from reading only, and reading from waiting to be ready
                                                                     (fromReading, fromWaiting)
-/

namespace ClusterMaster

namespace Lifecycle

variable {l : Lifecycle} {s : Settings} {t₀ t now : Nat}

/-! ## Courses of events -/

/-- The calls follow each other between two moments, all under the same settings, and the broker
is to be online all the time. -/
inductive Spans (s : Settings) : Nat → List Call → Nat → Prop where
  | done {t t' : Nat} (le : t ≤ t') : Spans s t [] t'
  | report {t t' : Nat} {calls : List Call} (c : BrokerConfig) (revision checksum : UInt64)
      (rest : Spans s t calls t') : Spans s t (.report c revision checksum :: calls) t'
  | online {t t' : Nat} {calls : List Call} (ready : Bool)
      (rest : Spans s t calls t') : Spans s t (.online ready :: calls) t'
  | remain {t t' now : Nat} {calls : List Call} (le : t ≤ now)
      (rest : Spans s now calls t') : Spans s t (.setIntent .online now :: calls) t'
  | advance {t t' now : Nat} {calls : List Call} (le : t ≤ now)
      (rest : Spans s now calls t') : Spans s t (.advance now s :: calls) t'

/-! ## The way online -/

/-- A step of the way online, up or back. -/
inductive Climbs : Phase → Phase → Prop where
  | registered : Climbs .waitRegister .waitOnline
  | readable : Climbs .waitOnline .onlyRead
  | writable : Climbs .onlyRead .readAndWrite
  | up : Climbs .readAndWrite .settled
  | lostReading : Climbs .onlyRead .waitOnline
  | lostWriting : Climbs .readAndWrite .waitOnline

theorem Climbs.phases {p q : Phase} (h : Climbs p q) :
    q = .waitRegister ∨ q = .waitOnline ∨ q = .onlyRead ∨ q = .readAndWrite ∨ q = .settled := by
  cases h <;> simp

theorem Climbs.of_readAndWrite {p : Phase} (h : Climbs p .readAndWrite) : p = .onlyRead := by
  cases h
  rfl

theorem Climbs.of_onlyRead {p : Phase} (h : Climbs p .onlyRead) : p = .waitOnline := by
  cases h
  rfl

/-- What is visible in a step of the way online. -/
def shown : Phase → Visibility
  | .onlyRead => .subscribeOnly
  | .readAndWrite | .settled => .both
  | _ => .none

/-- When a step of the way online can be entered at the earliest. -/
def earliest (s : Settings) (t₀ : Nat) : Phase → Nat
  | .waitRegister => t₀
  | .waitOnline => t₀ + s.stepWait.toNat
  | _ => t₀ + 2 * s.stepWait.toNat

/-- A lifecycle on its way online at some moment. Fast start stays off until it has settled, which
it then does for good. -/
structure Rising (s : Settings) (t₀ : Nat) (l : Lifecycle) (t : Nat) : Prop where
  intent : l.intent = .online
  phase : l.phase = .waitRegister ∨ l.phase = .waitOnline ∨ l.phase = .onlyRead ∨
    l.phase = .readAndWrite ∨ l.phase = .settled
  visibility : l.visibility = shown l.phase
  unhurried : l.phase ≠ .settled → l.fastStart = false
  entered : earliest s t₀ l.phase ≤ l.since
  past : l.since ≤ t

namespace Rising

theorem begin {c : BrokerConfig} {fastStartEnabled : Bool} (hi : c.intent = .online)
    (hf : (begin c fastStartEnabled t₀).fastStart = false) :
    Rising s t₀ (begin c fastStartEnabled t₀) t₀ := by
  have hphase : (Lifecycle.begin c fastStartEnabled t₀).phase = .waitRegister := by
    simp [Lifecycle.begin, firstStep, hi]
  refine ⟨hi, .inl hphase, ?_, fun _ => hf, ?_, Nat.le_refl t₀⟩
  · rw [hphase]
    simp [Lifecycle.begin, firstStep, hi, shown]
  · rw [hphase]
    exact Nat.le_refl t₀

theorem later {t' : Nat} (h : Rising s t₀ l t) (hle : t ≤ t') : Rising s t₀ l t' :=
  { h with past := Nat.le_trans h.past hle }

theorem gate (h : Rising s t₀ l t) (hp : l.phase ≠ .settled) (wait : UInt64) :
    l.gate wait = wait.toNat := by
  rw [Lifecycle.gate, h.unhurried hp]
  rfl

theorem not_part (h : Rising s t₀ l t) : l.phase ≠ .partWaitRegister ∧
    l.phase ≠ .partWaitOnline ∧ l.phase ≠ .partOnlyRead := by
  rcases h.phase with hp | hp | hp | hp | hp <;> simp [hp]

/-- A wait comes on top of what the current step has taken. -/
theorem waited (h : Rising s t₀ l t) (hle : t ≤ now) (hp : l.phase ≠ .settled) {wait : UInt64}
    (hw : l.gate wait ≤ l.timeInStep now) : earliest s t₀ l.phase + wait.toNat ≤ now := by
  have hentered := h.entered
  have hpast := h.past
  rw [h.gate hp, timeInStep] at hw
  omega

/-- A step is one of the way online, and is entered when it may be. -/
theorem takes (h : Rising s t₀ l t) (hle : t ≤ now) {p : Phase} {v : Visibility}
    (ht : l.Takes now s p v) :
    Climbs l.phase p ∧ v = shown p ∧ earliest s t₀ p ≤ now ∧ l.phase ≠ .settled := by
  have hintent := h.intent
  obtain ⟨hno₁, hno₂, hno₃⟩ := h.not_part
  have hsoon : earliest s t₀ l.phase ≤ now := Nat.le_trans h.entered (Nat.le_trans h.past hle)
  cases ht with
  | registered _ hp hw =>
    have hwaited := h.waited hle (by rw [hp]; decide) hw
    rw [hp] at hwaited ⊢
    refine ⟨.registered, ?_, hwaited, by decide⟩
    rw [h.visibility, hp]
    rfl
  | readable _ hp _ hw =>
    have hwaited := h.waited hle (by rw [hp]; decide) hw
    rw [hp] at hwaited ⊢
    refine ⟨.readable, rfl, ?_, by decide⟩
    simp only [earliest] at hwaited ⊢
    omega
  | writable _ hp _ _ =>
    have hp := hp.resolve_right hno₃
    rw [hp] at hsoon ⊢
    exact ⟨.writable, rfl, hsoon, by decide⟩
  | up _ hp _ _ =>
    rw [hp] at hsoon ⊢
    exact ⟨.up, rfl, hsoon, by decide⟩
  | lost _ hp _ =>
    -- falling back can be no earlier than coming up has been
    have hback : earliest s t₀ .waitOnline ≤ earliest s t₀ .onlyRead := by
      simp only [earliest]
      omega
    rcases hp with hp | hp | hp
    · rw [hp] at hsoon ⊢
      exact ⟨.lostReading, rfl, Nat.le_trans hback hsoon, by decide⟩
    · exact absurd hp hno₃
    · rw [hp] at hsoon ⊢
      exact ⟨.lostWriting, rfl, Nat.le_trans hback hsoon, by decide⟩
  | registeredPart _ hp _ => exact absurd hp hno₁
  | readablePart _ hp _ _ => exact absurd hp hno₂
  | halved hi _ => rcases hi with ⟨hi, -⟩ | ⟨hi, -⟩ <;> simp [hi] at hintent
  | silenced hi _ => simp [hi] at hintent
  | drained hi _ _ => simp [hi] at hintent
  | rebalanced hi _ _ => rcases hi with hi | hi | hi <;> simp [hi] at hintent

theorem advance (h : Rising s t₀ l t) (hle : t ≤ now) : Rising s t₀ (l.advance now s) now := by
  rcases advance_cases l now s with ⟨p, v, ht, he⟩ | he
  · rw [he]
    obtain ⟨hc, hv, hentered, hp⟩ := h.takes hle ht
    refine ⟨h.intent, hc.phases, hv, fun hs => ?_, hentered, Nat.le_refl now⟩
    have hs : p ≠ .settled := hs
    show (if p = .settled then _ else l.fastStart) = false
    rw [if_neg hs]
    exact h.unhurried hp
  · rw [he]
    exact h.later hle

/-- Whatever happens until a later moment, the broker is still on its way, or has settled. -/
theorem run (h : Rising s t₀ l t) {calls : List Call} {t' : Nat} (hc : Spans s t calls t') :
    Rising s t₀ (l.run calls) t' := by
  induction hc generalizing l with
  | done le => exact h.later le
  | report c revision checksum rest ih =>
    exact ih ⟨h.intent, h.phase, h.visibility, h.unhurried, h.entered, h.past⟩
  | online ready rest ih =>
    exact ih ⟨h.intent, h.phase, h.visibility, h.unhurried, h.entered, h.past⟩
  | @remain t t' now calls le rest ih =>
    have hsame : l.after (.setIntent .online now) = l := if_pos h.intent.symm
    refine ih ?_
    rw [hsame]
    exact h.later le
  | advance le rest ih => exact ih (h.advance le)

/-- Nothing can be subscribed to before two step waits have passed. -/
theorem hidden (h : Rising s t₀ l t) (hearly : t < t₀ + 2 * s.stepWait.toNat) :
    l.visibility.subscribe = false := by
  have hentered := h.entered
  have hpast := h.past
  rw [h.visibility]
  rcases h.phase with hp | hp | hp | hp | hp
  all_goals rw [hp] at hentered ⊢
  · rfl
  · rfl
  all_goals
    simp only [earliest] at hentered
    omega

/-- Publishing is opened by the step from reading to writing, after the wait that step asks for. -/
theorem opens (h : Rising s t₀ l t) (hle : t ≤ now) (hshut : l.visibility.publish = false)
    (hopen : (l.advance now s).visibility.publish = true) :
    l.phase = .onlyRead ∧ l.since + l.readToWrite s ≤ now := by
  rcases advance_cases l now s with ⟨p, v, ht, he⟩ | he
  · rw [he] at hopen
    have hopen : v.publish = true := hopen
    obtain ⟨hc, hv, -, -⟩ := h.takes hle ht
    have hvisibility := h.visibility
    have hpast := h.past
    generalize hq : l.phase = q at hc hvisibility
    cases hc with
    | writable =>
      refine ⟨rfl, ?_⟩
      cases ht with
      | writable _ _ _ hw =>
        rw [timeInStep] at hw
        omega
    | up =>
      rw [hvisibility] at hshut
      cases hshut
    | _ =>
      rw [hv] at hopen
      cases hopen
  · rw [he, hshut] at hopen
    cases hopen

/-- Each call takes one step of the way online, or none. -/
theorem oneStep (h : Rising s t₀ l t) {call : Call} {t' : Nat} (hc : Spans s t [call] t') :
    (l.after call).phase = l.phase ∨ Climbs l.phase (l.after call).phase := by
  cases hc with
  | report c revision checksum _ => exact .inl rfl
  | online ready _ => exact .inl rfl
  | remain le _ => exact .inl (congrArg Lifecycle.phase (if_pos h.intent.symm))
  | @advance _ _ now _ le _ =>
    rcases advance_cases l now s with ⟨p, v, ht, he⟩ | he
    · refine .inr ?_
      show Climbs l.phase (l.advance now s).phase
      rw [he]
      exact (h.takes le ht).1
    · exact .inl (congrArg Lifecycle.phase he)

end Rising

/-! ## How long it takes -/

/-- A lifecycle is on its way online since `t₀`, at some moment, and has not cut the way short. -/
structure TakesTime (s : Settings) (t₀ : Nat) (l : Lifecycle) (t : Nat) : Prop where
  hidden : t < t₀ + 2 * s.stepWait.toNat → l.visibility.subscribe = false
  opens : ∀ now, t ≤ now → l.visibility.publish = false →
    (l.advance now s).visibility.publish = true →
      t₀ + 2 * s.stepWait.toNat ≤ now ∧
      (l.changed = true ∨ l.loaded = false →
        t₀ + 2 * s.stepWait.toNat + s.readToWriteWait.toNat ≤ now)
  oneStep : ∀ call t', Spans s t [call] t' →
    (l.after call).phase = l.phase ∨ Climbs l.phase (l.after call).phase
  fromReading : ∀ call t', Spans s t [call] t' → (l.after call).phase = .readAndWrite →
    l.phase = .readAndWrite ∨ l.phase = .onlyRead
  fromWaiting : ∀ call t', Spans s t [call] t' → (l.after call).phase = .onlyRead →
    l.phase = .onlyRead ∨ l.phase = .waitOnline

theorem Rising.takesTime (h : Rising s t₀ l t) : TakesTime s t₀ l t where
  hidden := h.hidden
  opens now hle hshut hopen := by
    obtain ⟨hp, hw⟩ := h.opens hle hshut hopen
    have hentered := h.entered
    rw [hp] at hentered
    simp only [earliest] at hentered
    refine ⟨by omega, fun hchanged => ?_⟩
    -- fast start is off before it has settled, so the long wait is not skipped
    have hwait : l.readToWrite s = s.readToWriteWait.toNat := by
      rw [readToWrite, if_pos (by simpa using hchanged), h.gate (by rw [hp]; decide)]
    omega
  oneStep _ _ := h.oneStep
  fromReading call t' hc hto := by
    rcases h.oneStep hc with hsame | hclimbs
    · exact .inl (hsame.symm.trans hto)
    · exact .inr (hto ▸ hclimbs).of_readAndWrite
  fromWaiting call t' hc hto := by
    rcases h.oneStep hc with hsame | hclimbs
    · exact .inl (hsame.symm.trans hto)
    · exact .inr (hto ▸ hclimbs).of_onlyRead

/-- A broker that goes online without fast start takes its time, whatever happens meanwhile. -/
theorem takesTime_run {c : BrokerConfig} {fastStartEnabled : Bool} {calls : List Call}
    (hi : c.intent = .online) (hf : (begin c fastStartEnabled t₀).fastStart = false)
    (hc : Spans s t₀ calls t) :
    TakesTime s t₀ ((begin c fastStartEnabled t₀).run calls) t :=
  ((Rising.begin hi hf).run hc).takesTime

end Lifecycle

/-! ## A slow start

A broker becomes readable, loses its readiness at once, and has to wait in its second step again.
-/

namespace SlowStart

open Lifecycle

def config : BrokerConfig :=
  { id := 1, host := "h", port := 1, topics := [{ topic := "t", partitionCount := 1 }] }

def calls : List Call :=
  [.advance 12000 {}, .advance 24000 {}, .online false, .advance 24001 {}, .online true,
   .report config 0 config.checksum, .advance 36001 {}]

theorem spans_calls : Spans {} 0 calls 36001 := by
  refine .advance (by decide) (.advance (by decide) (.online false (.advance (by decide) ?_)))
  exact .online true (.report config 0 _ (.advance (by decide) (.done (Nat.le_refl _))))

/-- It is readable again, and nothing has been cut short. -/
theorem takesTime_calls : config.intent = .online ∧ (begin config true 0).fastStart = false ∧
    ((begin config true 0).run calls).phase = .onlyRead ∧
    TakesTime {} 0 ((begin config true 0).run calls) 36001 :=
  ⟨rfl, rfl, rfl, takesTime_run rfl rfl spans_calls⟩

end SlowStart

end ClusterMaster
