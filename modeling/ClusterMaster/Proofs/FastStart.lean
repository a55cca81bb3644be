import ClusterMaster.Proofs.Settling

/-!
# Which sequences are rushed

With fast start on, every wait is skipped. It is decided on when a broker registers and again with
every step that settles it, each time by whether the broker has topics at that moment
(`DecidedFast`). Between two decisions topics come and intents change, and nothing is decided anew.
So a broker that has been given its topics since the last decision is rushed through the sequence
that its next intent begins. That decision is all there is to know: where an intent takes effect
while the broker has topics,

    the sequence it begins is never rushed, as long as topics are kept ↔
      the intent has no way to go, or the last decision was against fast start     (unrushed_iff)

Thus a broker may go offline without giving its consumers any time (`Hurried.serving_rushed`).
-/

namespace ClusterMaster

namespace Lifecycle

variable {l : Lifecycle} {s : Settings} {now t : Nat}

/-! ## Steps that wait -/

/-- The wait that is configured for a step, if it is one that waits for a fixed time. -/
def configuredWait (s : Settings) (i : Intent) : Phase → Option UInt64
  | .waitRegister | .waitOnline | .partWaitRegister | .partWaitOnline | .readAndWrite
  | .notReadWrite => some s.stepWait
  | .onlyRead | .onlyWrite => if i.isPartial then some s.stepWait else none
  | .waitRebalance => some s.settleWait
  | .partOnlyRead | .notWrite | .settled => none

/-- The broker can be read from and written to, and has turned out not to be ready. -/
def FallsBack (l : Lifecycle) : Prop :=
  l.intent = .online ∧ l.phase = .readAndWrite ∧ l.brokerOnline = false

/-- An advance leaves a step that waits before its wait has passed, and not by falling back. -/
def Rushes (l : Lifecycle) (now : Nat) (s : Settings) : Prop :=
  (l.advance now s).phase ≠ l.phase ∧ ¬l.FallsBack ∧
    ∃ wait, configuredWait s l.intent l.phase = some wait ∧ l.timeInStep now < wait.toNat

/-- A step that waits is left when its wait has passed or is skipped, or by falling back. -/
theorem Takes.waited {p : Phase} {v : Visibility} {wait : UInt64} (h : l.Takes now s p v)
    (hwait : configuredWait s l.intent l.phase = some wait) (hback : ¬l.FallsBack) :
    l.gate wait ≤ l.timeInStep now := by
  cases h with
  | registered _ hp hw | registeredPart _ hp hw | readable _ hp _ hw | readablePart _ hp _ hw
  | up _ hp _ hw | drained _ hp hw | rebalanced _ hp hw =>
    rw [hp] at hwait
    cases hwait
    exact hw
  | writable hi hp _ _ =>
    rcases hp with hp | hp
    · rw [hi, hp] at hwait
      cases hwait
    · rw [hp] at hwait
      cases hwait
  | lost hi hp hready =>
    rcases hp with hp | hp | hp
    · rw [hi, hp] at hwait
      cases hwait
    · rw [hp] at hwait
      cases hwait
    · exact absurd ⟨hi, hp, hready⟩ hback
  | halved h hw =>
    rcases h with ⟨hi, hp⟩ | ⟨hi, hp⟩
    all_goals
      rw [hi, hp] at hwait
      cases hwait
      exact hw
  | silenced _ hp =>
    rw [hp] at hwait
    cases hwait

/-- Without fast start no step is rushed. -/
theorem not_rushes_of_slow (h : l.fastStart = false) : ¬l.Rushes now s := by
  rintro ⟨hleft, hback, wait, hwait, hearly⟩
  rcases advance_cases l now s with ⟨p, v, ht, -⟩ | he
  · have hwaited := ht.waited hwait hback
    rw [gate, h] at hwaited
    exact absurd hwaited (Nat.not_le.mpr hearly)
  · rw [he] at hleft
    exact hleft rfl

/-! ## Topics -/

/-- The configuration recorded last, when a call comes after others. -/
def Call.recorded (c : BrokerConfig) : Call → BrokerConfig
  | .report c' _ _ => c'
  | _ => c

/-- The configuration recorded last in a history that begins with one. -/
def recorded (c : BrokerConfig) (calls : List Call) : BrokerConfig := calls.foldl Call.recorded c

theorem hasTopics_advance (l : Lifecycle) (now : Nat) (s : Settings) :
    (l.advance now s).hasTopics = l.hasTopics := by
  rcases advance_cases l now s with ⟨p, v, -, he⟩ | he
  · rw [he]
    rfl
  · rw [he]

theorem hasTopics_setIntent (l : Lifecycle) (intent : Intent) (now : Nat) :
    (l.setIntent intent now).hasTopics = l.hasTopics := by
  unfold setIntent
  split <;> rfl

theorem hasTopics_after {c : BrokerConfig} (h : l.hasTopics = !c.topics.isEmpty) (call : Call) :
    (l.after call).hasTopics = !(call.recorded c).topics.isEmpty := by
  cases call with
  | report c' revision checksum => rfl
  | online ready => exact h
  | setIntent intent now => exact (hasTopics_setIntent l intent now).trans h
  | advance now s => exact (hasTopics_advance l now s).trans h

/-- A lifecycle knows whether the configuration recorded last has topics. -/
theorem hasTopics_run {c : BrokerConfig} (h : l.hasTopics = !c.topics.isEmpty)
    (calls : List Call) : (l.run calls).hasTopics = !(recorded c calls).topics.isEmpty := by
  induction calls generalizing l c with
  | nil => exact h
  | cons call calls ih => exact ih (hasTopics_after h call)

/-! ## Decisions -/

/-- The call completes the way to the intent. -/
def Settles (l : Lifecycle) : Call → Prop
  | .advance now s => l.phase ≠ .settled ∧ (l.advance now s).phase = .settled
  | _ => False

/-- None of the calls does. -/
def NeverSettles (l : Lifecycle) : List Call → Prop
  | [] => True
  | call :: calls => ¬l.Settles call ∧ (l.after call).NeverSettles calls

/-- The last decision was for fast start: at the registration, or when a way was completed, it was
enabled and the configuration recorded last had no topics. -/
inductive DecidedFast (c : BrokerConfig) (fastStartEnabled : Bool) (t₀ : Nat) (calls : List Call) :
    Prop where
  | registered (enabled : fastStartEnabled = true) (bare : c.topics = [])
      (last : (begin c fastStartEnabled t₀).NeverSettles calls)
  | settled (earlier : List Call) (now : Nat) (s : Settings) (later : List Call)
      (split : calls = earlier ++ .advance now s :: later)
      (settles : ((begin c fastStartEnabled t₀).run earlier).Settles (.advance now s))
      (enabled : s.fastStart = true) (bare : (recorded c earlier).topics = [])
      (last : (((begin c fastStartEnabled t₀).run earlier).advance now s).NeverSettles later)

theorem fastStart_of_settles (h : l.Settles (.advance now s)) :
    (l.advance now s).fastStart = (s.fastStart && !l.hasTopics) := by
  obtain ⟨hno, hsettled⟩ := h
  rcases advance_cases l now s with ⟨p, v, -, he⟩ | he
  · rw [he] at hsettled ⊢
    exact if_pos hsettled
  · rw [he] at hsettled
    exact absurd hsettled hno

theorem fastStart_after_of_not_settles {call : Call} (h : ¬l.Settles call) :
    (l.after call).fastStart = l.fastStart := by
  cases call with
  | report c revision checksum => rfl
  | online ready => rfl
  | setIntent intent now =>
    show (l.setIntent intent now).fastStart = l.fastStart
    unfold setIntent
    split <;> rfl
  | advance now s =>
    show (l.advance now s).fastStart = l.fastStart
    rcases advance_cases l now s with ⟨p, v, ht, he⟩ | he
    · have hno : l.phase ≠ .settled := fun hp => by
        rw [← nextStep_eq_some_iff, nextStep_of_settled hp] at ht
        cases ht
      rw [he]
      exact if_neg fun hp => h ⟨hno, by rw [he]; exact hp⟩
    · rw [he]

theorem fastStart_run_of_neverSettles {calls : List Call} (h : l.NeverSettles calls) :
    (l.run calls).fastStart = l.fastStart := by
  induction calls generalizing l with
  | nil => rfl
  | cons call calls ih => exact (ih h.2).trans (fastStart_after_of_not_settles h.1)

/-- Either no call completes the way, or one of them is the last to do so. -/
theorem neverSettles_or (l : Lifecycle) (calls : List Call) : l.NeverSettles calls ∨
    ∃ earlier now s later, calls = earlier ++ .advance now s :: later ∧
      (l.run earlier).Settles (.advance now s) ∧
      ((l.run earlier).advance now s).NeverSettles later := by
  induction calls generalizing l with
  | nil => exact .inl trivial
  | cons call calls ih =>
    rcases ih (l.after call) with hnever | ⟨earlier, now, s, later, rfl, hsettles, hlast⟩
    · by_cases hsettles : l.Settles call
      · cases call with
        | advance now s => exact .inr ⟨[], now, s, calls, rfl, hsettles, hnever⟩
        | _ => cases hsettles
      · exact .inl ⟨hsettles, hnever⟩
    · exact .inr ⟨call :: earlier, now, s, later, rfl, hsettles, hlast⟩

/-- Fast start is on when the last decision was for it. -/
theorem fastStart_run_iff (c : BrokerConfig) (fastStartEnabled : Bool) (t₀ : Nat)
    (calls : List Call) : ((begin c fastStartEnabled t₀).run calls).fastStart = true ↔
      DecidedFast c fastStartEnabled t₀ calls := by
  have hregistered : (begin c fastStartEnabled t₀).fastStart = true ↔
      fastStartEnabled = true ∧ c.topics = [] := by
    simp [begin]
  have hlast : ∀ earlier now s later,
      ((begin c fastStartEnabled t₀).run earlier).Settles (.advance now s) →
      (((begin c fastStartEnabled t₀).run earlier).advance now s).NeverSettles later →
      (((begin c fastStartEnabled t₀).run (earlier ++ .advance now s :: later)).fastStart = true ↔
        s.fastStart = true ∧ (recorded c earlier).topics = []) := by
    intro earlier now s later hsettles hnever
    have hrun : (begin c fastStartEnabled t₀).run (earlier ++ .advance now s :: later) =
        (((begin c fastStartEnabled t₀).run earlier).advance now s).run later :=
      List.foldl_append
    rw [hrun, fastStart_run_of_neverSettles hnever, fastStart_of_settles hsettles,
      hasTopics_run (c := c) rfl]
    simp
  constructor
  · intro hfast
    rcases neverSettles_or (begin c fastStartEnabled t₀) calls with
      hnever | ⟨earlier, now, s, later, rfl, hsettles, hnever⟩
    · rw [fastStart_run_of_neverSettles hnever, hregistered] at hfast
      exact .registered hfast.1 hfast.2 hnever
    · rw [hlast _ _ _ _ hsettles hnever] at hfast
      exact .settled earlier now s later rfl hsettles hfast.1 hfast.2 hnever
  · intro hdecided
    cases hdecided with
    | registered enabled bare last =>
      rw [fastStart_run_of_neverSettles last, hregistered]
      exact ⟨enabled, bare⟩
    | settled earlier now s later split settles enabled bare last =>
      rw [split, hlast _ _ _ _ settles last]
      exact ⟨enabled, bare⟩

/-! ## Sequences -/

/-- What the call records has topics, if it records anything. -/
def Call.KeepsTopics : Call → Prop
  | .report c _ _ => c.topics ≠ []
  | _ => True

/-- When a call is made, if it says so. -/
def Call.time? : Call → Option Nat
  | .setIntent _ now | .advance now _ => some now
  | _ => none

/-- From some moment on, no call is made before an earlier one. -/
def InOrder (t : Nat) (calls : List Call) : Prop :=
  (t :: calls.filterMap Call.time?).Pairwise (· ≤ ·)

/-- No advance from some moment on rushes through a step, as long as the intent stays and every
configuration recorded has topics. -/
def Unrushed (l : Lifecycle) (t : Nat) : Prop :=
  ∀ calls now s, InOrder t (calls ++ [.advance now s]) →
    (∀ call ∈ calls, call.LeavesIntent l.intent ∧ call.KeepsTopics) →
      ¬(l.run calls).Rushes now s

/-- With topics, no decision turns fast start on. -/
theorem slow_after {call : Call} (hslow : l.fastStart = false) (htopics : l.hasTopics = true)
    (hkeeps : call.KeepsTopics) :
    (l.after call).fastStart = false ∧ (l.after call).hasTopics = true := by
  constructor
  · by_cases hsettles : l.Settles call
    · cases call with
      | advance now s =>
        show (l.advance now s).fastStart = false
        rw [fastStart_of_settles hsettles, htopics]
        exact Bool.and_false _
      | _ => cases hsettles
    · exact (fastStart_after_of_not_settles hsettles).trans hslow
  · cases call with
    | report c revision checksum =>
      show (!c.topics.isEmpty) = true
      have hkeeps : c.topics ≠ [] := hkeeps
      simpa using hkeeps
    | online ready => exact htopics
    | setIntent intent now => exact (hasTopics_setIntent l intent now).trans htopics
    | advance now s => exact (hasTopics_advance l now s).trans htopics

theorem slow_run {calls : List Call} (hslow : l.fastStart = false) (htopics : l.hasTopics = true)
    (hkeeps : ∀ call ∈ calls, call.KeepsTopics) : (l.run calls).fastStart = false := by
  induction calls generalizing l with
  | nil => exact hslow
  | cons call calls ih =>
    obtain ⟨hslow', htopics'⟩ := slow_after hslow htopics (hkeeps call List.mem_cons_self)
    exact ih hslow' htopics' fun next hnext => hkeeps next (List.mem_cons_of_mem call hnext)

theorem unrushed_of_slow (hslow : l.fastStart = false) (htopics : l.hasTopics = true) (t : Nat) :
    l.Unrushed t :=
  fun _ _ _ _ hcalls => not_rushes_of_slow (slow_run hslow htopics fun call h => (hcalls call h).2)

theorem unrushed_of_settled (h : l.phase = .settled) (t : Nat) : l.Unrushed t := by
  intro calls now s _ hcalls hrushes
  have hsettled := settled_run h fun call hcall => (hcalls call hcall).1
  exact hrushes.1 (congrArg Lifecycle.phase (advance_of_settled hsettled now s))

/-! ## Rushing -/

/-- A step that is left in the moment it is entered is rushed, if it has a wait at all. -/
theorem Takes.rushes {p q : Phase} {v : Visibility} {wait : UInt64} (h : l.Takes now s q v)
    (hp : l.phase = p) (hleft : q ≠ p) (hback : p ≠ .readAndWrite) (hsince : l.since = now)
    (hwait : configuredWait s l.intent p = some wait) (hpos : 0 < wait.toNat) :
    l.Rushes now s := by
  refine ⟨?_, fun hfalls => hback (hp.symm.trans hfalls.2.1), wait, hp ▸ hwait, ?_⟩
  · rw [advance_of_takes h, hp]
    exact hleft
  · rw [timeInStep, hsince, Nat.sub_self]
    exact hpos

theorem gate_le_of_fast (h : l.fastStart = true) (wait : UInt64) (n : Nat) : l.gate wait ≤ n := by
  rw [gate, if_pos h]
  exact Nat.zero_le n

/-- With fast start on, a way offline is rushed: its second step is left as soon as it is entered. -/
theorem rushes_silenced (h : l.fastStart = true) (hi : l.intent = .offline)
    (hp : l.phase = .notWrite) (t : Nat) : (l.advance t {}).Rushes t {} := by
  have hsilenced : l.advance t {} = l.enter (.notReadWrite, .none) t {} :=
    advance_of_takes (.silenced hi hp)
  rw [hsilenced]
  generalize hm : l.enter (.notReadWrite, .none) t {} = m
  have hfast : m.fastStart = true := hm ▸ h
  have hintent : m.intent = .offline := hm ▸ hi
  have hphase : m.phase = .notReadWrite := hm ▸ rfl
  exact (Takes.drained hintent hphase (gate_le_of_fast hfast _ _)).rushes hphase (by decide)
    (by decide) (hm ▸ rfl) rfl (by decide)

/-- With fast start on, any way there is to go is rushed at its beginning. -/
theorem not_unrushed_of_fast (h : l.fastStart = true) {intent : Intent} (hintent : intent ≠ .apply)
    (hchange : intent ≠ l.intent) (t : Nat) : ¬(l.setIntent intent t).Unrushed t := by
  have hbegun : l.setIntent intent t = { l with
      intent
      phase := (firstStep intent (some l.intent) l.visibility).1
      visibility := (firstStep intent (some l.intent) l.visibility).2
      since := t } := if_neg hchange
  generalize l.setIntent intent t = m at hbegun
  have hfast : m.fastStart = true := by rw [hbegun]; exact h
  have hskip : ∀ wait, m.gate wait ≤ m.timeInStep t := fun wait => gate_le_of_fast hfast wait _
  have hi : m.intent = intent := by rw [hbegun]
  have hp : m.phase = (firstStep intent (some l.intent) l.visibility).1 := by rw [hbegun]
  have hsince : m.since = t := by rw [hbegun]
  intro hunrushed
  have hfirst : ¬m.Rushes t {} :=
    hunrushed [] t {} (by simp [InOrder, Call.time?]) (List.forall_mem_nil _)
  refine hfirst ?_
  cases intent with
  | apply => exact absurd rfl hintent
  | online =>
    unfold firstStep at hp
    simp only [] at hp
    split at hp
    · exact (Takes.registeredPart hi hp (hskip _)).rushes hp (by decide) (by decide) hsince rfl
        (by decide)
    · exact (Takes.registered hi hp (hskip _)).rushes hp (by decide) (by decide) hsince rfl
        (by decide)
  | onlineNotWrite =>
    have hp : m.phase = .onlyRead := hp
    exact (Takes.halved (.inl ⟨hi, hp⟩) (hskip _)).rushes hp (by decide) (by decide) hsince
      (by rw [hi]; rfl) (by decide)
  | onlineNotRead =>
    have hp : m.phase = .onlyWrite := hp
    exact (Takes.halved (.inr ⟨hi, hp⟩) (hskip _)).rushes hp (by decide) (by decide) hsince
      (by rw [hi]; rfl) (by decide)
  | offline =>
    -- the first step never waits, so it is the second one that is rushed
    refine absurd (rushes_silenced hfast hi hp t) ?_
    refine hunrushed [.advance t {}] t {} (by simp [InOrder, Call.time?]) fun call hcall => ?_
    obtain rfl := List.mem_singleton.mp hcall
    exact ⟨trivial, trivial⟩

/-- What decides whether the sequence that an intent begins is rushed, when the broker has topics. -/
theorem unrushed_iff {c : BrokerConfig} {fastStartEnabled : Bool} {t₀ : Nat} {before : List Call}
    (hbefore : (begin c fastStartEnabled t₀).run before = l) {intent : Intent}
    (hchange : intent ≠ l.intent) (htopics : (recorded c before).topics ≠ []) (t : Nat) :
    (l.setIntent intent t).Unrushed t ↔
      intent = .apply ∨ ¬DecidedFast c fastStartEnabled t₀ before := by
  rw [← fastStart_run_iff, hbefore, Bool.not_eq_true]
  have htopics : l.hasTopics = true := by
    rw [← hbefore, hasTopics_run (c := c) rfl]
    simpa using htopics
  have hno : ¬l.Settles (.setIntent intent t) := id
  have hfast : (l.setIntent intent t).fastStart = l.fastStart := fastStart_after_of_not_settles hno
  constructor
  · intro hunrushed
    by_cases happly : intent = .apply
    · exact .inl happly
    · exact .inr <| Bool.eq_false_iff.mpr fun hon =>
        not_unrushed_of_fast hon happly hchange t hunrushed
  · rintro (rfl | hslow)
    · exact unrushed_of_settled (congrArg Lifecycle.phase (if_neg hchange)) t
    · exact unrushed_of_slow (hfast.trans hslow) ((hasTopics_setIntent l intent t).trans htopics) t

end Lifecycle

/-! ## A broker that leaves in a hurry

It comes up without topics and settles, and is given a topic then. When it goes offline, nobody who
reads from it is given any time.
-/

namespace Hurried

open Lifecycle

def bare : BrokerConfig := { id := 1, host := "h", port := 1 }

def config : BrokerConfig := { bare with topics := [{ topic := "t", partitionCount := 1 }] }

/-- It settles at once. -/
def comingUp : List Call := [.advance 0 {}, .advance 0 {}, .advance 0 {}, .advance 0 {}]

def calls : List Call := comingUp ++ [.report config 0 0]

def serving : Lifecycle := (begin bare true 0).run calls

/-- The last decision was made without topics. -/
theorem decidedFast : DecidedFast bare true 0 calls := by
  refine .settled [.advance 0 {}, .advance 0 {}, .advance 0 {}] 0 {} [.report config 0 0] rfl ?_
    rfl rfl ⟨id, trivial⟩
  exact ⟨by decide, rfl⟩

/-- The way offline begins while the broker has a topic, and is rushed all the same. -/
theorem serving_rushed : Intent.offline ≠ serving.intent ∧ (recorded bare calls).topics ≠ [] ∧
    ((serving.setIntent .offline 0).run [.advance 0 {}, .advance 0 {}]).phase = .waitRebalance ∧
    ¬(serving.setIntent .offline 0).Unrushed 0 := by
  have hchange : Intent.offline ≠ serving.intent := by decide
  have htopics : (recorded bare calls).topics ≠ [] := List.cons_ne_nil _ _
  refine ⟨hchange, htopics, rfl, fun hunrushed => ?_⟩
  rcases (unrushed_iff (l := serving) rfl hchange htopics 0).mp hunrushed with happly | hslow
  · cases happly
  · exact hslow decidedFast

end Hurried

end ClusterMaster
