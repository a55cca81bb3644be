import ClusterMaster.Proofs.Passes

/-!
# Calls that begin passes side by side

A call that begins a pass takes several steps, and while it takes them other calls take theirs,
shards of earlier passes start, end or fail, and whatever else happens to the master happens. A call
first tries for the setup, which one call at a time can have, and gives up if another has it. With
the setup in hand it takes a number and looks at how many shards are unfinished; only if there are
none does it select groups, write down how many shards there will be, and spawn them one after the
other. Shards that are spawned may end before the next one is spawned.

* `Works.proceed` : the next step of a call that has the setup;
* `Concurrent.step` : what anybody does next;
* `Concurrent.run` : any actions, in the order in which they happen.

A call that nobody comes between does just what `Master.beginPass` says (`run_alone`).
-/

namespace ClusterMaster

/-! ## Algorithm -/

/-- How far a call that begins a pass has come. -/
inductive CallPoint where
  /-- The call has not been made. -/
  | waiting
  /-- It has the setup. -/
  | entered
  /-- It has taken a number. -/
  | numbered (pass : Nat)
  /-- It has seen that no shard is unfinished. -/
  | cleared (pass : Nat)
  /-- It knows whether its pass is the first one. -/
  | opened (pass : Nat) (first : Bool)
  /-- It has dealt groups out to shards. -/
  | planned (plan : PassPlan)
  /-- It has written down how many shards there are, and has some left to spawn. -/
  | spawning (plan : PassPlan) (left : List (List String))
  /-- It is about to give the setup back. -/
  | leaving
  | returned

/-- A pass that was started by a call. -/
structure Launch where
  call : Nat
  plan : PassPlan
  deriving DecidableEq

inductive ShardStage where
  | spawned
  | running
  | ended
  deriving DecidableEq

/-- A shard that a pass has spawned. -/
structure Shard where
  launch : Launch
  names : List String
  stage : ShardStage := .spawned
  deriving DecidableEq

/-- A master with the passes that were started and the shards they have spawned, both in order. -/
structure Works where
  master : Master
  launches : List Launch := []
  shards : List Shard := []

/-- The works, with any number of calls on their way and the one of them that has the setup. -/
structure Concurrent extends Works where
  setup : Option Nat := none
  calls : Nat → CallPoint := fun _ => .waiting

namespace Shard

def isUnfinished (t : Shard) : Bool := t.stage != .ended

/-- What a shard is spawned for. -/
def origin (t : Shard) : Launch × List String := (t.launch, t.names)

end Shard

/-- The shards a pass has when all of them are spawned. -/
def Launch.origins (l : Launch) : List (Launch × List String) :=
  l.plan.shards.map fun names => (l, names)

/-- The groups a pass balances: all of them if it is the first one. -/
def Master.dueFor (m : Master) (first : Bool) : List String × Master :=
  if first then (m.groups.names, m) else m.groupsDue

/-- The next step of a call that has the setup. -/
def Works.proceed (w : Works) (call : Nat) : CallPoint → CallPoint × Works
  | .entered =>
    (.numbered (w.master.lastPass + 1),
      { w with master := { w.master with lastPass := w.master.lastPass + 1 } })
  | .numbered pass => (if w.master.inFlight ≠ 0 then .leaving else .cleared pass, w)
  | .cleared pass =>
    (.opened pass w.master.firstPass, { w with master := { w.master with firstPass := false } })
  | .opened pass first =>
    let due := w.master.dueFor first
    (if due.1 = [] then .leaving else .planned { pass, first, shards := due.2.shardsOf due.1 },
      { w with master := due.2 })
  | .planned plan =>
    (.spawning plan plan.shards,
      { w with
        master := { w.master with inFlight := plan.shards.length }
        launches := w.launches ++ [{ call, plan }] })
  | .spawning plan (names :: left) =>
    (.spawning plan left, { w with shards := w.shards ++ [{ launch := { call, plan }, names }] })
  | .spawning _ [] => (.leaving, w)
  | point => (point, w)

/-- A shard at some stage goes on to the next one, which does something to the master. -/
def Works.stage (w : Works) (k : Nat) (stage next : ShardStage) (f : Launch → Master → Master) :
    Works :=
  match w.shards[k]? with
  | some t =>
    if t.stage = stage then
      { w with master := f t.launch w.master, shards := w.shards.set k { t with stage := next } }
    else w
  | none => w

namespace Concurrent

/-- A fresh master. -/
def fresh (settings : Settings) (store : Store) : Concurrent := { master := { settings, store } }

/-- The next step of a call. -/
def advance (σ : Concurrent) (call : Nat) : Concurrent :=
  match σ.calls call with
  | .waiting =>
    match σ.setup with
    | some _ => { σ with calls := Function.update σ.calls call .returned }
    | none => { σ with setup := some call, calls := Function.update σ.calls call .entered }
  | .leaving => { σ with setup := none, calls := Function.update σ.calls call .returned }
  | point =>
    { σ with
      toWorks := (σ.proceed call point).2
      calls := Function.update σ.calls call (σ.proceed call point).1 }

/-- What can happen next. -/
inductive Action where
  /-- A call takes its next step. -/
  | advance (call : Nat)
  /-- A shard that was spawned begins to run. -/
  | start (shard : Nat)
  /-- A shard queues what it makes of a picture of its groups, and ends. -/
  | finish (shard : Nat) (b : Balancer) (view : ShardView)
  /-- A shard breaks off. -/
  | fail (shard : Nat)
  /-- Something else changes the master, such as what a shard queues before it breaks off. -/
  | other (m : Master)

/-- Passes and their shards alone change the number of the last pass, how many shards are
unfinished, and which pass is the first. -/
structure SamePasses (m m' : Master) : Prop where
  lastPass : m'.lastPass = m.lastPass
  inFlight : m'.inFlight = m.inFlight
  firstPass : m'.firstPass = m.firstPass

instance (m m' : Master) : Decidable (SamePasses m m') :=
  decidable_of_iff
    (m'.lastPass = m.lastPass ∧ m'.inFlight = m.inFlight ∧ m'.firstPass = m.firstPass)
    ⟨fun ⟨h₁, h₂, h₃⟩ => ⟨h₁, h₂, h₃⟩, fun h => ⟨h.lastPass, h.inFlight, h.firstPass⟩⟩

/-- What an action leads to; one that is not possible changes nothing. -/
def step (σ : Concurrent) : Action → Concurrent
  | .advance call => σ.advance call
  | .start k => { σ with toWorks := σ.stage k .spawned .running fun _ m => m }
  | .finish k b view =>
    { σ with toWorks := σ.stage k .running .ended fun l m => m.finishShard b l.plan view }
  | .fail k => { σ with toWorks := σ.stage k .running .ended fun _ m => m.endShard }
  | .other m => if SamePasses σ.master m then { σ with master := m } else σ

def run (σ : Concurrent) (actions : List Action) : Concurrent := actions.foldl step σ

end Concurrent

/-- Neither way of selecting groups touches the counters. -/
theorem Master.dueFor_counters (m : Master) (first : Bool) :
    (m.dueFor first).2.lastPass = m.lastPass ∧ (m.dueFor first).2.inFlight = m.inFlight := by
  unfold dueFor
  split
  · exact ⟨rfl, rfl⟩
  · obtain ⟨events, he, -⟩ := m.groupsDue_spec
    rw [he]
    exact ⟨rfl, rfl⟩

theorem proceed_opened (w : Works) (call pass : Nat) (first : Bool) :
    w.proceed call (.opened pass first) =
      (if (w.master.dueFor first).1 = [] then .leaving
        else .planned { pass, first, shards :=
          (w.master.dueFor first).2.shardsOf (w.master.dueFor first).1 },
        { w with master := (w.master.dueFor first).2 }) :=
  rfl

/-! ## A call that is left alone -/

section Alone

variable {w w' : Works} {call : Nat} {point : CallPoint} {σ : Concurrent}

/-- From some point on, the steps of a call that has the setup come to this when it leaves. -/
inductive LeavesWith (call : Nat) : CallPoint → Works → Works → Prop
  | leave (w : Works) : LeavesWith call .leaving w w
  | step {point : CallPoint} {w w' : Works} (inside : point ≠ .waiting) (stays : point ≠ .leaving)
    (rest : LeavesWith call (w.proceed call point).1 (w.proceed call point).2 w') :
    LeavesWith call point w w'

theorem LeavesWith.spawning (call : Nat) (plan : PassPlan) (left : List (List String)) (w : Works) :
    LeavesWith call (.spawning plan left) w
      { w with shards := w.shards ++ left.map fun names => ⟨⟨call, plan⟩, names, .spawned⟩ } := by
  induction left generalizing w with
  | nil =>
    refine .step (by simp) (by simp) ?_
    rw [List.map_nil, List.append_nil]
    exact .leave w
  | cons names left ih =>
    refine .step (by simp) (by simp) ?_
    have hrest := ih { w with shards := w.shards ++ [⟨⟨call, plan⟩, names, .spawned⟩] }
    rwa [List.append_assoc] at hrest

theorem Master.shardsOf_eq_nil {m : Master} {names : List String} :
    m.shardsOf names = [] ↔ names = [] := by
  constructor
  · intro h
    rw [← m.flatten_shardsOf names, h, List.flatten_nil]
  · rintro rfl
    unfold shardsOf chunks
    exact dif_pos (.inl rfl)

theorem Master.beginPass_of_ne_zero {m : Master} (h : m.inFlight ≠ 0) : m.beginPass =
    ({ pass := m.lastPass + 1, first := false, shards := [] },
      { m with lastPass := m.lastPass + 1 }) :=
  if_pos h

theorem Master.beginPass_of_zero {m : Master} (h : m.inFlight = 0) : m.beginPass =
    ({ pass := m.lastPass + 1, first := m.firstPass,
       shards := (m.numbered.dueFor m.firstPass).2.shardsOf (m.numbered.dueFor m.firstPass).1 },
      { (m.numbered.dueFor m.firstPass).2 with
        inFlight := ((m.numbered.dueFor m.firstPass).2.shardsOf
          (m.numbered.dueFor m.firstPass).1).length }) :=
  if_neg (not_not.mpr h)

/-- The works once a call has come back that was alone at the setup. -/
def Works.afterCall (w : Works) (call : Nat) : Works :=
  let plan := w.master.beginPass.1
  { master := w.master.beginPass.2
    launches := w.launches ++ if plan.shards = [] then [] else [{ call, plan }]
    shards := w.shards ++ plan.shards.map fun names => { launch := { call, plan }, names } }

theorem afterCall_of_ne_zero (h : w.master.inFlight ≠ 0) : w.afterCall call =
    { w with master := { w.master with lastPass := w.master.lastPass + 1 } } := by
  simp [Works.afterCall, Master.beginPass_of_ne_zero h]

/-- A call that finds no group to balance starts no pass, and one that does starts one. -/
theorem leavesWith_opened (h : w.master.inFlight = 0) :
    LeavesWith call (.opened (w.master.lastPass + 1) w.master.firstPass)
      { w with master := w.master.numbered } (w.afterCall call) := by
  have hbegin := Master.beginPass_of_zero h
  have hzero := (w.master.numbered.dueFor_counters w.master.firstPass).2.trans h
  generalize hdue : w.master.numbered.dueFor w.master.firstPass = due at hbegin hzero
  refine .step (by simp) (by simp) ?_
  rw [proceed_opened, hdue]
  by_cases hnone : due.1 = []
  · have hshards : due.2.shardsOf due.1 = [] := Master.shardsOf_eq_nil.mpr hnone
    have hafter : w.afterCall call = { w with master := due.2 } := by
      simp [Works.afterCall, hbegin, hshards, ← hzero]
    rw [if_pos hnone, hafter]
    exact .leave _
  · have hshards : due.2.shardsOf due.1 ≠ [] := mt Master.shardsOf_eq_nil.mp hnone
    have hafter : w.afterCall call =
        { master := { due.2 with inFlight := (due.2.shardsOf due.1).length }
          launches := w.launches ++ [⟨call, w.master.beginPass.1⟩]
          shards := w.shards ++ (due.2.shardsOf due.1).map fun names =>
            ⟨⟨call, w.master.beginPass.1⟩, names, .spawned⟩ } := by
      simp [Works.afterCall, hbegin, hshards]
    rw [if_neg hnone, hafter, hbegin]
    exact .step (by simp) (by simp) (.spawning call _ _ _)

/-- The steps of a call inside the setup come to a whole pass that begins. -/
theorem leavesWith_afterCall (w : Works) (call : Nat) :
    LeavesWith call .entered w (w.afterCall call) := by
  refine .step (by simp) (by simp) (.step (by simp [Works.proceed]) (by simp [Works.proceed]) ?_)
  show LeavesWith call
    (if w.master.inFlight ≠ 0 then .leaving else .cleared (w.master.lastPass + 1))
    { w with master := { w.master with lastPass := w.master.lastPass + 1 } } (w.afterCall call)
  by_cases hin : w.master.inFlight = 0
  · rw [if_neg (not_not.mpr hin)]
    exact .step (by simp) (by simp) (leavesWith_opened hin)
  · rw [if_pos hin, afterCall_of_ne_zero hin]
    exact .leave _

theorem advance_of_proceed (hwaiting : point ≠ .waiting) (hleaving : point ≠ .leaving)
    (hpoint : σ.calls call = point) : σ.advance call =
      { σ with
        toWorks := (σ.proceed call point).2
        calls := Function.update σ.calls call (σ.proceed call point).1 } := by
  subst hpoint
  unfold Concurrent.advance
  split
  · rename_i h
    exact absurd h hwaiting
  · rename_i h
    exact absurd h hleaving
  · rfl

/-- A call that has the setup and goes on alone. -/
theorem LeavesWith.run (h : LeavesWith call point w w') : ∀ σ : Concurrent, σ.toWorks = w →
    σ.calls call = point → ∃ n, σ.run (List.replicate n (.advance call)) =
      { σ with toWorks := w', setup := none, calls := Function.update σ.calls call .returned } := by
  induction h with
  | leave w =>
    rintro σ rfl hpoint
    refine ⟨1, ?_⟩
    show σ.advance call = _
    unfold Concurrent.advance
    rw [hpoint]
  | @step point w w' inside stays rest ih =>
    rintro σ rfl hpoint
    obtain ⟨n, hn⟩ := ih (σ.advance call)
      (by rw [advance_of_proceed inside stays hpoint])
      (by rw [advance_of_proceed inside stays hpoint]; exact Function.update_self ..)
    refine ⟨n + 1, ?_⟩
    show (σ.advance call).run (List.replicate n (.advance call)) = _
    rw [hn, advance_of_proceed inside stays hpoint]
    simp

/-- A call that is made while the setup is free, and is left alone, does what `beginPass` says and
spawns the shards of that pass. -/
theorem run_alone (hwaiting : σ.calls call = .waiting) (hfree : σ.setup = none) :
    ∃ n, σ.run (List.replicate n (.advance call)) =
      { σ with
        toWorks := σ.afterCall call
        calls := Function.update σ.calls call .returned } := by
  have hentered : σ.advance call =
      { σ with setup := some call, calls := Function.update σ.calls call .entered } := by
    unfold Concurrent.advance
    rw [hwaiting, hfree]
  obtain ⟨n, hn⟩ := (leavesWith_afterCall σ.toWorks call).run (σ.advance call) (by rw [hentered])
    (by rw [hentered]; exact Function.update_self ..)
  refine ⟨n + 1, ?_⟩
  show (σ.advance call).run (List.replicate n (.advance call)) = _
  rw [hn, hentered]
  simp [hfree]

end Alone

end ClusterMaster
