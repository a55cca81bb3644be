import ClusterMaster.Proofs.SideBySide

/-!
# Passes never overlap

However calls that begin passes, the shards of these passes and everything else take turns, one
account holds (`Tally`): the shards that the master counts are those that are spawned and have not
ended, and those that the call at the setup has still to spawn. A pass is only started when none
are counted, so those that have not ended are always of the last pass that was started, and who
looks at the counter while there are any goes away. A call takes its time: shards that were there
when it tried for the setup may have ended when it looks at the counter, and then it goes on.

    one step of a call inside the setup keeps the account                        (Tally.proceed)
    one action of anybody keeps it                                            (Orderly.stepped)
    any actions of a fresh master: passes never overlap                          (neverOverlap)
-/

namespace ClusterMaster

/-! ## The account of the works -/

/-- The shards that are still to be spawned by a call. -/
def leftBy : Nat × CallPoint → List (Launch × List String)
  | (call, .spawning plan left) => left.map fun names => ({ call, plan }, names)
  | _ => []

/-- The number of a pass that has not been started is a new one. -/
structure NewPass (w : Works) (pass : Nat) : Prop where
  le : pass ≤ w.master.lastPass
  gt : ∀ l ∈ w.launches, l.plan.pass < pass

/-- What a call with the setup can rely on. -/
def Stands (w : Works) : Nat × CallPoint → Prop
  | (_, .numbered pass) => NewPass w pass
  | (_, .cleared pass) | (_, .opened pass _) => NewPass w pass ∧ w.master.inFlight = 0
  | (_, .planned plan) => NewPass w plan.pass ∧ w.master.inFlight = 0
  | (call, .spawning plan _) => w.launches.getLast? = some { call, plan }
  | _ => True

theorem Stands.mono {w : Works} {h : Nat × CallPoint} (hs : Stands w h) (w' : Works)
    (hlaunches : w'.launches = w.launches) (hpass : w.master.lastPass ≤ w'.master.lastPass)
    (hzero : w.master.inFlight = 0 → w'.master.inFlight = 0) : Stands w' h := by
  have hnew {pass : Nat} (hn : NewPass w pass) : NewPass w' pass :=
    ⟨Nat.le_trans hn.le hpass, hlaunches ▸ hn.gt⟩
  obtain ⟨call, point⟩ := h
  cases point with
  | numbered => exact hnew hs
  | cleared | opened | planned => exact ⟨hnew hs.1, hzero hs.2⟩
  | spawning plan left =>
    show w'.launches.getLast? = _
    rw [hlaunches]
    exact hs
  | _ => trivial

/-- How the counters of the master go with the passes and shards, when a call may have the setup. -/
structure Tally (w : Works) (holder : Option (Nat × CallPoint)) : Prop where
  /-- Unfinished are the shards that have not ended, and those still to be spawned. -/
  counter : w.master.inFlight =
    w.shards.countP Shard.isUnfinished + (holder.elim [] leftBy).length
  /-- A shard that has not ended is one of the last pass that was started. -/
  latest : ∀ t ∈ w.shards, t.isUnfinished = true → w.launches.getLast? = some t.launch
  /-- The shards of all passes are spawned in order. -/
  spawned : w.shards.map Shard.origin ++ holder.elim [] leftBy = w.launches.flatMap Launch.origins
  ascending : w.launches.Pairwise fun l l' => l.plan.pass < l'.plan.pass
  numbered : ∀ l ∈ w.launches, l.plan.pass ≤ w.master.lastPass
  stands : ∀ h ∈ holder, Stands w h

/-- One element of a list in the place of another. -/
theorem exists_set_eq {α : Type} {l : List α} {k : Nat} {a : α} (h : l[k]? = some a) (b : α) :
    ∃ before after, l = before ++ a :: after ∧ l.set k b = before ++ b :: after := by
  obtain ⟨hk, rfl⟩ := List.getElem?_eq_some_iff.mp h
  refine ⟨l.take k, l.drop (k + 1), ?_, ?_⟩
  · rw [← List.drop_eq_getElem_cons hk, List.take_append_drop]
  · rw [List.set_eq_take_append_cons_drop, if_pos hk]

namespace Tally

variable {w : Works} {call : Nat} {point : CallPoint} {holder holder' : Option (Nat × CallPoint)}

/-- The account knows of a call only what it has left to spawn, and what it relies on. -/
theorem of_holder (h : Tally w holder) (hleft : holder'.elim [] leftBy = holder.elim [] leftBy)
    (hstands : ∀ h ∈ holder', Stands w h) : Tally w holder' where
  counter := by rw [hleft, h.counter]
  latest := h.latest
  spawned := by rw [hleft, h.spawned]
  ascending := h.ascending
  numbered := h.numbered
  stands := hstands

theorem of_point {point' : CallPoint} (h : Tally w (some (call, point)))
    (hleft : leftBy (call, point') = leftBy (call, point)) (hstands : Stands w (call, point')) :
    Tally w (some (call, point')) :=
  h.of_holder hleft fun _ hh => Option.mem_some.mp hh ▸ hstands

theorem isUnfinished_eq_false (h : Tally w holder) (hzero : w.master.inFlight = 0) :
    ∀ t ∈ w.shards, t.isUnfinished = false := by
  have hcount : w.shards.countP Shard.isUnfinished = 0 := by
    have := h.counter
    omega
  intro t ht
  exact Bool.eq_false_iff.mpr (List.countP_eq_zero.mp hcount t ht)

/-- A master in its place that counts its passes and shards alike. -/
theorem of_master {m : Master} (h : Tally w holder) (hpass : m.lastPass = w.master.lastPass)
    (hflight : m.inFlight = w.master.inFlight) : Tally { w with master := m } holder where
  counter := hflight.trans h.counter
  latest := h.latest
  spawned := h.spawned
  ascending := h.ascending
  numbered l hl := Nat.le_trans (h.numbered l hl) (Nat.le_of_eq hpass.symm)
  stands g hg := (h.stands g hg).mono _ rfl (Nat.le_of_eq hpass.symm) hflight.trans

/-- A shard that has not ended is counted. -/
theorem inFlight_pos (h : Tally w holder) {t : Shard} (ht : t ∈ w.shards)
    (hunfinished : t.isUnfinished = true) : 0 < w.master.inFlight := by
  refine Nat.pos_of_ne_zero fun hzero => ?_
  rw [h.isUnfinished_eq_false hzero t ht] at hunfinished
  cases hunfinished

/-- A shard goes on to another stage, and is counted as long as it has not ended. -/
theorem of_set {m : Master} {k : Nat} {t u : Shard} (h : Tally w holder)
    (ht : w.shards[k]? = some t) (horigin : u.origin = t.origin) (hstage : t.isUnfinished = true)
    (hpass : m.lastPass = w.master.lastPass)
    (hflight : m.inFlight = w.master.inFlight - (1 - u.isUnfinished.toNat)) :
    Tally { w with master := m, shards := w.shards.set k u } holder := by
  obtain ⟨before, after, hbefore, hafter⟩ := exists_set_eq ht u
  have hpos := h.inFlight_pos (List.mem_of_getElem? ht) hstage
  constructor
  case counter =>
    have hcounter := h.counter
    rw [hbefore] at hcounter
    show m.inFlight = (w.shards.set k u).countP Shard.isUnfinished + _
    rw [hafter]
    simp only [List.countP_append, List.countP_cons, hstage, if_true] at hcounter ⊢
    cases hu : u.isUnfinished <;> simp [hu] at * <;> omega
  case latest =>
    have hlatest := h.latest
    rw [hbefore] at hlatest
    show ∀ v ∈ w.shards.set k u, v.isUnfinished = true → w.launches.getLast? = some v.launch
    rw [hafter]
    simp only [List.forall_mem_append, List.forall_mem_cons] at hlatest ⊢
    have hlaunch : u.launch = t.launch := congrArg Prod.fst horigin
    refine ⟨hlatest.1, fun _ => ?_, hlatest.2.2⟩
    rw [hlatest.2.1 hstage, hlaunch]
  case spawned =>
    have hspawned := h.spawned
    rw [hbefore] at hspawned
    show (w.shards.set k u).map Shard.origin ++ _ = _
    rw [hafter, ← hspawned, List.map_append, List.map_append, List.map_cons, List.map_cons, horigin]
  case ascending => exact h.ascending
  case numbered => exact fun l hl => Nat.le_trans (h.numbered l hl) (Nat.le_of_eq hpass.symm)
  case stands =>
    exact fun g hg => (h.stands g hg).mono _ rfl (Nat.le_of_eq hpass.symm) fun hzero =>
      absurd hzero (Nat.ne_of_gt hpos)

/-- A pass is started while no shard is unfinished: its shards are counted before they are
spawned. -/
theorem start {plan : PassPlan} (h : Tally w (some (call, .planned plan))) :
    Tally (w.proceed call (.planned plan)).2 (some (call, .spawning plan plan.shards)) := by
  obtain ⟨hnew, hzero⟩ : NewPass w plan.pass ∧ w.master.inFlight = 0 := h.stands _ rfl
  have hended := h.isUnfinished_eq_false hzero
  constructor
  case counter =>
    have hnone : w.shards.countP Shard.isUnfinished = 0 :=
      List.countP_eq_zero.mpr fun t ht => Bool.eq_false_iff.mp (hended t ht)
    show plan.shards.length = w.shards.countP Shard.isUnfinished +
      (plan.shards.map fun names => (({ call, plan } : Launch), names)).length
    rw [hnone, List.length_map, Nat.zero_add]
  case latest =>
    intro t ht hunfinished
    rw [hended t ht] at hunfinished
    cases hunfinished
  case spawned =>
    have hspawned : w.shards.map Shard.origin ++ [] = w.launches.flatMap Launch.origins :=
      h.spawned
    show w.shards.map Shard.origin ++ leftBy (call, .spawning plan plan.shards) =
      (w.launches ++ [({ call, plan } : Launch)]).flatMap Launch.origins
    rw [List.flatMap_append, ← hspawned, List.append_nil, List.flatMap_singleton]
    rfl
  case ascending =>
    refine List.pairwise_append.mpr ⟨h.ascending, List.pairwise_singleton _ _, ?_⟩
    rintro l hl _ (_ | ⟨_, ⟨⟩⟩)
    exact hnew.gt l hl
  case numbered =>
    intro l hl
    rcases List.mem_append.mp hl with hl | hl
    · exact h.numbered l hl
    · rw [List.mem_singleton.mp hl]
      exact hnew.le
  case stands =>
    rintro _ ⟨⟩
    exact List.getLast?_concat ..

/-- A shard that is spawned has been counted before. -/
theorem spawn {plan : PassPlan} {names : List String} {left : List (List String)}
    (h : Tally w (some (call, .spawning plan (names :: left)))) :
    Tally (w.proceed call (.spawning plan (names :: left))).2
      (some (call, .spawning plan left)) := by
  have hlast : w.launches.getLast? = some { call, plan } := h.stands _ rfl
  constructor
  case counter =>
    have hcounter : w.master.inFlight = w.shards.countP Shard.isUnfinished +
      (leftBy (call, .spawning plan (names :: left))).length := h.counter
    show w.master.inFlight = (w.shards ++ [_]).countP Shard.isUnfinished +
      (leftBy (call, .spawning plan left)).length
    rw [hcounter, List.countP_append]
    simp [leftBy, Shard.isUnfinished]
    omega
  case latest =>
    intro t ht hunfinished
    rcases List.mem_append.mp ht with ht | ht
    · exact h.latest t ht hunfinished
    · rw [List.mem_singleton.mp ht]
      exact hlast
  case spawned =>
    show (w.shards ++ [_]).map Shard.origin ++ leftBy (call, .spawning plan left) = _
    rw [List.map_append, List.append_assoc]
    exact h.spawned
  case ascending => exact h.ascending
  case numbered => exact h.numbered
  case stands =>
    rintro _ ⟨⟩
    exact hlast

/-- A step of a call inside the setup keeps the account. -/
theorem proceed (h : Tally w (some (call, point))) :
    Tally (w.proceed call point).2 (some (call, (w.proceed call point).1)) := by
  have hstands : Stands w (call, point) := h.stands _ rfl
  cases point with
  | waiting | leaving | returned => exact h
  | entered =>
    refine ⟨h.counter, h.latest, h.spawned, h.ascending, fun l hl => ?_, ?_⟩
    · exact Nat.le_succ_of_le (h.numbered l hl)
    · rintro _ ⟨⟩
      exact ⟨Nat.le_refl _, fun l hl => Nat.lt_succ_of_le (h.numbered l hl)⟩
  | numbered pass =>
    show Tally w (some (call, if w.master.inFlight ≠ 0 then .leaving else .cleared pass))
    split
    · exact h.of_point rfl trivial
    · rename_i hzero
      exact h.of_point rfl ⟨hstands, not_not.mp hzero⟩
  | cleared pass =>
    have hmaster : Tally { w with master := { w.master with firstPass := false } }
        (some (call, .cleared pass)) := h.of_master rfl rfl
    have hcleared := hmaster.stands _ rfl
    exact hmaster.of_point rfl hcleared
  | opened pass first =>
    obtain ⟨hpass, hflight⟩ := w.master.dueFor_counters first
    have hmaster := h.of_master hpass hflight
    have hopened : Stands { w with master := (w.master.dueFor first).2 }
      (call, .opened pass first) := hmaster.stands _ rfl
    rw [proceed_opened]
    split
    · exact hmaster.of_point rfl trivial
    · exact hmaster.of_point rfl hopened
  | planned plan => exact h.start
  | spawning plan left =>
    cases left with
    | nil => exact h.of_point rfl trivial
    | cons names left => exact h.spawn

end Tally

/-! ## One action -/

namespace CallPoint

/-- The call has the setup. -/
def isInside : CallPoint → Bool
  | .waiting | .returned => false
  | _ => true

/-- The call has not spawned anything yet. -/
def isEarly : CallPoint → Bool
  | .spawning _ _ | .leaving | .returned => false
  | _ => true

/-- The call spawns nothing any more, or not as long as shards are unfinished. -/
def isBarred (busy : Bool) : CallPoint → Bool
  | .leaving | .returned => true
  | .waiting | .entered | .numbered _ => busy
  | _ => false

end CallPoint

theorem leftBy_of_isEarly {point : CallPoint} (call : Nat) (h : point.isEarly = true) :
    leftBy (call, point) = [] := by
  cases point with
  | spawning => cases h
  | _ => rfl

theorem leftBy_of_isBarred {point : CallPoint} {busy : Bool} (call : Nat)
    (h : point.isBarred busy = true) : leftBy (call, point) = [] := by
  cases point with
  | spawning => cases h
  | _ => rfl

section Proceed

variable (w : Works) (call : Nat) {point : CallPoint}

theorem isInside_proceed (hinside : point.isInside = true) (hstays : point ≠ .leaving) :
    (w.proceed call point).1.isInside = true := by
  cases point with
  | waiting | returned => cases hinside
  | leaving => exact absurd rfl hstays
  | numbered pass =>
    show (if w.master.inFlight ≠ 0 then CallPoint.leaving else .cleared pass).isInside = true
    split <;> rfl
  | opened pass first =>
    rw [proceed_opened]
    split <;> rfl
  | spawning plan left => cases left <;> rfl
  | _ => rfl

theorem isEarly_of_proceed (h : (w.proceed call point).1.isEarly = true) :
    point.isEarly = true := by
  cases point with
  | spawning plan left => cases left <;> cases h
  | leaving | returned => cases h
  | _ => rfl

/-- A call that has no shards left to spawn spawns none. -/
theorem call_ne_of_proceed {i : Nat} (h : ∀ t ∈ w.shards, t.launch.call ≠ i)
    (hnone : i = call → leftBy (call, point) = []) :
    ∀ t ∈ (w.proceed call point).2.shards, t.launch.call ≠ i := by
  cases point with
  | spawning plan left =>
    cases left with
    | nil => exact h
    | cons names left =>
      intro t ht
      rcases List.mem_append.mp ht with ht | ht
      · exact h t ht
      · rw [List.mem_singleton.mp ht]
        rintro rfl
        exact absurd (hnone rfl) (List.cons_ne_nil _ _)
  | _ => exact h

theorem shards_proceed (point : CallPoint) :
    ∃ new, (w.proceed call point).2.shards = w.shards ++ new := by
  cases point with
  | spawning plan left =>
    cases left with
    | nil => exact ⟨[], (List.append_nil _).symm⟩
    | cons names left => exact ⟨_, rfl⟩
  | _ => exact ⟨[], (List.append_nil _).symm⟩

/-- While shards are unfinished, no call gets past the look at them. -/
theorem isBarred_proceed {busy : Bool} (hbusy : busy = true → w.master.inFlight ≠ 0)
    (h : point.isBarred busy = true) : (w.proceed call point).1.isBarred busy = true := by
  cases point with
  | numbered pass =>
    show (if w.master.inFlight ≠ 0 then CallPoint.leaving else .cleared pass).isBarred busy = true
    rw [if_pos (hbusy h)]
    rfl
  | waiting | entered | leaving | returned => exact h
  | _ => cases h

end Proceed

namespace Concurrent

variable {σ τ : Concurrent} {call i k : Nat} {a : Action} {t u : Shard}

/-- The step of a call, by what it finds. -/
inductive Advanced (σ : Concurrent) (call : Nat) : Concurrent → Prop
  /-- Another call has the setup. -/
  | refused (waiting : σ.calls call = .waiting) (held : σ.setup ≠ none) :
    Advanced σ call { σ with calls := Function.update σ.calls call .returned }
  | entered (waiting : σ.calls call = .waiting) (free : σ.setup = none) :
    Advanced σ call
      { σ with setup := some call, calls := Function.update σ.calls call .entered }
  | proceeded (inside : (σ.calls call).isInside = true) (stays : σ.calls call ≠ .leaving) :
    Advanced σ call
      { σ with
        toWorks := (σ.proceed call (σ.calls call)).2
        calls := Function.update σ.calls call (σ.proceed call (σ.calls call)).1 }
  | left (leaving : σ.calls call = .leaving) :
    Advanced σ call { σ with setup := none, calls := Function.update σ.calls call .returned }
  | gone (returned : σ.calls call = .returned) : Advanced σ call σ

theorem advanced (σ : Concurrent) (call : Nat) : Advanced σ call (σ.advance call) := by
  unfold advance
  split
  · rename_i hwaiting
    split
    · rename_i hheld
      exact .refused hwaiting (by rw [hheld]; exact Option.some_ne_none _)
    · rename_i hfree
      exact .entered hwaiting hfree
  · rename_i hleaving
    exact .left hleaving
  · rename_i hwaiting hleaving
    by_cases hinside : (σ.calls call).isInside = true
    · exact .proceeded hinside hleaving
    · have hreturned : σ.calls call = .returned := by
        cases hpoint : σ.calls call with
        | waiting => exact absurd hpoint hwaiting
        | returned => rfl
        | _ =>
          rw [hpoint] at hinside
          exact absurd rfl hinside
      have hsame : Function.update σ.calls call .returned = σ.calls := by
        rw [← hreturned, Function.update_eq_self]
      rw [hreturned]
      simp only [Works.proceed, hsame]
      exact .gone hreturned

/-- What an action does to the works and the calls. -/
inductive Stepped (σ : Concurrent) : Action → Concurrent → Prop
  | idle (a : Action) : Stepped σ a σ
  | advanced (call : Nat) : Stepped σ (.advance call) (σ.advance call)
  /-- A shard goes on, and is counted as long as it has not ended. -/
  | staged {a : Action} {k : Nat} {t u : Shard} {m : Master} (found : σ.shards[k]? = some t)
    (origin : u.origin = t.origin) (stage : t.isUnfinished = true)
    (lastPass : m.lastPass = σ.master.lastPass)
    (counter : m.inFlight = σ.master.inFlight - (1 - u.isUnfinished.toNat)) :
    Stepped σ a { σ with master := m, shards := σ.shards.set k u }
  | other {m : Master} (same : SamePasses σ.master m) :
    Stepped σ (.other m) { σ with master := m }

/-- A shard goes on from a stage before its end. -/
theorem Stepped.of_stage (σ : Concurrent) (a : Action) (k : Nat) {stage next : ShardStage}
    {f : Launch → Master → Master} (hstage : stage ≠ .ended)
    (hpass : ∀ l, (f l σ.master).lastPass = σ.master.lastPass)
    (hflight : ∀ l, (f l σ.master).inFlight =
      σ.master.inFlight - (1 - (next != .ended).toNat)) :
    Stepped σ a { σ with toWorks := σ.stage k stage next f } := by
  unfold Works.stage
  split
  · rename_i t hfound
    split
    · rename_i hat
      have hunfinished : t.isUnfinished = true := by
        rw [Shard.isUnfinished, hat]
        exact bne_iff_ne.mpr hstage
      exact .staged hfound rfl hunfinished (hpass _) (hflight _)
    · exact .idle a
  · exact .idle a

theorem stepped (σ : Concurrent) (a : Action) : Stepped σ a (σ.step a) := by
  cases a with
  | advance call => exact .advanced call
  | start k => exact .of_stage σ _ k (by decide) (fun _ => rfl) fun _ => rfl
  | finish k b view =>
    refine .of_stage σ _ k (by decide) (fun l => ?_) fun l => ?_
    · rw [Master.finishShard_eq]
    · rw [Master.finishShard_eq]
      rfl
  | fail k => exact .of_stage σ _ k (by decide) (fun _ => rfl) fun _ => rfl
  | other m =>
    show Stepped σ _ (if SamePasses σ.master m then { σ with master := m } else σ)
    split
    · rename_i hsame
      exact .other hsame
    · exact .idle _

/-- The call that has the setup, and how far it is. -/
def holder (σ : Concurrent) : Option (Nat × CallPoint) := σ.setup.map fun i => (i, σ.calls i)

/-- The setup is had by the one call that is inside, the account is right, and a call that is early
has no shards. -/
structure Orderly (σ : Concurrent) : Prop where
  lock : ∀ i, (σ.calls i).isInside = true ↔ σ.setup = some i
  tally : Tally σ.toWorks σ.holder
  early : ∀ i, (σ.calls i).isEarly = true → ∀ t ∈ σ.shards, t.launch.call ≠ i

/-- A call that goes on without entering or leaving leaves the setup with whom it was. -/
theorem lock_update (h : ∀ i, (σ.calls i).isInside = true ↔ σ.setup = some i) {point : CallPoint}
    (hsame : point.isInside = (σ.calls call).isInside) (i : Nat) :
    (Function.update σ.calls call point i).isInside = true ↔ σ.setup = some i := by
  by_cases hi : i = call
  · rw [hi, Function.update_self, hsame]
    exact h call
  · rw [Function.update_of_ne hi]
    exact h i

/-- A call that is early no more leaves the others as early as they were. -/
theorem early_update (h : ∀ i, (σ.calls i).isEarly = true → ∀ t ∈ σ.shards, t.launch.call ≠ i)
    {point : CallPoint} (hlate : point.isEarly = false) (i : Nat)
    (hi : (Function.update σ.calls call point i).isEarly = true) :
    ∀ t ∈ σ.shards, t.launch.call ≠ i := by
  by_cases hic : i = call
  · rw [hic, Function.update_self, hlate] at hi
    cases hi
  · rw [Function.update_of_ne hic] at hi
    exact h i hi

namespace Orderly

theorem refused (h : σ.Orderly) (hwaiting : σ.calls call = .waiting) :
    Orderly { σ with calls := Function.update σ.calls call .returned } := by
  have houtside : σ.setup ≠ some call := fun hs => by
    have hinside := (h.lock call).mpr hs
    rw [hwaiting] at hinside
    cases hinside
  constructor
  case lock => exact lock_update h.lock (by rw [hwaiting]; rfl)
  case tally =>
    have hholder : σ.setup.map (fun i => (i, Function.update σ.calls call .returned i)) =
        σ.holder := by
      refine Option.map_congr fun i hi => ?_
      have hne : i ≠ call := fun hic => houtside (hic ▸ hi)
      rw [Function.update_of_ne hne]
    show Tally σ.toWorks (σ.setup.map _)
    rw [hholder]
    exact h.tally
  case early => exact early_update h.early rfl

theorem entered (h : σ.Orderly) (hwaiting : σ.calls call = .waiting) (hfree : σ.setup = none) :
    Orderly { σ with setup := some call, calls := Function.update σ.calls call .entered } := by
  have hout (i : Nat) : (σ.calls i).isInside = false := Bool.eq_false_iff.mpr fun hi => by
    rw [(h.lock i).mp hi] at hfree
    cases hfree
  constructor
  case lock =>
    intro i
    by_cases hi : i = call
    · simp [hi, CallPoint.isInside]
    · simp [Function.update_of_ne hi, hout i, Ne.symm hi]
  case tally =>
    have htally := h.tally
    rw [holder, hfree] at htally
    show Tally σ.toWorks (some (call, Function.update σ.calls call .entered call))
    rw [Function.update_self]
    exact htally.of_holder rfl (by rintro _ ⟨⟩; trivial)
  case early =>
    intro i hi
    change (Function.update σ.calls call .entered i).isEarly = true at hi
    by_cases hic : i = call
    · exact h.early i (by rw [hic, hwaiting]; rfl)
    · rw [Function.update_of_ne hic] at hi
      exact h.early i hi

theorem proceeded (h : σ.Orderly) (hinside : (σ.calls call).isInside = true)
    (hstays : σ.calls call ≠ .leaving) :
    Orderly { σ with
      toWorks := (σ.proceed call (σ.calls call)).2
      calls := Function.update σ.calls call (σ.proceed call (σ.calls call)).1 } := by
  have hsetup : σ.setup = some call := (h.lock call).mp hinside
  constructor
  case lock => exact lock_update h.lock ((isInside_proceed _ _ hinside hstays).trans hinside.symm)
  case tally =>
    have htally := h.tally
    rw [holder, hsetup, Option.map_some] at htally
    have hnext : σ.setup.map (fun i => (i, Function.update σ.calls call
        (σ.proceed call (σ.calls call)).1 i)) =
          some (call, (σ.proceed call (σ.calls call)).1) := by
      rw [hsetup, Option.map_some, Function.update_self]
    show Tally (σ.proceed call (σ.calls call)).2 (σ.setup.map _)
    rw [hnext]
    exact htally.proceed
  case early =>
    intro i hi
    change (Function.update σ.calls call (σ.proceed call (σ.calls call)).1 i).isEarly = true at hi
    by_cases hic : i = call
    · subst hic
      rw [Function.update_self] at hi
      have hearly := isEarly_of_proceed _ _ hi
      exact call_ne_of_proceed _ _ (h.early i hearly) fun _ => leftBy_of_isEarly i hearly
    · rw [Function.update_of_ne hic] at hi
      exact call_ne_of_proceed _ _ (h.early i hi) fun heq => absurd heq hic

theorem left (h : σ.Orderly) (hleaving : σ.calls call = .leaving) :
    Orderly { σ with setup := none, calls := Function.update σ.calls call .returned } := by
  have hsetup : σ.setup = some call := (h.lock call).mp (by rw [hleaving]; rfl)
  constructor
  case lock =>
    intro i
    by_cases hi : i = call
    · simp [hi, CallPoint.isInside]
    · have hout := h.lock i
      rw [hsetup] at hout
      simpa [Function.update_of_ne hi, Ne.symm hi] using hout
  case tally =>
    have htally := h.tally
    rw [holder, hsetup, Option.map_some, hleaving] at htally
    exact htally.of_holder rfl (by rintro _ ⟨⟩)
  case early => exact early_update h.early rfl

theorem advanced (h : σ.Orderly) (hs : Advanced σ call τ) : τ.Orderly := by
  cases hs with
  | refused waiting held => exact h.refused waiting
  | entered waiting free => exact h.entered waiting free
  | proceeded inside stays => exact h.proceeded inside stays
  | left leaving => exact h.left leaving
  | gone returned => exact h

end Orderly

/-- A shard that goes on is still one of the same call. -/
theorem call_ne_of_set {shards : List Shard} (h : ∀ t ∈ shards, t.launch.call ≠ i)
    (found : shards[k]? = some t) (origin : u.origin = t.origin) :
    ∀ v ∈ shards.set k u, v.launch.call ≠ i := by
  intro v hv
  rcases List.mem_or_eq_of_mem_set hv with hv | rfl
  · exact h v hv
  · have hlaunch : v.launch = t.launch := congrArg Prod.fst origin
    rw [hlaunch]
    exact h t (List.mem_of_getElem? found)

/-- One action of anybody keeps the order. -/
theorem Orderly.stepped (h : σ.Orderly) (hs : Stepped σ a τ) : τ.Orderly := by
  cases hs with
  | idle => exact h
  | advanced call => exact h.advanced (σ.advanced call)
  | staged found origin stage lastPass counter =>
    exact ⟨h.lock, h.tally.of_set found origin stage lastPass counter,
      fun i hi => call_ne_of_set (h.early i hi) found origin⟩
  | other same => exact ⟨h.lock, h.tally.of_master same.lastPass same.inFlight, h.early⟩

/-- A shard that was spawned has not ended. -/
def Unfinished (σ : Concurrent) (k : Nat) : Prop :=
  ∃ t, σ.shards[k]? = some t ∧ t.isUnfinished = true

theorem shards_advanced (hs : Advanced σ call τ) : ∃ new, τ.shards = σ.shards ++ new := by
  cases hs with
  | proceeded inside stays => exact shards_proceed _ _ _
  | _ => exact ⟨[], (List.append_nil _).symm⟩

/-- What has ended stays ended. -/
theorem unfinished_of_stepped (hs : Stepped σ a τ) (hk : k < σ.shards.length)
    (hu : τ.Unfinished k) : σ.Unfinished k := by
  obtain ⟨u, hfound, hunfinished⟩ := hu
  cases hs with
  | idle => exact ⟨u, hfound, hunfinished⟩
  | advanced call =>
    obtain ⟨new, hnew⟩ := shards_advanced (σ.advanced call)
    rw [hnew, List.getElem?_append_left hk] at hfound
    exact ⟨u, hfound, hunfinished⟩
  | @staged _ k' t u' m found origin stage lastPass counter =>
    by_cases hkk : k' = k
    · exact ⟨t, hkk ▸ found, stage⟩
    · change (σ.shards.set k' u')[k]? = some u at hfound
      rw [List.getElem?_set_ne hkk] at hfound
      exact ⟨u, hfound, hunfinished⟩
  | other same => exact ⟨u, hfound, hunfinished⟩

theorem length_le_of_stepped (hs : Stepped σ a τ) : σ.shards.length ≤ τ.shards.length := by
  cases hs with
  | idle => exact Nat.le_refl _
  | advanced call =>
    obtain ⟨new, hnew⟩ := shards_advanced (σ.advanced call)
    rw [hnew, List.length_append]
    exact Nat.le_add_right _ _
  | staged => exact Nat.le_of_eq (List.length_set ..).symm
  | other same => exact Nat.le_refl _

/-- A call that has no shards left to spawn has none after a step that it had not before. -/
theorem call_ne_of_stepped (hs : Stepped σ a τ) (h : ∀ t ∈ σ.shards, t.launch.call ≠ i)
    (hnone : leftBy (i, σ.calls i) = []) : ∀ t ∈ τ.shards, t.launch.call ≠ i := by
  cases hs with
  | idle => exact h
  | advanced call =>
    have hadvanced := σ.advanced call
    generalize σ.advance call = τ at hadvanced
    cases hadvanced with
    | proceeded inside stays =>
      exact call_ne_of_proceed _ _ h fun hic => hic ▸ hnone
    | _ => exact h
  | staged found origin stage lastPass counter => exact call_ne_of_set h found origin
  | other same => exact h

/-- A call stays barred, as long as shards are unfinished if it depends on that. -/
theorem isBarred_stepped {busy : Bool} (hs : Stepped σ a τ)
    (hbusy : busy = true → σ.master.inFlight ≠ 0) (h : (σ.calls i).isBarred busy = true) :
    (τ.calls i).isBarred busy = true := by
  cases hs with
  | advanced call =>
    have hadvanced := σ.advanced call
    generalize σ.advance call = τ at hadvanced ⊢
    by_cases hic : i = call
    · subst hic
      cases hadvanced with
      | entered waiting free =>
        rw [waiting] at h
        show (Function.update σ.calls i .entered i).isBarred busy = true
        rw [Function.update_self]
        exact h
      | proceeded inside stays =>
        show (Function.update σ.calls i (σ.proceed i (σ.calls i)).1 i).isBarred busy = true
        rw [Function.update_self]
        exact isBarred_proceed _ _ hbusy h
      | gone returned => exact h
      | _ =>
        show (Function.update σ.calls i .returned i).isBarred busy = true
        rw [Function.update_self]
        rfl
    · have hcalls : τ.calls i = σ.calls i := by
        cases hadvanced with
        | gone => rfl
        | _ => exact Function.update_of_ne hic _ _
      rw [hcalls]
      exact h
  | _ => exact h

/-! ## Any actions -/

theorem Orderly.run (h : σ.Orderly) (actions : List Action) : (σ.run actions).Orderly :=
  List.foldlRecOn actions _ h fun σ hσ a _ => hσ.stepped (σ.stepped a)

theorem orderly_fresh (settings : Settings) (store : Store) : (fresh settings store).Orderly where
  lock i := by simp [fresh, CallPoint.isInside]
  tally := by
    refine ⟨rfl, ?_, rfl, .nil, ?_, ?_⟩ <;> simp [fresh, holder]
  early i _ t ht := by cases ht

theorem unfinished_of_run (actions : List Action) (hk : k < σ.shards.length)
    (hu : (σ.run actions).Unfinished k) : σ.Unfinished k := by
  induction actions generalizing σ with
  | nil => exact hu
  | cons a actions ih =>
    have hstep := σ.stepped a
    have hk' := Nat.lt_of_lt_of_le hk (length_le_of_stepped hstep)
    exact unfinished_of_stepped hstep hk (ih hk' hu)

theorem Orderly.inFlight_ne_zero (h : σ.Orderly) (hu : σ.Unfinished k) : σ.master.inFlight ≠ 0 := by
  obtain ⟨t, hfound, hunfinished⟩ := hu
  exact Nat.ne_of_gt (h.tally.inFlight_pos (List.mem_of_getElem? hfound) hunfinished)

/-- A call that is barred spawns nothing; one that has not seen the shards yet, as long as one of
them is unfinished. -/
theorem Orderly.call_ne_of_run (h : σ.Orderly) (busy : Bool) (actions : List Action)
    (hbarred : (σ.calls i).isBarred busy = true) (hnone : ∀ t ∈ σ.shards, t.launch.call ≠ i)
    (hbusy : busy = true → ∃ k < σ.shards.length, (σ.run actions).Unfinished k) :
    ∀ t ∈ (σ.run actions).shards, t.launch.call ≠ i := by
  induction actions generalizing σ with
  | nil => exact hnone
  | cons a actions ih =>
    have hstep := σ.stepped a
    have hnow (hb : busy = true) : σ.master.inFlight ≠ 0 := by
      obtain ⟨k, hk, hu⟩ := hbusy hb
      exact h.inFlight_ne_zero (unfinished_of_run (a :: actions) hk hu)
    refine ih (h.stepped hstep) (isBarred_stepped hstep hnow hbarred) ?_ fun hb => ?_
    · exact call_ne_of_stepped hstep hnone (leftBy_of_isBarred i hbarred)
    · obtain ⟨k, hk, hu⟩ := hbusy hb
      exact ⟨k, Nat.lt_of_lt_of_le hk (length_le_of_stepped hstep), hu⟩

/-- A call that is early and gives up with its next step never spawns anything. -/
theorem Orderly.call_ne_of_advance (h : σ.Orderly) (actions : List Action)
    (hearly : (σ.calls i).isEarly = true)
    (hbarred : ((σ.advance i).calls i).isBarred false = true) :
    ∀ t ∈ ((σ.advance i).run actions).shards, t.launch.call ≠ i := by
  have hnone := call_ne_of_stepped (.advanced i) (h.early i hearly) (leftBy_of_isEarly i hearly)
  exact (h.stepped (.advanced i)).call_ne_of_run false actions hbarred hnone
    fun hfalse => nomatch hfalse

/-- What holds however calls, shards and everything else take turns. -/
structure NeverOverlap (σ : Concurrent) : Prop where
  /-- Outside the setup as many shards are counted as the last pass has that have not ended. -/
  counted : σ.setup = none → σ.master.inFlight = σ.shards.countP fun t =>
    t.isUnfinished && decide (σ.launches.getLast? = some t.launch)
  /-- In it, those that are still to be spawned are counted too. -/
  counting : σ.master.inFlight =
    σ.shards.countP Shard.isUnfinished + (σ.holder.elim [] leftBy).length
  /-- Whenever a shard ends there is one to count off. -/
  positive : ∀ t ∈ σ.shards, t.isUnfinished = true → 0 < σ.master.inFlight
  /-- Shards that have not ended are of one pass. -/
  together : ∀ t ∈ σ.shards, ∀ u ∈ σ.shards, t.isUnfinished = true → u.isUnfinished = true →
    t.launch = u.launch
  /-- Outside the setup, the shards of every pass that was started have been spawned. -/
  spawned : σ.setup = none → σ.shards.map Shard.origin = σ.launches.flatMap Launch.origins
  /-- Passes that are started later have greater numbers. -/
  ascending : σ.launches.Pairwise fun l l' => l.plan.pass < l'.plan.pass
  /-- A call that is made while another one has the setup spawns nothing. -/
  refused : ∀ i later, σ.calls i = .waiting → σ.setup ≠ none →
    ∀ t ∈ ((σ.advance i).run later).shards, t.launch.call ≠ i
  /-- Neither does one that looks at the shards while one of them is unfinished. -/
  skipped : ∀ i pass later, σ.calls i = .numbered pass →
    (∃ t ∈ σ.shards, t.isUnfinished = true) →
      ∀ t ∈ ((σ.advance i).run later).shards, t.launch.call ≠ i
  /-- And one that is made while a shard is unfinished spawns nothing before that has ended. -/
  barred : ∀ i k later, σ.calls i = .waiting → k < σ.shards.length →
    (σ.run later).Unfinished k → ∀ t ∈ (σ.run later).shards, t.launch.call ≠ i

/-- Passes never overlap, whatever their calls and shards and all others do and in whichever
order. -/
theorem neverOverlap (settings : Settings) (store : Store) (actions : List Action) :
    NeverOverlap ((fresh settings store).run actions) := by
  have h := (orderly_fresh settings store).run actions
  generalize (fresh settings store).run actions = σ at h
  constructor
  case counted =>
    intro hfree
    have hnone : σ.holder = none := congrArg (Option.map _) hfree
    have hcounter := h.tally.counter
    rw [hnone] at hcounter
    rw [hcounter]
    refine List.countP_congr fun t ht => ?_
    rw [Bool.and_eq_true, decide_eq_true_eq]
    exact ⟨fun hu => ⟨hu, h.tally.latest t ht hu⟩, And.left⟩
  case counting => exact h.tally.counter
  case positive => exact fun t ht => h.tally.inFlight_pos ht
  case together =>
    intro t ht u hu htu huu
    exact Option.some.inj ((h.tally.latest t ht htu).symm.trans (h.tally.latest u hu huu))
  case spawned =>
    intro hfree
    have hnone : σ.holder = none := congrArg (Option.map _) hfree
    have hspawned := h.tally.spawned
    rwa [hnone, Option.elim_none, List.append_nil] at hspawned
  case ascending => exact h.tally.ascending
  case refused =>
    intro i later hwaiting hheld
    have hreturned : (σ.advance i).calls i = .returned := by
      obtain ⟨j, hj⟩ := Option.ne_none_iff_exists'.mp hheld
      simp [advance, hwaiting, hj]
    exact h.call_ne_of_advance later (by rw [hwaiting]; rfl) (by rw [hreturned]; rfl)
  case skipped =>
    intro i pass later hnumbered ⟨t, ht, hunfinished⟩
    have hbusy : σ.master.inFlight ≠ 0 := Nat.ne_of_gt (h.tally.inFlight_pos ht hunfinished)
    have hleaving : (σ.advance i).calls i = .leaving := by
      simp [advance, hnumbered, Works.proceed, hbusy]
    exact h.call_ne_of_advance later (by rw [hnumbered]; rfl) (by rw [hleaving]; rfl)
  case barred =>
    intro i k later hwaiting hk hu
    have hnone := h.early i (by rw [hwaiting]; rfl)
    exact h.call_ne_of_run true later (by rw [hwaiting]; rfl) hnone fun _ => ⟨k, hk, hu⟩

end Concurrent

end ClusterMaster
