import ClusterMaster.Liveness
import Mathlib

/-!
# Timeouts: a silent node is let go once, and only when it is overdue

A `Watch` is who was heard of when, with a state that the handlers of silent nodes work on; handlers
have no hand on who is tracked. When a node was last heard of can be told from the calls alone
(`LastHeard`): it registered at that time, or was known and heard of at that time, and every call
since has spared it. A scan of a class calls the handler of exactly those nodes that are overdue by
this account, and a node that was let go stays unknown until it registers again.

    what one call makes of when a node was last heard of                          (heard_after_iff)
    any calls: the node is tracked ↔ it was last heard of at that time              (heard_run_iff)
    a scan lets go who is overdue, one after the other                                    (scan_eq)
    any calls, and then a scan: handlers are called as they are due                        (timely)
-/

namespace ClusterMaster

/-- What is done about a silent node of a class. -/
abbrev Handlers (σ : Type) := NodeClass → String → σ → σ

/-- Who was heard of when, and what handlers have made of the state they work on. -/
structure Watch (σ : Type) where
  liveness : Liveness := {}
  world : σ

namespace Watch

variable {σ : Type} (timeout : NodeClass → Nat) (handlers : Handlers σ)

/-! ## Calls -/

/-- Track a node no more, and call its handler. -/
def letGo (w : Watch σ) (c : NodeClass) (key : String) : Watch σ :=
  { liveness := w.liveness.unregister c key, world := handlers c key w.world }

/-- Look at some nodes of a class, one after the other, and let those go that are overdue by then. -/
def letGoAll (w : Watch σ) (c : NodeClass) (now : Nat) : List String → List String × Watch σ
  | [] => ([], w)
  | key :: keys =>
    if w.liveness.isOverdue c key (timeout c) now then
      let rest := (w.letGo handlers c key).letGoAll c now keys
      (key :: rest.1, rest.2)
    else w.letGoAll c now keys

/-- Scan a class: gather who is overdue, then let them go. Answers with those whose handler was
called. -/
def scan (w : Watch σ) (c : NodeClass) (now : Nat) : List String × Watch σ :=
  w.letGoAll timeout handlers c now (w.liveness.overdue c (timeout c) now)

inductive Call where
  | register (c : NodeClass) (key : String) (time : Nat)
  | refresh (c : NodeClass) (key : String) (time : Nat)
  | unregister (c : NodeClass) (key : String)
  | scan (c : NodeClass) (now : Nat)
  deriving DecidableEq, Repr

/-- The watch after a call; to refresh an unknown node changes nothing. -/
def after (w : Watch σ) : Call → Watch σ
  | .register c key time => { w with liveness := w.liveness.register c key time }
  | .refresh c key time =>
    match w.liveness.refresh c key time with
    | .error _ => w
    | .ok liveness => { w with liveness }
  | .unregister c key => { w with liveness := w.liveness.unregister c key }
  | .scan c now => (w.scan timeout handlers c now).2

/-- The watch after calls, one after the other. -/
def run (w : Watch σ) (calls : List Call) : Watch σ := calls.foldl (after timeout handlers) w

/-- When a tracked node was last heard of. -/
def heard (w : Watch σ) (c : NodeClass) (key : String) : Option Nat :=
  w.liveness.lastSeen.get? (c, key)

/-! ## Histories -/

/-- A call that leaves a node as it is that was last heard of at some time: the call is about
another node, or a scan that does not find this one overdue. -/
def Call.Spares (c : NodeClass) (key : String) (time : Nat) : Call → Prop
  | .register d k _ | .refresh d k _ | .unregister d k => (d, k) ≠ (c, key)
  | .scan d now => d = c → now - time ≤ timeout c

/-- When a node was last heard of over some calls, at first without any node. -/
inductive LastHeard (c : NodeClass) (key : String) : List Call → Nat → Prop
  | registered {before since : List Call} {time : Nat}
      (spared : ∀ call ∈ since, call.Spares timeout c key time) :
      LastHeard c key (before ++ .register c key time :: since) time
  | refreshed {before since : List Call} {earlier time : Nat} (known : LastHeard c key before earlier)
      (spared : ∀ call ∈ since, call.Spares timeout c key time) :
      LastHeard c key (before ++ .refresh c key time :: since) time

section Lemmas

variable {timeout : NodeClass → Nat} {handlers : Handlers σ} {w : Watch σ} {c d : NodeClass}
  {key k : String} {now time : Nat} {calls : List Call} {call : Call}

theorem not_lastHeard_nil : ¬ LastHeard timeout c key [] time := by
  intro h
  generalize hnil : ([] : List Call) = calls at h
  cases h <;> simp at hnil

/-- What a call more makes of when a node was last heard of. -/
theorem lastHeard_append_singleton : LastHeard timeout c key (calls ++ [call]) time ↔
    call = .register c key time ∨
      (call = .refresh c key time ∧ ∃ earlier, LastHeard timeout c key calls earlier) ∨
        (LastHeard timeout c key calls time ∧ call.Spares timeout c key time) := by
  constructor
  · intro h
    generalize hcalls : calls ++ [call] = all at h
    cases h with
    | @registered before since _ spared =>
      rcases List.eq_nil_or_concat' since with rfl | ⟨since, last, rfl⟩
      · obtain ⟨-, hcall⟩ := List.append_inj' hcalls rfl
        exact .inl (List.singleton_inj.mp hcall)
      · rw [← List.cons_append, ← List.append_assoc] at hcalls
        obtain ⟨rfl, hcall⟩ := List.append_inj' hcalls rfl
        obtain rfl := List.singleton_inj.mp hcall
        rw [List.forall_mem_append, List.forall_mem_singleton] at spared
        exact .inr (.inr ⟨.registered spared.1, spared.2⟩)
    | @refreshed before since earlier _ known spared =>
      rcases List.eq_nil_or_concat' since with rfl | ⟨since, last, rfl⟩
      · obtain ⟨rfl, hcall⟩ := List.append_inj' hcalls rfl
        exact .inr (.inl ⟨List.singleton_inj.mp hcall, earlier, known⟩)
      · rw [← List.cons_append, ← List.append_assoc] at hcalls
        obtain ⟨rfl, hcall⟩ := List.append_inj' hcalls rfl
        obtain rfl := List.singleton_inj.mp hcall
        rw [List.forall_mem_append, List.forall_mem_singleton] at spared
        exact .inr (.inr ⟨.refreshed known spared.1, spared.2⟩)
  · rintro (rfl | ⟨rfl, earlier, known⟩ | ⟨h, hcall⟩)
    · exact .registered (by simp)
    · exact .refreshed known (by simp)
    · cases h with
      | registered spared =>
        rw [List.append_assoc, List.cons_append]
        refine .registered ?_
        rw [List.forall_mem_append, List.forall_mem_singleton]
        exact ⟨spared, hcall⟩
      | refreshed known spared =>
        rw [List.append_assoc, List.cons_append]
        refine .refreshed known ?_
        rw [List.forall_mem_append, List.forall_mem_singleton]
        exact ⟨spared, hcall⟩

/-! ## Scans -/

theorem heard_letGo : (w.letGo handlers d k).heard c key =
    if (d, k) = (c, key) then none else w.heard c key :=
  Liveness.lastSeen_unregister

/-- To let one node go leaves the others overdue, so all that were gathered are let go. -/
theorem letGoAll_eq {keys : List String} (hnodup : keys.Nodup)
    (hover : ∀ key ∈ keys, w.liveness.isOverdue c key (timeout c) now = true) :
    w.letGoAll timeout handlers c now keys =
      (keys, keys.foldl (fun w key => w.letGo handlers c key) w) := by
  induction keys generalizing w with
  | nil => rfl
  | cons key keys ih =>
    obtain ⟨hkey, hkeys⟩ := List.forall_mem_cons.mp hover
    obtain ⟨hnot, hnodup⟩ := List.nodup_cons.mp hnodup
    have hrest : ∀ k ∈ keys,
        (w.letGo handlers c key).liveness.isOverdue c k (timeout c) now = true := by
      intro k hk
      have hne : (c, key) ≠ (c, k) := by
        rintro ⟨⟩
        exact hnot hk
      have hsame : (w.letGo handlers c key).heard c k = w.heard c k := by
        rw [heard_letGo, if_neg hne]
      rw [Liveness.isOverdue_congr hsame]
      exact hkeys k hk
    unfold letGoAll
    rw [if_pos hkey]
    simp only [ih hnodup hrest, List.foldl_cons]

/-- A scan lets go who is overdue, one after the other. -/
theorem scan_eq (w : Watch σ) (c : NodeClass) (now : Nat) : w.scan timeout handlers c now =
    (w.liveness.overdue c (timeout c) now,
      (w.liveness.overdue c (timeout c) now).foldl (fun w key => w.letGo handlers c key) w) :=
  letGoAll_eq Liveness.nodup_overdue fun _ => Liveness.mem_overdue.mp

theorem mem_scan_iff : key ∈ (w.scan timeout handlers c now).1 ↔
    ∃ time, w.heard c key = some time ∧ timeout c < now - time := by
  rw [scan_eq]
  exact Liveness.mem_overdue.trans Liveness.isOverdue_iff

theorem heard_foldl_letGo {keys : List String} :
    (keys.foldl (fun w key => w.letGo handlers d key) w).heard c key =
      if d = c ∧ key ∈ keys then none else w.heard c key := by
  induction keys generalizing w with
  | nil => simp
  | cons k keys ih =>
    rw [List.foldl_cons, ih, heard_letGo]
    by_cases hd : d = c
    · by_cases hk : k = key <;> by_cases hkeys : key ∈ keys <;> simp [hd, hk, hkeys, Ne.symm]
    · simp [hd]

theorem heard_scan : (w.scan timeout handlers d now).2.heard c key =
    if d = c ∧ key ∈ (w.scan timeout handlers d now).1 then none else w.heard c key := by
  rw [scan_eq]
  exact heard_foldl_letGo

theorem world_foldl_letGo {keys : List String} :
    (keys.foldl (fun w key => w.letGo handlers c key) w).world =
      keys.foldl (fun s key => handlers c key s) w.world := by
  induction keys generalizing w with
  | nil => rfl
  | cons key keys ih => exact ih

/-! ## One call more -/

theorem heard_register : (w.after timeout handlers (.register d k now)).heard c key =
    if (d, k) = (c, key) then some now else w.heard c key :=
  Liveness.lastSeen_register

theorem heard_unregister : (w.after timeout handlers (.unregister d k)).heard c key =
    if (d, k) = (c, key) then none else w.heard c key :=
  Liveness.lastSeen_unregister

/-- To refresh is to register who is known. -/
theorem after_refresh : w.after timeout handlers (.refresh d k now) =
    if w.liveness.isRegistered d k = true then w.after timeout handlers (.register d k now)
    else w := by
  simp only [after, Liveness.refresh_eq]
  cases w.liveness.isRegistered d k <;> rfl

theorem heard_refresh : (w.after timeout handlers (.refresh d k now)).heard c key =
    if (d, k) = (c, key) then (w.heard c key).map fun _ => now else w.heard c key := by
  rw [after_refresh]
  split
  · rename_i hknown
    obtain ⟨seen, hseen⟩ := Liveness.isRegistered_iff.mp hknown
    rw [heard_register]
    by_cases h : (d, k) = (c, key)
    · obtain ⟨rfl, rfl⟩ := Prod.mk.inj h
      rw [if_pos rfl, if_pos rfl, show w.heard d k = some seen from hseen, Option.map_some]
    · rw [if_neg h, if_neg h]
  · rename_i hunknown
    by_cases h : (d, k) = (c, key)
    · obtain ⟨rfl, rfl⟩ := Prod.mk.inj h
      have hnone : w.heard d k = none := Option.eq_none_iff_forall_ne_some.mpr fun seen hseen =>
        hunknown (Liveness.isRegistered_iff.mpr ⟨seen, hseen⟩)
      rw [if_pos rfl, hnone, Option.map_none]
    · rw [if_neg h]

/-- When a node was last heard of after one call more. -/
theorem heard_after_iff : (w.after timeout handlers call).heard c key = some time ↔
    call = .register c key time ∨
      (call = .refresh c key time ∧ ∃ earlier, w.heard c key = some earlier) ∨
        (w.heard c key = some time ∧ call.Spares timeout c key time) := by
  cases call with
  | register d k t =>
    rw [heard_register]
    by_cases h : (d, k) = (c, key)
    · obtain ⟨rfl, rfl⟩ := Prod.mk.inj h
      simp [Call.Spares]
    · have hne : ¬ (d = c ∧ k = key ∧ t = time) := fun ⟨hd, hk, _⟩ => h (by rw [hd, hk])
      simp [Call.Spares, h, hne]
  | refresh d k t =>
    rw [heard_refresh]
    by_cases h : (d, k) = (c, key)
    · obtain ⟨rfl, rfl⟩ := Prod.mk.inj h
      simp [Call.Spares, and_comm]
    · have hne : ¬ (d = c ∧ k = key ∧ t = time) := fun ⟨hd, hk, _⟩ => h (by rw [hd, hk])
      simp [Call.Spares, h, hne]
  | unregister d k =>
    rw [heard_unregister]
    by_cases h : (d, k) = (c, key) <;> simp [Call.Spares, h]
  | scan d now =>
    rw [show (w.after timeout handlers (.scan d now)).heard c key = _ from heard_scan]
    constructor
    · intro h
      split at h
      · cases h
      · rename_i hnot
        refine .inr (.inr ⟨h, fun hd => ?_⟩)
        subst hd
        by_contra hlate
        exact hnot ⟨rfl, mem_scan_iff.mpr ⟨time, h, not_le.mp hlate⟩⟩
    · rintro (hcall | ⟨hcall, -⟩ | ⟨h, spared⟩)
      · cases hcall
      · cases hcall
      · rw [if_neg, h]
        rintro ⟨rfl, hcalled⟩
        obtain ⟨seen, hseen, hlate⟩ := mem_scan_iff.mp hcalled
        obtain rfl := Option.some.inj (h.symm.trans hseen)
        exact absurd (spared rfl) (not_le.mpr hlate)

theorem world_after_scan : (w.after timeout handlers (.scan c now)).world =
    (w.scan timeout handlers c now).1.foldl (fun s key => handlers c key s) w.world := by
  show (w.scan timeout handlers c now).2.world = _
  rw [scan_eq]
  exact world_foldl_letGo

theorem world_after_of_ne_scan (h : ∀ d time, call ≠ .scan d time) :
    (w.after timeout handlers call).world = w.world := by
  cases call with
  | register d k t => rfl
  | refresh d k t =>
    rw [after_refresh]
    split <;> rfl
  | unregister d k => rfl
  | scan d t => exact absurd rfl (h d t)

/-! ## Any calls -/

theorem run_append (w : Watch σ) (calls more : List Call) :
    w.run timeout handlers (calls ++ more) =
      (w.run timeout handlers calls).run timeout handlers more :=
  List.foldl_append

/-- A node is tracked as last heard of when the calls say so. -/
theorem heard_run_iff (world : σ) : (run timeout handlers { world } calls).heard c key = some time ↔
    LastHeard timeout c key calls time := by
  induction calls using List.reverseRecOn generalizing time with
  | nil =>
    constructor
    · intro h
      cases h
    · intro h
      exact absurd h not_lastHeard_nil
  | append_singleton calls call ih =>
    rw [run_append, lastHeard_append_singleton]
    simp only [← ih]
    exact heard_after_iff

/-- An unknown node stays unknown until it registers. -/
theorem heard_run_eq_none (h : w.heard c key = none)
    (hnever : ∀ time, .register c key time ∉ calls) :
    (w.run timeout handlers calls).heard c key = none := by
  induction calls generalizing w with
  | nil => exact h
  | cons call calls ih =>
    refine ih ?_ fun time hmem => hnever time (List.mem_cons_of_mem _ hmem)
    refine Option.eq_none_iff_forall_ne_some.mpr fun time hsome => ?_
    rcases heard_after_iff.mp hsome with rfl | ⟨-, earlier, hearlier⟩ | ⟨hheard, -⟩
    · exact hnever time List.mem_cons_self
    · rw [h] at hearlier
      cases hearlier
    · rw [h] at hheard
      cases hheard

end Lemmas

/-! ## Timely handlers -/

variable (world : σ) (calls : List Call) (c : NodeClass) (now : Nat)

/-- The watch after some calls, at first without any node. -/
def watched : Watch σ := run timeout handlers { world } calls

/-- The nodes whose handlers are called by a scan after some calls. -/
def calledFor : List String := ((watched timeout handlers world calls).scan timeout handlers c now).1

/-- What a scan of a class does after some calls. -/
structure Timely : Prop where
  /-- Each handler is called once. -/
  once : (calledFor timeout handlers world calls c now).Nodup
  /-- Handlers are called for the nodes that were last heard of too long ago, and for no others. -/
  due : ∀ key, key ∈ calledFor timeout handlers world calls c now ↔
    ∃ time, LastHeard timeout c key calls time ∧ timeout c < now - time
  /-- The handlers called are those of the class. -/
  handled : (watched timeout handlers world (calls ++ [.scan c now])).world =
    (calledFor timeout handlers world calls c now).foldl (fun s key => handlers c key s)
      (watched timeout handlers world calls).world
  /-- Nothing but a scan calls handlers. -/
  idle : ∀ call, (∀ d time, call ≠ .scan d time) →
    (watched timeout handlers world (calls ++ [call])).world =
      (watched timeout handlers world calls).world
  /-- Who was let go is unknown until it registers. -/
  unknown : ∀ key ∈ calledFor timeout handlers world calls c now, ∀ more,
    (∀ time, .register c key time ∉ more) → ∀ time,
      (watched timeout handlers world (calls ++ .scan c now :: more)).liveness.refresh c key time =
        .error (.noSuchNode s!"{c.label} {key}")
  /-- Between two calls of its handler a node registers. -/
  between : ∀ key ∈ calledFor timeout handlers world calls c now, ∀ more later,
    key ∈ calledFor timeout handlers world (calls ++ .scan c now :: more) c later →
      ∃ time, .register c key time ∈ more
  /-- The others are tracked as before. -/
  kept : ∀ d key, ¬ (c = d ∧ key ∈ calledFor timeout handlers world calls c now) →
    (watched timeout handlers world (calls ++ [.scan c now])).heard d key =
      (watched timeout handlers world calls).heard d key

variable {timeout handlers world calls c now} {key : String}

theorem mem_calledFor_iff : key ∈ calledFor timeout handlers world calls c now ↔
    ∃ time, LastHeard timeout c key calls time ∧ timeout c < now - time := by
  unfold calledFor
  rw [mem_scan_iff]
  exact exists_congr fun time => and_congr_left fun _ => heard_run_iff world

/-- Who was let go stays unknown until it registers. -/
theorem heard_eq_none_of_mem_calledFor (h : key ∈ calledFor timeout handlers world calls c now)
    {more : List Call} (hnever : ∀ time, .register c key time ∉ more) :
    (watched timeout handlers world (calls ++ .scan c now :: more)).heard c key = none := by
  unfold watched
  rw [run_append]
  refine heard_run_eq_none (w := ((watched timeout handlers world calls).scan timeout handlers c now).2)
    ?_ hnever
  rw [heard_scan, if_pos ⟨rfl, h⟩]

/-- Whatever nodes do, at whatever times, handlers are called exactly when they are due. -/
theorem timely (timeout : NodeClass → Nat) (handlers : Handlers σ) (world : σ) (calls : List Call)
    (c : NodeClass) (now : Nat) : Timely timeout handlers world calls c now where
  once := by
    unfold calledFor
    rw [scan_eq]
    exact Liveness.nodup_overdue
  due _ := mem_calledFor_iff
  handled := by
    unfold watched calledFor
    rw [run_append]
    exact world_after_scan
  idle call hcall := by
    unfold watched
    rw [run_append]
    exact world_after_of_ne_scan hcall
  unknown key hkey more hnever time := by
    have hnone := heard_eq_none_of_mem_calledFor hkey hnever
    rw [Liveness.refresh_eq, if_neg]
    intro hknown
    obtain ⟨seen, hseen⟩ := Liveness.isRegistered_iff.mp hknown
    exact absurd (hnone.symm.trans hseen) (by simp)
  between key hkey more later hagain := by
    by_contra hnever
    have hnone := heard_eq_none_of_mem_calledFor hkey (not_exists.mp hnever)
    obtain ⟨time, hheard, -⟩ := mem_scan_iff.mp hagain
    exact absurd (hnone.symm.trans hheard) (by simp)
  kept d key hkey := by
    unfold watched
    rw [run_append]
    exact heard_scan.trans (if_neg hkey)

/-- Of two nodes one is heard of again in time, and the other is let go by the first of two scans. -/
example : (watched (fun _ => 200) (fun c key called => called ++ [(c, key)]) []
    [.register .consumer "a" 0, .register .consumer "b" 0, .refresh .consumer "b" 150,
      .scan .consumer 250, .scan .consumer 300]).world = [(.consumer, "a")] := by cbv

end Watch

end ClusterMaster
