import ClusterMaster.Proofs.Accounts

/-!
# Silent consumers

A scan finds a consumer by its liveness key alone. The key names one consumer, since names that
requests may use hold no separator (`livenessKeys_identify`); so the scan lets go the consumer whose
key is overdue, and leaves nothing of it and everything of the others. Only where a call holds the
row of the consumer, nothing of it is touched either: it counts as heard of just now, and a later
scan tries again.

    one overdue key: one consumer is let go                                       (letsGo_letGo)
    a scan: all consumers whose keys are overdue, and no others                   (letsSilentGo)
-/

namespace ClusterMaster

/-- What there is of a consumer: its membership, what it holds, the events queued for it, and when
it was last heard of. -/
structure Traces where
  member : Option Consumer := none
  held : Option Holding := none
  queued : List Event := []
  heard : Option Nat := none

namespace Master

variable {m m' : Master} {c d : Consumer} {key : String} {keys : List String}

def tracesOf (m : Master) (c : Consumer) : Traces :=
  { member := m.groups.consumer? c.id
    held := m.holdings.get? c.id
    queued := m.events.queue c.id
    heard := m.liveness.lastSeen.get? (.consumer, c.livenessKey) }

/-- What is left of a consumer that is let go. -/
def leftOf (m : Master) (c : Consumer) : Traces :=
  if m.consumerRows.isLocked c.id = true then { m.tracesOf c with heard := some m.clock } else {}

/-! ## One consumer -/

/-- A consumer is let go. -/
structure LetsGo (c : Consumer) (m m' : Master) : Prop where
  settings : m'.settings = m.settings
  clock : m'.clock = m.clock
  consumerRows : m'.consumerRows = m.consumerRows
  remaining : ∀ id e, m'.groups.consumer? id = some e → m.groups.consumer? id = some e
  own : m'.tracesOf c = m.leftOf c
  others : ∀ d, d.id ≠ c.id → '@' ∉ d.group.toList → m'.tracesOf d = m.tracesOf d
  heard : ∀ key, c.livenessKey ≠ key → m'.liveness.lastSeen.get? (.consumer, key) =
    m.liveness.lastSeen.get? (.consumer, key)

theorem liveness_dropConsumer (hget : m.groups.consumer? c.id = some c) :
    (m.dropConsumer c.id).2.liveness = m.liveness.unregister .consumer c.livenessKey ∧
      (m.dropConsumer c.id).2.clock = m.clock := by
  have hfst := Groups.leave_fst m.groups c.id
  rw [hget] at hfst
  unfold dropConsumer
  simp only []
  split
  · rename_i groups hleave
    rw [hleave] at hfst
    cases hfst
  · rename_i d dissolved groups hleave
    rw [hleave, Option.map_some] at hfst
    obtain rfl : d = c := Option.some.inj hfst
    split <;> exact ⟨rfl, rfl⟩

theorem letsGo_hear (hheld : m.consumerRows.isLocked c.id = true) (hc : '@' ∉ c.group.toList) :
    LetsGo c m (m.hear .consumer c.livenessKey) where
  settings := rfl
  clock := rfl
  consumerRows := rfl
  remaining _ _ he := he
  own := by
    unfold leftOf tracesOf
    rw [if_pos hheld]
    simp only [hear, Liveness.lastSeen_register, if_true]
  others d hd hg := by
    have hne : c.livenessKey ≠ d.livenessKey := livenessKey_ne hc hg (Ne.symm hd)
    unfold tracesOf
    simp only [hear, Liveness.lastSeen_register, Prod.mk.injEq, true_and, if_neg hne]
  heard key hne := by
    simp only [hear, Liveness.lastSeen_register, Prod.mk.injEq, true_and, if_neg hne]

theorem letsGo_dropConsumer (hr : Registry m) (hget : m.groups.consumer? c.id = some c)
    (hfree : ¬ m.consumerRows.isLocked c.id = true) : LetsGo c m (m.dropConsumer c.id).2 := by
  have hdrop := dropConsumer_spec hr.coherent hr.groupsUsable c.id
  obtain ⟨hliveness, hclock⟩ := liveness_dropConsumer hget
  have hheard : ∀ key, c.livenessKey ≠ key →
      (m.dropConsumer c.id).2.liveness.lastSeen.get? (.consumer, key) =
        m.liveness.lastSeen.get? (.consumer, key) := by
    intro key hne
    simp only [hliveness, Liveness.lastSeen_unregister, Prod.mk.injEq, true_and, if_neg hne]
  refine ⟨hdrop.settings, hclock, hdrop.consumerRows,
    fun _ _ he => ((hdrop.consumer?_iff hr.coherent).mp he).2, ?_, fun d hd hg => ?_, hheard⟩
  · unfold leftOf tracesOf
    rw [if_neg hfree, hdrop.queue, if_pos rfl, hdrop.holdings, Table.get?_erase_self, hdrop.groups,
      Groups.consumer?_leave hr.coherent, if_pos rfl, hliveness, Liveness.lastSeen_unregister,
      if_pos rfl]
  · have hne : c.livenessKey ≠ d.livenessKey :=
      livenessKey_ne (hr.groupsUsable c.id c hget) hg (Ne.symm hd)
    unfold tracesOf
    rw [hdrop.queue, if_neg (Ne.symm hd), hdrop.holdings, Table.get?_erase_of_ne (Ne.symm hd),
      hdrop.groups, Groups.consumer?_leave hr.coherent, if_neg (Ne.symm hd), hheard _ hne]

/-- Behind its key a consumer is found, and let go. -/
theorem letsGo_letGo (hr : Registry m) (hget : m.groups.consumer? c.id = some c) :
    LetsGo c m (m.letGo .consumer c.livenessKey) := by
  rw [letGo_member hr hget]
  split
  · rename_i hheld
    exact letsGo_hear hheld (hr.groupsUsable c.id c hget)
  · rename_i hfree
    exact letsGo_dropConsumer hr hget hfree

theorem LetsGo.leftOf (h : LetsGo c m m') (hd : d.id ≠ c.id) (hg : '@' ∉ d.group.toList) :
    m'.leftOf d = m.leftOf d := by
  unfold Master.leftOf
  rw [h.consumerRows, h.clock, h.others d hd hg]

/-! ## A scan -/

/-- Of some keys those are answered with that are overdue, and who is behind them is let go. -/
structure LetsAllGo (keys : List String) (m : Master) (o : List String × Master) : Prop where
  answer : o.1 = keys.filter fun key =>
    m.liveness.isOverdue .consumer key (m.settings.timeout .consumer) m.clock
  traces : ∀ d, (∀ e ∈ m.groups.consumer? d.id, e = d) → '@' ∉ d.group.toList →
    o.2.tracesOf d = if d.livenessKey ∈ o.1 then m.leftOf d else m.tracesOf d

theorem LetsAllGo.cons {o : List String × Master} (hrest : LetsAllGo keys m' o)
    (hgo : LetsGo c m m') (hget : m.groups.consumer? c.id = some c) (hc : '@' ∉ c.group.toList)
    (hnot : c.livenessKey ∉ keys)
    (hover : m.liveness.isOverdue .consumer c.livenessKey (m.settings.timeout .consumer) m.clock = true) :
    LetsAllGo (c.livenessKey :: keys) m (c.livenessKey :: o.1, o.2) := by
  have hsame : ∀ key ∈ keys,
      m'.liveness.isOverdue .consumer key (m'.settings.timeout .consumer) m'.clock =
        m.liveness.isOverdue .consumer key (m.settings.timeout .consumer) m.clock := by
    intro key hkey
    rw [hgo.settings, hgo.clock]
    refine Liveness.isOverdue_congr (hgo.heard key fun heq => ?_)
    exact hnot (heq ▸ hkey)
  have hkept : c.livenessKey ∉ o.1 := by
    rw [hrest.answer]
    exact fun hmem => hnot (List.mem_of_mem_filter hmem)
  refine ⟨?_, fun d hd hg => ?_⟩
  · rw [List.filter_cons, if_pos hover, ← List.filter_congr hsame, ← hrest.answer]
  · rw [hrest.traces d (fun e he => hd e (hgo.remaining d.id e he)) hg]
    by_cases hid : d.id = c.id
    · obtain rfl : c = d := hd c (hid ▸ hget)
      rw [if_neg hkept, if_pos List.mem_cons_self, hgo.own]
    · have hne : c.livenessKey ≠ d.livenessKey := livenessKey_ne hc hg (Ne.symm hid)
      rw [hgo.leftOf hid hg, hgo.others d hid hg]
      simp only [List.mem_cons, Ne.symm hne, false_or]

theorem letsAllGo_letGoAll (hr : Registry m) (ha : ConsumersAttended m) (hnodup : keys.Nodup) :
    LetsAllGo keys m (m.letGoAll .consumer keys) := by
  induction keys generalizing m with
  | nil => exact ⟨rfl, fun d _ _ => rfl⟩
  | cons key keys ih =>
    obtain ⟨hnot, hkeys⟩ := List.nodup_cons.mp hnodup
    unfold letGoAll
    split
    · rename_i hover
      have ht := Liveness.isRegistered_of_isOverdue hover
      obtain ⟨x, c, hget, rfl⟩ := (ha.attended key).mp ht
      obtain rfl : c.id = x := hr.coherent.id_eq hget
      exact (ih (hr.letGo _) (ha.letGo hr ht) hkeys).cons (letsGo_letGo hr hget) hget
        (hr.groupsUsable c.id c hget) hnot hover
    · rename_i hover
      have hrest := ih hr ha hkeys
      exact ⟨by rw [List.filter_cons, if_neg hover, hrest.answer], hrest.traces⟩

/-- What a scan does about consumers. -/
structure LetsSilentGo (m : Master) : Prop where
  /-- The answer is the keys that are overdue. -/
  answer : (m.expire .consumer).1 =
    m.liveness.overdue .consumer (m.settings.timeout .consumer) m.clock
  /-- Each of them is the key of one consumer. -/
  named : ∀ key ∈ (m.expire .consumer).1,
    ∃! c, m.groups.consumer? c.id = some c ∧ c.livenessKey = key
  /-- The consumer whose key is overdue is gone, when nobody holds its row. -/
  released : ∀ c, m.groups.consumer? c.id = some c → c.livenessKey ∈ (m.expire .consumer).1 →
    m.consumerRows.isLocked c.id = false → (m.expire .consumer).2.tracesOf c = {}
  /-- When somebody does, it keeps all it has, and counts as heard of just now. -/
  deferred : ∀ c, m.groups.consumer? c.id = some c → c.livenessKey ∈ (m.expire .consumer).1 →
    m.consumerRows.isLocked c.id = true →
      (m.expire .consumer).2.tracesOf c = { m.tracesOf c with heard := some m.clock }
  /-- The others are as before. -/
  spared : ∀ c, m.groups.consumer? c.id = some c → c.livenessKey ∉ (m.expire .consumer).1 →
    (m.expire .consumer).2.tracesOf c = m.tracesOf c

theorem letsSilentGo (hr : Registry m) (ha : ConsumersAttended m) : m.LetsSilentGo := by
  have h : LetsAllGo (m.liveness.keysOf .consumer) m (m.expire .consumer) :=
    letsAllGo_letGoAll hr ha Liveness.nodup_keysOf
  have htraces : ∀ c, m.groups.consumer? c.id = some c → (m.expire .consumer).2.tracesOf c =
      if c.livenessKey ∈ (m.expire .consumer).1 then m.leftOf c else m.tracesOf c := by
    intro c hget
    refine h.traces c (fun e he => ?_) (hr.groupsUsable c.id c hget)
    exact Option.some.inj (he.symm.trans hget)
  refine ⟨h.answer, fun key hkey => ?_, fun c hget hkey hfree => ?_, fun c hget hkey hheld => ?_,
    fun c hget hkey => ?_⟩
  · rw [h.answer] at hkey
    have ht := Liveness.mem_keysOf.mp (List.mem_of_mem_filter hkey)
    obtain ⟨x, c, hget, rfl⟩ := (ha.attended key).mp ht
    obtain rfl : c.id = x := hr.coherent.id_eq hget
    refine ⟨c, ⟨hget, rfl⟩, fun d ⟨hd, hkeys⟩ => ?_⟩
    obtain ⟨hid, -⟩ := (livenessKey_inj (hr.groupsUsable d.id d hd)
      (hr.groupsUsable c.id c hget)).mp hkeys
    exact Option.some.inj ((hid ▸ hd).symm.trans hget)
  · rw [htraces c hget, if_pos hkey, leftOf, hfree]
    rfl
  · rw [htraces c hget, if_pos hkey, leftOf, if_pos hheld]
  · rw [htraces c hget, if_neg hkey]

/-- A liveness key says who is behind it, and the consumer whose key is overdue is the one that is
let go. -/
theorem livenessKeys_identify (h : m.Reachable) :
    (∀ consumer group, '@' ∉ group.toList →
      splitLivenessKey (livenessKey consumer group) = some (consumer, group)) ∧
    (∀ key consumer group, splitLivenessKey key = some (consumer, group) →
      key = livenessKey consumer group ∧ '@' ∉ group.toList) ∧
    (∀ r r' : ConsumerRegister, r.validate = .ok () → r'.validate = .ok () →
      livenessKey r.consumer r.group = livenessKey r'.consumer r'.group →
        r.consumer = r'.consumer ∧ r.group = r'.group) ∧
    m.LetsSilentGo := by
  refine ⟨fun consumer group => splitLivenessKey_livenessKey consumer,
    fun key consumer group => splitLivenessKey_eq_some_iff.mp, fun r r' hr hr' => ?_,
    letsSilentGo (registry_of_reachable h) h.consumersAttended⟩
  obtain ⟨-, hgroup⟩ := ConsumerRegister.usable_of_validate hr
  obtain ⟨-, hgroup'⟩ := ConsumerRegister.usable_of_validate hr'
  exact (livenessKey_inj hgroup.2 hgroup'.2).mp

end Master

/-! ## A consumer whose row is held

Two consumers fall silent while a call of one of them has not finished.
-/

namespace Unreleased

open Master
open SmallCluster (joining)

def history : List Operation :=
  [.consumerRegister (joining "a" "g"),
   .consumerRegister (joining "b" "g"),
   .hold .consumer "a",
   .wait 40000]

def fresh : Master := { settings := {}, store := {} }

theorem reachable_history : (fresh.run history).Reachable := ⟨{}, {}, fresh, history, rfl, rfl⟩

theorem expired_history : ((fresh.run history).expire .consumer).1 = ["a@g", "b@g"] := by cbv

/-- The other consumer is gone. -/
theorem let_go : (fresh.run history).Reachable ∧
    ((fresh.run history).expire .consumer).2.tracesOf (joining "b" "g").toConsumer = {} := by
  have hgo := (livenessKeys_identify reachable_history).2.2.2
  have hkey : (joining "b" "g").toConsumer.livenessKey ∈ ((fresh.run history).expire .consumer).1 := by
    rw [expired_history]
    decide
  exact ⟨reachable_history, hgo.released _ (by cbv) hkey (by cbv)⟩

/-- It is not true that a consumer is gone whenever its key was overdue. -/
theorem not_let_go : ¬ ∀ m : Master, m.Reachable → ∀ c, m.groups.consumer? c.id = some c →
    c.livenessKey ∈ (m.expire .consumer).1 →
      (m.expire .consumer).2.groups.consumer? c.id = none := by
  intro h
  have hkey : (joining "a" "g").toConsumer.livenessKey ∈ ((fresh.run history).expire .consumer).1 := by
    rw [expired_history]
    decide
  have hnone := h (fresh.run history) reachable_history (joining "a" "g").toConsumer (by cbv) hkey
  have hsome : ((fresh.run history).expire .consumer).2.groups.consumer? "a" =
      some (joining "a" "g").toConsumer := by cbv
  exact absurd (hnone.symm.trans hsome) (by simp)

end Unreleased

end ClusterMaster
