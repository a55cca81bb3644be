import ClusterMaster.Proofs.Attendance
import ClusterMaster.Proofs.SmallCluster

/-!
# When a group counts as allocated

A group is founded as not allocated. It counts as allocated once a member *takes up* partitions:
it registers with some, it registers as one that knows of an allocation, or a heartbeat
acknowledges an event that was delivered, which leaves the queue. But a heartbeat that names an
event counts whether there is such an event or not. Such a heartbeat *presumes* an allocation, and
then the flag goes although no member of the group may ever have been sent anything.

    a registered group is not allocated ↔
      since it was founded, no member has taken up partitions, and none has presumed to
                                                                              (notAllocated_iff)

Nobody else changes the flag: it stays when the only member founds the group anew, and when other
members come and go.
-/

namespace ClusterMaster

namespace Groups

variable {gs : Groups} {c : Consumer} {x name : String} {g : Group}

theorem isNotAllocated_of (hg : gs.group? name = some g) : gs.isNotAllocated name = g.notAllocated := by
  rw [isNotAllocated, hg, Option.map_some, Option.getD_some]

/-- Whoever joins a group leaves its flag alone, and a group that is founded is not allocated. -/
theorem isNotAllocated_join (gs : Groups) (c : Consumer) (name : String) :
    (gs.join c).isNotAllocated name = gs.isNotAllocated name := by
  have hjoined : (gs.groupJoined c).notAllocated = gs.isNotAllocated c.group := by
    unfold groupJoined isNotAllocated
    cases gs.group? c.group with
    | none => rfl
    | some g =>
      simp only []
      split <;> rfl
  by_cases hname : c.group = name
  · subst hname
    rw [isNotAllocated_of (group?_join.trans (if_pos rfl))]
    exact hjoined
  · unfold isNotAllocated
    rw [group?_join, if_neg hname]

theorem isNotAllocated_setAllocated (hg : gs.group? name = some g) (n : String) :
    (gs.setAllocated name).isNotAllocated n = if name = n then false else gs.isNotAllocated n := by
  unfold isNotAllocated
  rw [group?_setAllocated]
  by_cases hname : name = n
  · subst hname
    rw [if_pos rfl, if_pos rfl, hg]
    rfl
  · rw [if_neg hname, if_neg hname]

/-- A group keeps its flag when somebody leaves it. -/
theorem isNotAllocated_leave (h : gs.Coherent) (hg : (gs.leave x).2.group? name = some g) :
    (gs.leave x).2.isNotAllocated name = gs.isNotAllocated name := by
  obtain ⟨g', left, hg', rfl, -⟩ := members_leave h hg
  rw [isNotAllocated_of hg, isNotAllocated_of hg']

end Groups

namespace Master

variable {m m' : Master} {group : String}

/-! ## What happens to the groups -/

/-- The operation is a registration that is accepted and founds the group. -/
def Founds (m : Master) (op : Operation) (group : String) : Prop :=
  match op with
  | .consumerRegister r => m.checkConsumerRegister r = .ok () ∧ r.group = group ∧
      m.groups.group? group = none
  | _ => False

/-- A member of the group sends a heartbeat that is accepted and names an event. -/
def Acknowledges (m : Master) (r : ConsumerHeartbeat) (group : String) : Prop :=
  m.checkConsumerHeartbeat r = .ok () ∧ m.groups.groupOf? r.consumer = some group ∧
    r.acknowledged ≠ 0

/-- A member of the group registers with partitions or as one that knows of an allocation, or its
heartbeat takes an event that was delivered out of its queue. -/
def TakesUp (m : Master) (op : Operation) (group : String) : Prop :=
  match op with
  | .consumerRegister r => m.checkConsumerRegister r = .ok () ∧ r.group = group ∧
      (r.subscribed ≠ [] ∨ r.notAllocated = false)
  | .consumerHeartbeat r => m.Acknowledges r group ∧
      ∃ e, (m.events.acknowledge r.consumer r.acknowledged).1 = some e
  | _ => False

/-- A heartbeat of a member of the group names an event, and takes none out of the queue. -/
def Presumes (m : Master) (op : Operation) (group : String) : Prop :=
  match op with
  | .consumerHeartbeat r => m.Acknowledges r group ∧
      (m.events.acknowledge r.consumer r.acknowledged).1 = none
  | _ => False

/-! ## Since a group was founded -/

/-- Something that operations may do to groups. -/
abbrev Deed := Master → Operation → String → Prop

/-- Groups to which something has been done once an operation has been carried out. A group that
is founded starts over, but what founds it counts. -/
def recorded (m : Master) (deed : Deed) (past : String → Prop) (op : Operation) : String → Prop :=
  fun group => deed m op group ∨ (past group ∧ ¬m.Founds op group)

/-- Groups to which something has been done since they were founded, after operations one after the
other. -/
def sinceFounded (deed : Deed) (m : Master) (past : String → Prop) : List Operation → String → Prop
  | [] => past
  | op :: ops => sinceFounded deed (m.after op) (m.recorded deed past op) ops

/-- Of two things, one or the other has been done. -/
theorem sinceFounded_or (d e : Deed) (ops : List Operation) (m : Master) (past past' : String → Prop) :
    sinceFounded (fun m op group => d m op group ∨ e m op group) m
        (fun group => past group ∨ past' group) ops group ↔
      sinceFounded d m past ops group ∨ sinceFounded e m past' ops group := by
  induction ops generalizing m past past' with
  | nil => exact Iff.rfl
  | cons op ops ih =>
    refine Iff.trans (iff_of_eq ?_) (ih (m.after op) (m.recorded d past op) (m.recorded e past' op))
    have hrecord : m.recorded (fun m op group => d m op group ∨ e m op group)
        (fun group => past group ∨ past' group) op =
          fun group => m.recorded d past op group ∨ m.recorded e past' op group := by
      funext name
      unfold recorded
      rw [or_and_right, or_or_or_comm]
    rw [sinceFounded, hrecord]

/-- A member takes up partitions or presumes to. -/
def Allocates : Deed := fun m op group => m.TakesUp op group ∨ m.Presumes op group

/-- Only registrations and heartbeats of consumers change what is recorded. -/
theorem recorded_of_other {past : String → Prop} {op : Operation}
    (hr : ∀ r, op ≠ .consumerRegister r) (hb : ∀ r, op ≠ .consumerHeartbeat r) :
    m.recorded Allocates past op = past := by
  funext name
  unfold recorded Allocates TakesUp Presumes Founds
  cases op with
  | consumerRegister r => exact absurd rfl (hr r)
  | consumerHeartbeat r => exact absurd rfl (hb r)
  | _ => simp

/-! ## The invariant -/

/-- The groups that count as not allocated are those to which nothing has been done. -/
def Flags (m : Master) (done : String → Prop) : Prop :=
  ∀ name g, m.groups.group? name = some g → (m.groups.isNotAllocated name = true ↔ ¬done name)

/-- The flags tell what has been done, and heartbeats are accepted from members only. -/
structure Remembers (m : Master) (done : String → Prop) : Prop where
  registry : Registry m
  attended : ConsumersAttended m
  flags : m.Flags done

variable {done : String → Prop}

theorem Flags.of_groups (h : m.Flags done) (hg : m'.groups = m.groups) : m'.Flags done := by
  intro name g hget
  rw [hg] at hget ⊢
  exact h name g hget

theorem Flags.leave (h : m.Flags done) (hc : m.groups.Coherent) {x : String}
    (hg : m'.groups = (m.groups.leave x).2) : m'.Flags done := by
  intro name g hget
  rw [hg] at hget ⊢
  rw [Groups.isNotAllocated_leave hc hget]
  obtain ⟨g', left, hg', -⟩ := Groups.members_leave hc hget
  exact h name g' hg'

/-! ### Registering -/

theorem isNotAllocated_enrol (m : Master) (r : ConsumerRegister) (name : String) :
    (m.enrolConsumer r).groups.isNotAllocated name =
      if r.group = name ∧ (r.subscribed ≠ [] ∨ r.notAllocated = false) then false
      else m.groups.isNotAllocated name := by
  have hgroups : (m.enrolConsumer r).groups =
      if !r.subscribed.isEmpty || !r.notAllocated then
        (m.groups.join r.toConsumer).setAllocated r.group
      else m.groups.join r.toConsumer := rfl
  have htaken : (!r.subscribed.isEmpty || !r.notAllocated) = true ↔
      r.subscribed ≠ [] ∨ r.notAllocated = false := by simp
  have hjoined : (m.groups.join r.toConsumer).group? r.group = some _ :=
    Groups.group?_join.trans (if_pos rfl)
  rw [hgroups]
  by_cases hallocated : r.subscribed ≠ [] ∨ r.notAllocated = false
  · rw [if_pos (htaken.mpr hallocated), Groups.isNotAllocated_setAllocated hjoined,
      Groups.isNotAllocated_join]
    simp only [hallocated, and_true]
  · rw [if_neg fun h => hallocated (htaken.mp h), Groups.isNotAllocated_join,
      if_neg fun h => hallocated h.2]

theorem Flags.enrol (h : m.Flags done) {r : ConsumerRegister}
    (hr : m.checkConsumerRegister r = .ok ()) :
    (m.enrolConsumer r).Flags (m.recorded Allocates done (.consumerRegister r)) := by
  intro name g hg
  have hdone : m.recorded Allocates done (.consumerRegister r) name ↔
      (r.group = name ∧ (r.subscribed ≠ [] ∨ r.notAllocated = false)) ∨
        (done name ∧ ¬(r.group = name ∧ m.groups.group? name = none)) := by
    simp only [recorded, Allocates, TakesUp, Presumes, Founds, hr, true_and, or_false]
  rw [hdone, isNotAllocated_enrol]
  split
  · rename_i htaken
    simp [htaken]
  · rename_i htaken
    simp only [htaken, false_or]
    cases hold : m.groups.group? name with
    | some g' => simpa using h name g' hold
    | none =>
      -- the group is there now, so it has been founded
      have hname : r.group = name := by
        by_contra hname
        rcases groups_enrol (m := m) (r := r) with he | he
        · rw [he, Groups.group?_join, if_neg (show r.toConsumer.group ≠ name from hname), hold] at hg
          cases hg
        · rw [he, Groups.group?_setAllocated, if_neg hname, Groups.group?_join,
            if_neg (show r.toConsumer.group ≠ name from hname), hold] at hg
          cases hg
      simp [hname, Groups.isNotAllocated, hold]

/-! ### Heartbeats -/

namespace Remembers

/-- Who sends a heartbeat as a member of a group is one. -/
theorem groupOf?_of_check (h : Remembers m done) {r : ConsumerHeartbeat}
    (hr : m.checkConsumerHeartbeat r = .ok ()) : m.groups.groupOf? r.consumer = some r.group := by
  obtain ⟨-, hgroup, htracked⟩ := of_checkConsumerHeartbeat hr
  obtain ⟨c, hc, hcg⟩ := (h.attended.attended.isTracked_iff h.registry hgroup.2).mp htracked
  obtain ⟨g, hg, hm⟩ := (Groups.consumer?_eq_some_iff h.registry.coherent).mp hc
  rw [← hcg]
  exact h.registry.coherent.placed.mpr ⟨g, hg, Table.contains_iff.mpr ⟨c, hm⟩⟩

theorem flags_consumerHeartbeat (h : Remembers m done) (r : ConsumerHeartbeat) :
    (m.after (.consumerHeartbeat r)).Flags (m.recorded Allocates done (.consumerHeartbeat r)) := by
  rcases after_consumerHeartbeat m r with ⟨hr, -⟩ | ⟨⟨e, hr⟩, he⟩
  · have hof := h.groupOf?_of_check hr
    have hdone : ∀ name, m.recorded Allocates done (.consumerHeartbeat r) name ↔
        (r.group = name ∧ r.acknowledged ≠ 0) ∨ done name := by
      intro name
      have hsome : ∀ o : Option Event, (∃ e, o = some e) ∨ o = none := by
        intro o
        cases o with
        | none => exact .inr rfl
        | some e => exact .inl ⟨e, rfl⟩
      simp only [recorded, Allocates, TakesUp, Presumes, Founds, Acknowledges, hr, hof, true_and,
        ← and_or_left, hsome, and_true, not_false_eq_true, Option.some.injEq]
    obtain ⟨g', hg', -⟩ := h.registry.coherent.placed.mp hof
    obtain ⟨events, holdings, he⟩ := consumerHeartbeat_touches hr
    rw [he]
    intro name g hg
    rw [hdone]
    simp only [] at hg ⊢
    split at hg
    · rename_i hack
      simpa [hack] using h.flags name g hg
    · rename_i hack
      rw [if_neg hack, Groups.isNotAllocated_setAllocated hg']
      split
      · rename_i hname
        simp [hname, hack]
      · rename_i hname
        rw [Groups.group?_setAllocated, if_neg hname] at hg
        simpa [hname] using h.flags name g hg
  · rw [he]
    have hsame : m.recorded Allocates done (.consumerHeartbeat r) = done := by
      funext name
      simp [recorded, Allocates, TakesUp, Presumes, Founds, Acknowledges, hr]
    rw [hsame]
    exact h.flags

/-! ### All operations -/

theorem flags_after (h : Remembers m done) (op : Operation) :
    (m.after op).Flags (m.recorded Allocates done op) := by
  have hother : (∀ r, op ≠ .consumerRegister r) → (∀ r, op ≠ .consumerHeartbeat r) →
      (m.after op).Flags done → (m.after op).Flags (m.recorded Allocates done op) := by
    intro hr hb hflags
    rw [recorded_of_other hr hb]
    exact hflags
  rcases op.cases with hop | ⟨r, rfl⟩ | ⟨r, rfl⟩ | hop | hop | rfl
  · refine hother ?_ ?_ (h.flags.of_groups (sameConsumers_after hop m).groups)
    · rintro r rfl
      cases hop
    · rintro r rfl
      cases hop
  · rcases after_consumerRegister m r with ⟨hr, he⟩ | ⟨⟨e, hr⟩, he⟩
    · rw [he]
      exact h.flags.enrol hr
    · have hsame : m.recorded Allocates done (.consumerRegister r) = done := by
        funext name
        simp [recorded, Allocates, TakesUp, Presumes, Founds, hr]
      rw [he, hsame]
      exact h.flags
  · exact h.flags_consumerHeartbeat r
  · refine hother ?_ ?_ ?_
    · rintro r rfl
      cases hop
    · rintro r rfl
      cases hop
    · exact (Registry.departure_induction (p := (Flags · done)) hop
        (fun _ _ _ hs hf => hf.of_groups hs.groups)
        (fun _ _ _ hr hd hf => hf.leave hr.coherent hd.groups) h.registry h.flags).2
  · obtain ⟨rows, he⟩ := after_of_isRowing hop m
    refine hother ?_ ?_ (he ▸ h.flags.of_groups rfl)
    · rintro r rfl
      cases hop
    · rintro r rfl
      cases hop
  · obtain ⟨events, lastPass, inFlight, firstPass, he⟩ := pass_touches m
    exact hother (fun r hr => by cases hr) (fun r hr => by cases hr) (he ▸ h.flags.of_groups rfl)

theorem after (h : Remembers m done) (op : Operation) :
    Remembers (m.after op) (m.recorded Allocates done op) :=
  ⟨h.registry.after op, h.attended.after h.registry op, h.flags_after op⟩

theorem run (h : Remembers m done) (ops : List Operation) :
    Remembers (m.run ops) (sinceFounded Allocates m done ops) := by
  induction ops generalizing m done with
  | nil => exact h
  | cons op ops ih => exact ih (h.after op)

theorem create {settings : Settings} {store : Store} (h : Master.create settings store = .ok m) :
    Remembers m fun _ => False := by
  refine ⟨Registry.create h, ConsumersAttended.create h, fun name g hg => ?_⟩
  obtain rfl := eq_of_create h
  cases hg

end Remembers

/-- After any history, a registered group counts as not allocated exactly when no member has taken
up partitions, nor presumed to, since the group was founded. -/
theorem notAllocated_iff {settings : Settings} {store : Store} {fresh : Master}
    (hfresh : create settings store = .ok fresh) (ops : List Operation) {name : String} {g : Group}
    (hg : (fresh.run ops).groups.group? name = some g) :
    g.notAllocated = true ↔ ¬sinceFounded TakesUp fresh (fun _ => False) ops name ∧
      ¬sinceFounded Presumes fresh (fun _ => False) ops name := by
  rw [← Groups.isNotAllocated_of hg, ((Remembers.create hfresh).run ops).flags name g hg, ← not_or,
    ← sinceFounded_or]
  simp only [or_false]
  rfl

end Master

/-! ## A flag that is wrong -/

namespace Hasty

open SmallCluster (joining)

def fresh : Master := { settings := {}, store := {} }

/-- The only member of a group acknowledges an event, and there is none. -/
def history : List Operation :=
  [.consumerRegister (joining "a" "g"),
   .consumerHeartbeat { consumer := "a", group := "g", acknowledged := 1 }]

theorem create_fresh : Master.create {} {} = .ok fresh := rfl

theorem nothing_sent :
    ((fresh.after (.consumerRegister (joining "a" "g"))).events.acknowledge "a" 1).1 = none := by cbv

theorem presumed : Master.sinceFounded Master.Presumes fresh (fun _ => False) history "g" :=
  .inl ⟨⟨by cbv, by cbv, by decide⟩, nothing_sent⟩

theorem not_taken_up :
    ¬Master.sinceFounded Master.TakesUp fresh (fun _ => False) history "g" := by
  rintro (⟨-, e, he⟩ | ⟨⟨-, -, hwith | hknows⟩ | ⟨hno, -⟩, -⟩)
  · cases nothing_sent.symm.trans he
  · exact hwith rfl
  · cases hknows
  · exact hno

/-- The group counts as allocated, although nobody has taken up anything. -/
theorem counts_as_allocated : Master.create {} {} = .ok fresh ∧
    ∃ g, (fresh.run history).groups.group? "g" = some g ∧
      ¬Master.sinceFounded Master.TakesUp fresh (fun _ => False) history "g" ∧
      ¬(g.notAllocated = true ↔
        ¬Master.sinceFounded Master.TakesUp fresh (fun _ => False) history "g") := by
  obtain ⟨g, hg⟩ : ∃ g, (fresh.run history).groups.group? "g" = some g :=
    Option.isSome_iff_exists.mp (by cbv)
  refine ⟨create_fresh, g, hg, not_taken_up, fun hright => ?_⟩
  exact ((Master.notAllocated_iff create_fresh history hg).mp (hright.mpr not_taken_up)).2 presumed

end Hasty

end ClusterMaster
