import ClusterMaster.Proofs.Subscribers

/-!
# Groups under any calls

Consumers are added and removed, and groups are marked as allocated, in any order and whatever the
calls are answered. Adding is one step after the other: the group is looked up or founded, founded
anew by its only member or else checked, and only then gets the member. It may fail after the
group has been looked up, but not after it has been founded, so a failure leaves nothing behind,
and adding is checking and then joining (`add_eq`). What all calls keep is `Agreed`: the two
records of the members agree, no group is without members, and members have the settings of their
group.

    after any calls: Agreed gs, and what calls report is what they do (Reports gs): who is refused
    leaves gs as it is, and who is removed is told whether its group is gone         (agreed_runs)
-/

namespace ClusterMaster.Groups

variable {gs : Groups} {id name : String} {c : Consumer} {g : Group}

/-! ## Adding, one step after the other -/

/-- Look up the group of a consumer; when there is none, the consumer founds it. -/
def entered (gs : Groups) (c : Consumer) : Group × Groups :=
  match gs.group? c.group with
  | some g => (g, gs)
  | none =>
    let g := Group.foundedBy c
    (g, { gs with groups := gs.groups.insert c.group g })

/-- Write a group back with the consumer as a member. -/
def seated (gs : Groups) (c : Consumer) (g : Group) : Groups where
  groups := gs.groups.insert c.group { g with members := g.members.insert c.id c }
  groupOf := gs.groupOf.insert c.id c.group

/-- Add a consumer, unless it is in another group or differs from the others of its group. -/
def add (gs : Groups) (c : Consumer) : Except Fault Unit × Groups :=
  match gs.groupOf? c.id with
  | some name =>
    if name ≠ c.group then
      (.error (.badRequest "consumer register"
        s!"consumer {c.id} is already registered in group {name}"), gs)
    else addToGroup
  | none => addToGroup
where
  addToGroup : Except Fault Unit × Groups :=
    let (g, gs) := gs.entered c
    if g.isSoleMember c.id then
      (.ok (), gs.seated c { Group.foundedBy c with notAllocated := g.notAllocated })
    else
      match g.checkMember c with
      | .error e => (.error e, gs)
      | .ok () => (.ok (), gs.seated c g)

theorem seated_entered (gs : Groups) (c : Consumer) (g : Group) :
    (gs.entered c).2.seated c g = gs.seated c g := by
  unfold entered
  split
  · rfl
  · unfold seated
    simp only [Groups.mk.injEq, and_true]
    refine Table.ext_get? fun k => ?_
    simp only [Table.get?_insert]
    split <;> rfl

theorem addToGroup_eq : add.addToGroup gs c =
    match checkJoin.checkGroup gs c with
    | .error e => (.error e, gs)
    | .ok () => (.ok (), gs.join c) := by
  unfold add.addToGroup
  simp only [seated_entered]
  unfold entered checkJoin.checkGroup
  cases hg : gs.group? c.group with
  | none =>
    -- the founder of a group is alone in it, so it is not checked
    have hjoined : gs.groupJoined c = Group.foundedBy c := by simp only [groupJoined, hg]
    have hsole : (Group.foundedBy c).isSoleMember c.id = true := rfl
    simp only [if_pos hsole]
    rw [join, hjoined]
    rfl
  | some g =>
    simp only []
    by_cases hsole : g.isSoleMember c.id = true
    · have hjoined : gs.groupJoined c =
          { Group.foundedBy c with notAllocated := g.notAllocated } := by
        simp only [groupJoined, hg, if_pos hsole]
      simp only [if_pos hsole]
      rw [join, hjoined]
      rfl
    · have hjoined : gs.groupJoined c = g := by simp only [groupJoined, hg, if_neg hsole]
      simp only [if_neg hsole]
      cases g.checkMember c with
      | error e => rfl
      | ok =>
        simp only []
        rw [join, hjoined]
        rfl

/-- To be added is to be checked and then to join. -/
theorem add_eq (gs : Groups) (c : Consumer) : gs.add c =
    match gs.checkJoin c with
    | .error e => (.error e, gs)
    | .ok () => (.ok (), gs.join c) := by
  unfold add checkJoin
  cases gs.groupOf? c.id with
  | none => exact addToGroup_eq
  | some name =>
    simp only []
    by_cases hother : name ≠ c.group
    · rw [if_pos hother, if_pos hother]
    · rw [if_neg hother, if_neg hother]
      exact addToGroup_eq

/-! ## What calls keep -/

/-- The two records of the members agree, every group has members, and they have its settings. -/
structure Agreed (gs : Groups) : Prop extends Coherent gs where
  inhabited : ∀ {name g}, gs.group? name = some g → g.members.isEmpty = false
  suits : ∀ {name g}, gs.group? name = some g → ∀ {id c}, g.members.get? id = some c → g.Suits c

theorem agreed_empty : Agreed {} where
  toCoherent := coherent_empty
  inhabited h := by cases h
  suits h := by cases h

theorem Agreed.join (h : gs.Agreed) (hj : gs.checkJoin c = .ok ()) : (gs.join c).Agreed where
  toCoherent := h.toCoherent.join hj
  inhabited := by
    intro n g hg
    rw [group?_join] at hg
    split at hg
    · obtain rfl := Option.some.inj hg
      exact List.isEmpty_eq_false_iff.mpr
        (List.ne_nil_of_mem (Table.get?_eq_some_iff.mp Table.get?_insert_self))
    · exact h.inhabited hg
  suits := by
    intro n g hg k d hd
    rw [group?_join] at hg
    split at hg
    · obtain rfl := Option.some.inj hg
      refine Group.Suits.congr ?_ _ _
      simp only [Table.get?_insert] at hd
      split at hd
      · obtain rfl := Option.some.inj hd
        exact (joins_of_checkJoin hj).2
      · rename_i hk
        exact h.suits (group?_groupJoined (Ne.symm hk) hd) hd
    · exact h.suits hg hd

theorem Agreed.add (h : gs.Agreed) (c : Consumer) : (gs.add c).2.Agreed := by
  rw [add_eq]
  split
  · exact h
  · rename_i hj
    exact h.join hj

theorem Agreed.leave (h : gs.Agreed) (x : String) : (gs.leave x).2.Agreed where
  toCoherent := h.toCoherent.leave x
  inhabited := by
    intro n g hg
    rw [group?_leave h.toCoherent] at hg
    split at hg
    · obtain ⟨g', -, hg⟩ := Option.bind_eq_some_iff.mp hg
      split at hg
      · cases hg
      · rename_i hleft
        obtain rfl := Option.some.inj hg
        exact Bool.eq_false_iff.mpr hleft
    · exact h.inhabited hg
  suits := by
    intro n g hg k c hc
    obtain ⟨g', left, hg', rfl, hleft⟩ := members_leave h.toCoherent hg
    rw [hleft] at hc
    split at hc
    · cases hc
    · exact (h.suits hg' hc).congr _ _

theorem Agreed.setAllocated (h : gs.Agreed) (name : String) : (gs.setAllocated name).Agreed := by
  have hgroup : ∀ {n g}, (gs.setAllocated name).group? n = some g →
      ∃ g' b, gs.group? n = some g' ∧ g = { g' with notAllocated := b } := by
    intro n g hg
    rw [group?_setAllocated] at hg
    split at hg
    · obtain ⟨g', hg', rfl⟩ := Option.map_eq_some_iff.mp hg
      exact ⟨g', _, hg', rfl⟩
    · exact ⟨g, _, hg, rfl⟩
  constructor
  case toCoherent => exact h.toCoherent.setAllocated name
  case inhabited =>
    intro n g hg
    obtain ⟨g', b, hg', rfl⟩ := hgroup hg
    exact h.inhabited (g := g') hg'
  case suits =>
    intro n g hg id c hc
    obtain ⟨g', b, hg', rfl⟩ := hgroup hg
    exact (h.suits (g := g') hg' hc).congr _ _

/-! ## Any calls -/

/-- A call that changes the groups. -/
inductive Call where
  | add (c : Consumer)
  | remove (id : String)
  | setAllocated (name : String)

/-- The groups after a call, whatever it is answered. -/
def after (gs : Groups) : Call → Groups
  | .add c => (gs.add c).2
  | .remove id => (gs.leave id).2
  | .setAllocated name => gs.setAllocated name

/-- The groups after some calls, at first there being none. -/
def runs (calls : List Call) : Groups := calls.foldl after {}

theorem Agreed.after (h : gs.Agreed) (call : Call) : (gs.after call).Agreed := by
  cases call with
  | add c => exact h.add c
  | remove id => exact h.leave id
  | setAllocated name => exact h.setAllocated name

/-! ## What calls report -/

/-- What is reported is what is done: whoever is refused leaves the groups as they are, whoever is
added is a member, and whoever is removed, having been in a group, hears whether that was the end
of the group. -/
structure Reports (gs : Groups) : Prop where
  refused : ∀ c e, (gs.add c).1 = .error e → (gs.add c).2 = gs
  added : ∀ c, (gs.add c).1 = .ok () → (gs.add c).2.consumer? c.id = some c
  absent : ∀ id, gs.groupOf? id = none → gs.leave id = (none, gs)
  removed : ∀ id name, gs.groupOf? id = some name → ∃ c dissolved,
    (gs.leave id).1 = some (c, dissolved) ∧ c.id = id ∧ c.group = name ∧
      (dissolved = true ↔ (gs.leave id).2.group? name = none)

/-- A member can be removed, and is told whether its group is gone. -/
theorem Agreed.exists_leave (h : gs.Agreed) (hof : gs.groupOf? id = some name) :
    ∃ c dissolved, (gs.leave id).1 = some (c, dissolved) ∧ c.id = id ∧ c.group = name ∧
      (dissolved = true ↔ (gs.leave id).2.group? name = none) := by
  obtain ⟨g, hg, hm⟩ := h.placed.mp hof
  obtain ⟨c, hc⟩ := Table.contains_iff.mp hm
  obtain ⟨hid, rfl, -⟩ := h.agrees hg hc
  have hconsumer : gs.consumer? id = some c := (consumer?_eq_some_iff h.toCoherent).mpr ⟨g, hg, hc⟩
  obtain ⟨⟨d, dissolved⟩, hl, hd⟩ := Option.map_eq_some_iff.mp ((leave_fst gs id).trans hconsumer)
  obtain rfl : d = c := hd
  refine ⟨d, dissolved, hl, hid, rfl, ?_⟩
  have hleft := (of_leave h.toCoherent hl).2
  cases dissolved with
  | true => simpa using hleft
  | false =>
    obtain ⟨g, left, -, -, hleft⟩ := hleft
    simp [hleft]

theorem Agreed.reports (h : gs.Agreed) : gs.Reports := by
  constructor
  case refused =>
    intro c e he
    rw [add_eq] at he ⊢
    split at he
    · rfl
    · cases he
  case added =>
    intro c hc
    rw [add_eq] at hc ⊢
    split at hc
    · cases hc
    · rename_i hj
      simp only []
      rw [consumer?_join h.toCoherent hj, if_pos rfl]
  case absent =>
    intro id hof
    rw [Groups.leave, hof]
  case removed => exact fun id name hof => h.exists_leave hof

/-- However consumers are added and removed, the groups agree, and calls report what they do. -/
theorem agreed_runs (calls : List Call) : (runs calls).Agreed ∧ (runs calls).Reports := by
  have h : (runs calls).Agreed :=
    List.foldlRecOn calls after agreed_empty fun _ h call _ => h.after call
  exact ⟨h, h.reports⟩

end ClusterMaster.Groups
