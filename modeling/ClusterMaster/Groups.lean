import ClusterMaster.Client
import ClusterMaster.Fault
import ClusterMaster.Text.Quoted

/-!
# Consumer groups

Consumers that share a group share its settings: topics, filter conditions, bound consumption.
The first member founds the group and, as long as it is alone, may found it anew with other
settings; later members must agree with them.

* `Groups.checkJoin` : whether a consumer may join;
* `Groups.join` : the groups once it has joined;
* `Groups.leave` : the groups once it has left, a group without members being dissolved.
-/

namespace ClusterMaster

/-- Settings and members of one consumer group. -/
structure Group where
  name : String
  topics : NameSet
  topicConditions : Table String NameSet
  bound : Bool
  selectBig : Bool
  sessionKey : String
  sourceCount : UInt32
  members : Table String Consumer := Table.empty
  /-- True until a member takes up its first partitions. -/
  notAllocated : Bool := true
  deriving DecidableEq

namespace Group

/-- The group a consumer founds, still without members. -/
def foundedBy (c : Consumer) : Group :=
  { name := c.group
    topics := c.topics
    topicConditions := c.topicConditions
    bound := c.bound
    selectBig := c.selectBig
    sessionKey := c.sessionKey
    sourceCount := c.sourceCount }

/-- Nobody but the consumer is a member. -/
def isSoleMember (g : Group) (id : String) : Bool := g.members.keys.toList.all fun k => k == id

/-- Whether a consumer agrees with the settings of the group; the first difference counts. -/
def checkMember (g : Group) (c : Consumer) : Except Fault Unit :=
  let refuse (reason : String) := Except.error (Fault.badRequest "consumer register" reason)
  if c.topics ≠ g.topics then
    let mine := Text.quotedSet c.topics.toList
    let theirs := Text.quotedSet g.topics.toList
    refuse s!"topics {mine} of {c.id} differ from group {g.name} topics {theirs}"
  else if c.topicConditions ≠ g.topicConditions then
    refuse s!"topic filter conditions of {c.id} differ from group {g.name}"
  else if c.bound ≠ g.bound then
    refuse s!"bound consumption flag of {c.id} differs from group {g.name}"
  else if g.bound ∧ c.sessionKey ≠ g.sessionKey then
    refuse s!"session key {c.sessionKey} differs from group {g.name} session {g.sessionKey}"
  else if g.bound ∧ c.sourceCount ≠ g.sourceCount then
    refuse s!"source count {c.sourceCount} differs from group {g.name} source count {g.sourceCount}"
  else .ok ()

end Group

/-- All consumer groups, and the group of each consumer. -/
structure Groups where
  groups : Table String Group := Table.empty
  groupOf : Table String String := Table.empty
  deriving DecidableEq

namespace Groups

def group? (gs : Groups) (name : String) : Option Group := gs.groups.get? name

def groupOf? (gs : Groups) (consumer : String) : Option String := gs.groupOf.get? consumer

def contains (gs : Groups) (consumer : String) : Bool := gs.groupOf.contains consumer

def consumer? (gs : Groups) (consumer : String) : Option Consumer :=
  (gs.groupOf? consumer).bind fun g => (gs.group? g).bind fun g => g.members.get? consumer

/-- All group names, in ascending order. -/
def names (gs : Groups) : List String := gs.groups.keys.toList

/-- The members of a group, by id. -/
def membersOf (gs : Groups) (name : String) : List Consumer :=
  ((gs.group? name).map fun g => g.members.values).getD []

def memberCount (gs : Groups) (name : String) : Nat := (gs.membersOf name).length

/-- A group that does not exist counts as not allocated. -/
def isNotAllocated (gs : Groups) (name : String) : Bool :=
  ((gs.group? name).map Group.notAllocated).getD true

def setAllocated (gs : Groups) (name : String) : Groups :=
  { gs with groups := gs.groups.modify name fun g => { g with notAllocated := false } }

/-- Whether a consumer may join its group: it is in no other group and agrees with the others. -/
def checkJoin (gs : Groups) (c : Consumer) : Except Fault Unit :=
  match gs.groupOf? c.id with
  | some g =>
    if g ≠ c.group then
      .error (.badRequest "consumer register"
        s!"consumer {c.id} is already registered in group {g}")
    else checkGroup
  | none => checkGroup
where
  checkGroup : Except Fault Unit :=
    match gs.group? c.group with
    | some g => if g.isSoleMember c.id then .ok () else g.checkMember c
    | none => .ok ()

/-- The group a joining consumer finds itself in: a group of its own takes its settings. -/
def groupJoined (gs : Groups) (c : Consumer) : Group :=
  match gs.group? c.group with
  | some g =>
    if g.isSoleMember c.id then { Group.foundedBy c with notAllocated := g.notAllocated } else g
  | none => Group.foundedBy c

/-- Add or replace a member. -/
def join (gs : Groups) (c : Consumer) : Groups :=
  let g := gs.groupJoined c
  { groups := gs.groups.insert c.group { g with members := g.members.insert c.id c }
    groupOf := gs.groupOf.insert c.id c.group }

/-- Remove a member. Answers with it and with whether its group is dissolved. -/
def leave (gs : Groups) (consumer : String) : Option (Consumer × Bool) × Groups :=
  match gs.groupOf? consumer with
  | none => (none, gs)
  | some name =>
    let gs := { gs with groupOf := gs.groupOf.erase consumer }
    match gs.group? name with
    | none => (none, gs)
    | some g =>
      match g.members.get? consumer with
      | none => (none, gs)
      | some c =>
        let left := { g with members := g.members.erase consumer }
        if left.members.isEmpty then
          (some (c, true), { gs with groups := gs.groups.erase name })
        else
          (some (c, false), { gs with groups := gs.groups.insert name left })

end Groups

end ClusterMaster
