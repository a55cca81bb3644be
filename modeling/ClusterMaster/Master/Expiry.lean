import ClusterMaster.Master.Release

/-!
# Silent nodes

A scan of one class finds the nodes that have been silent for too long, stops tracking them and
releases what they held. A node that cannot be released because its row is held is tracked again,
so that a later scan retries.
-/

namespace ClusterMaster

/-- Read a number in decimal digits, with an optional plus sign, that fits a broker id. -/
def parseBrokerId (s : String) : Option BrokerId :=
  let digits :=
    match s.toList with
    | '+' :: ds => ds
    | ds => ds
  if digits.isEmpty || !digits.all Char.isDigit then none
  else
    let n := digits.foldl (fun n d => n * 10 + (d.toNat - '0'.toNat)) 0
    if n < UInt32.size then some (UInt32.ofNat n) else none

namespace Master

/-- Release the node behind a liveness key; a key that names no node is let go. -/
def releaseNode (m : Master) (c : NodeClass) (key : String) : Outcome Unit :=
  match c with
  | .producer => m.releaseProducer key
  | .consumer =>
    match splitLivenessKey key with
    | none => (.ok (), m)
    | some (id, _) =>
      match m.releaseConsumer id with
      | (.error e, m) => (.error e, m)
      | (.ok _, m) => (.ok (), m)
  | .broker =>
    match parseBrokerId key with
    | none => (.ok (), m)
    | some id => m.releaseBroker id

/-- Let a silent node go, or keep tracking it when it cannot be released. -/
def letGo (m : Master) (c : NodeClass) (key : String) : Master :=
  match (m.forget c key).releaseNode c key with
  | (.error _, m) => m.hear c key
  | (.ok (), m) => m

/-- Scan a list of nodes of a class and let those go that are overdue. -/
def letGoAll (m : Master) (c : NodeClass) : List String → List String × Master
  | [] => ([], m)
  | key :: keys =>
    if m.liveness.isOverdue c key (m.settings.timeout c) m.clock then
      let rest := (m.letGo c key).letGoAll c keys
      (key :: rest.1, rest.2)
    else m.letGoAll c keys

/-- Scan one class; answers with the keys that were overdue. -/
def expire (m : Master) (c : NodeClass) : List String × Master :=
  m.letGoAll c (m.liveness.keysOf c)

end Master

end ClusterMaster
