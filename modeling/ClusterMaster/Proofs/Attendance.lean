import ClusterMaster.Proofs.Hosting

/-!
# Nobody is tracked who is not registered

A node is registered in the table of its class and heard of under a liveness key. The two are
written by different steps of a dozen operations, some of which stop midway at a held row, and a
scan for silent nodes reads one while it changes the other. Still, between operations, the keys
tracked of a class are those of its registered nodes (`Attended`). Nodes join (`Joins`) and leave
(`Departs`) tracking and registration together; a scan takes the key away first and gives it back
when the node cannot be released (`Attended.letGo`).

    operations of other classes change nothing about it                            (sameIn_after)
    producers are attended, and filed under their own ids                (ProducersAttended.after)
    consumers are attended, and nobody else holds anything               (ConsumersAttended.after)
-/

namespace ClusterMaster

/-! ## Keys -/

/-- The id of a broker is read back from its liveness key. -/
theorem parseBrokerId_brokerKey (id : BrokerId) : parseBrokerId (brokerKey id) = some id := by
  have hlist : (brokerKey id).toList = Nat.toDigits 10 id.toNat := by simp [brokerKey]
  have hdigits : ∀ c ∈ Nat.toDigits 10 id.toNat, c.isDigit = true :=
    fun c hc => Nat.isDigit_of_mem_toDigits (by decide) (by decide) hc
  have hvalue : (Nat.toDigits 10 id.toNat).foldl
      (fun n d => n * 10 + (d.toNat - '0'.toNat)) 0 = id.toNat := by
    have hread : Nat.ofDigitChars 10 (Nat.toDigits 10 id.toNat) 0 = id.toNat := by simp
    simpa only [Nat.ofDigitChars, Nat.mul_comm] using hread
  have hsome : (Nat.toDigits 10 id.toNat).isEmpty = false :=
    List.isEmpty_eq_false_iff.mpr Nat.toDigits_ne_nil
  have hall : (Nat.toDigits 10 id.toNat).all Char.isDigit = true := List.all_eq_true.mpr hdigits
  have hlt : id.toNat < UInt32.size := id.toNat_lt
  unfold parseBrokerId
  rw [hlist]
  split
  · rename_i ds hplus
    exact absurd (hplus ▸ List.mem_cons_self) (not_mem_toDigits (c := '+') rfl id.toNat)
  · simp only [hsome, hall, hvalue, Bool.not_true, Bool.or_self, Bool.false_eq_true, if_false]
    rw [if_pos hlt, UInt32.ofNat_toNat]

theorem brokerKey_inj {id j : BrokerId} : brokerKey id = brokerKey j ↔ id = j := by
  constructor
  · intro h
    have hparse := parseBrokerId_brokerKey id
    rw [h, parseBrokerId_brokerKey] at hparse
    exact (Option.some.inj hparse).symm
  · intro h
    rw [h]

namespace Master

variable {m m' : Master} {c : NodeClass} {key k : String} {op : Operation}

theorem isRegistered_hear_iff : (m.hear c key).liveness.isRegistered c k = true ↔
    key = k ∨ m.liveness.isRegistered c k = true := by
  rw [isRegistered_hear]
  simp

theorem isRegistered_forget_iff : (m.forget c key).liveness.isRegistered c k = true ↔
    key ≠ k ∧ m.liveness.isRegistered c k = true := by
  rw [isRegistered_forget]
  simp

theorem checkKnown_ok_iff {l : Liveness} :
    l.checkKnown c key = .ok () ↔ l.isRegistered c key = true := by
  unfold Liveness.checkKnown
  cases l.isRegistered c key <;> simp

/-! ## Tracked and registered -/

/-- A registered node of the class is heard of under this key. -/
def Enlisted (m : Master) : NodeClass → String → Prop
  | .producer, key => m.producers.contains key = true
  | .consumer, key => ∃ id c, m.groups.consumer? id = some c ∧ c.livenessKey = key
  | .broker, key => ∃ id, m.brokers.contains id = true ∧ brokerKey id = key

/-- The keys tracked of a class are those of its registered nodes. -/
def Attended (c : NodeClass) (m : Master) : Prop :=
  ∀ key, m.liveness.isRegistered c key = true ↔ m.Enlisted c key

/-- A node is registered and heard of, or both anew. -/
structure Joins (c : NodeClass) (key : String) (m m' : Master) : Prop where
  tracked : ∀ k, m'.liveness.isRegistered c k = true ↔ key = k ∨ m.liveness.isRegistered c k = true
  enlisted : ∀ k, m'.Enlisted c k ↔ key = k ∨ m.Enlisted c k

/-- The nodes with these keys are neither registered nor tracked any more. -/
structure Departs (c : NodeClass) (gone : String → Prop) (m m' : Master) : Prop where
  tracked : ∀ k, m'.liveness.isRegistered c k = true ↔ ¬ gone k ∧ m.liveness.isRegistered c k = true
  enlisted : ∀ k, m'.Enlisted c k ↔ ¬ gone k ∧ m.Enlisted c k

theorem Joins.attended (h : Joins c key m m') (hm : Attended c m) : Attended c m' := by
  intro k
  rw [h.tracked, h.enlisted, hm k]

theorem Departs.attended {gone : String → Prop} (h : Departs c gone m m') (hm : Attended c m) :
    Attended c m' := by
  intro k
  rw [h.tracked, h.enlisted, hm k]

theorem Attended.create {settings : Settings} {store : Store} (c : NodeClass)
    (h : Master.create settings store = .ok m) : Attended c m := by
  obtain rfl := eq_of_create h
  intro key
  constructor
  · intro ht
    cases ht
  · intro he
    cases c with
    | producer => cases he
    | consumer =>
      obtain ⟨id, c, hc, -⟩ := he
      cases hc
    | broker =>
      obtain ⟨id, hb, -⟩ := he
      cases hb

/-- Hearing once more of a registered node changes nothing. -/
theorem joins_hear (he : m.Enlisted c key) : Joins c key m (m.hear c key) where
  tracked _ := isRegistered_hear_iff
  enlisted k := by
    have hsame : (m.hear c key).Enlisted c k ↔ m.Enlisted c k := by cases c <;> exact Iff.rfl
    rw [hsame]
    constructor
    · exact .inr
    · rintro (rfl | h)
      · exact he
      · exact h

theorem Attended.hear (h : Attended c m) (ht : m.liveness.isRegistered c key = true) :
    Attended c (m.hear c key) :=
  (joins_hear ((h key).mp ht)).attended h

/-! ## Other classes -/

/-- The tables of a class are the same. -/
def SameTables : NodeClass → Master → Master → Prop
  | .producer, m, m' => m'.producers = m.producers
  | .consumer, m, m' => m'.groups = m.groups ∧ m'.holdings = m.holdings
  | .broker, m, m' => m'.brokers = m.brokers

/-- The same is registered of a class, and the same is tracked. -/
structure SameIn (c : NodeClass) (m m' : Master) : Prop where
  tables : SameTables c m m'
  tracked : ∀ key, m'.liveness.isRegistered c key = m.liveness.isRegistered c key

theorem SameIn.attended (h : SameIn c m m') (hm : Attended c m) : Attended c m' := by
  intro key
  have htables := h.tables
  have hsame : m'.Enlisted c key ↔ m.Enlisted c key := by
    cases c with
    | producer =>
      show m'.producers.contains key = true ↔ m.producers.contains key = true
      rw [show m'.producers = m.producers from htables]
    | consumer =>
      show (∃ id c, m'.groups.consumer? id = some c ∧ _) ↔ ∃ id c, m.groups.consumer? id = some c ∧ _
      rw [htables.1]
    | broker =>
      show (∃ id, m'.brokers.contains id = true ∧ _) ↔ ∃ id, m.brokers.contains id = true ∧ _
      rw [show m'.brokers = m.brokers from htables]
  rw [h.tracked, hm key, hsame]

theorem SameIn.of_eq (hl : m'.liveness = m.liveness) (hp : m'.producers = m.producers)
    (hg : m'.groups = m.groups) (hh : m'.holdings = m.holdings) (hb : m'.brokers = m.brokers) :
    SameIn c m m' := by
  refine ⟨?_, fun key => by rw [hl]⟩
  cases c with
  | producer => exact hp
  | consumer => exact ⟨hg, hh⟩
  | broker => exact hb

theorem DiffersIn.sameIn {d : NodeClass} (h : DiffersIn d m m') (hd : d ≠ c) : SameIn c m m' := by
  have htables : SameTables c m m' := by
    have hdiffer := h.tables
    cases d with
    | producer =>
      obtain ⟨_, _, _, rfl⟩ := hdiffer
      cases c with
      | producer => exact absurd rfl hd
      | consumer => exact ⟨rfl, rfl⟩
      | broker => rfl
    | consumer =>
      obtain ⟨_, _, _, _, _, rfl⟩ := hdiffer
      cases c with
      | consumer => exact absurd rfl hd
      | _ => rfl
    | broker =>
      obtain ⟨_, _, _, _, rfl⟩ := hdiffer
      cases c with
      | producer => rfl
      | consumer => exact ⟨rfl, rfl⟩
      | broker => exact absurd rfl hd
  refine ⟨htables, fun key => ?_⟩
  unfold Liveness.isRegistered Table.contains
  rw [h.lastSeen c key hd]

/-- What hears of no node of a class and lets none go leaves it alone. -/
theorem sameIn_after (hop : op.class? ≠ some c) (m : Master) : SameIn c m (m.after op) := by
  cases hclass : op.class? with
  | some d =>
    refine (differsIn_after hclass m).sameIn fun hd => hop ?_
    rw [hclass, hd]
  | none =>
    have hs := sameNodes_after hclass m
    exact .of_eq hs.liveness hs.producers hs.groups hs.holdings hs.brokers

/-! ## Scans -/

/-- A node that is let go is tracked no more, or tracked again because it is still registered. -/
theorem Attended.letGo (h : Attended c m) (ht : m.liveness.isRegistered c key = true)
    (hgone : ((m.forget c key).releaseNode c key).1 = .ok () →
      Departs c (· = key) (m.forget c key) ((m.forget c key).releaseNode c key).2)
    (hkept : ((m.forget c key).releaseNode c key).1 ≠ .ok () →
      Departs c (fun _ => False) (m.forget c key) ((m.forget c key).releaseNode c key).2) :
    Attended c (m.letGo c key) := by
  have henlisted : ∀ k, (m.forget c key).Enlisted c k ↔ m.Enlisted c k := by
    intro k
    cases c <;> exact Iff.rfl
  unfold Master.letGo
  split
  · rename_i e m₁ heq
    rw [heq] at hkept
    have hd := hkept (by simp)
    have hj : Joins c key m (m₁.hear c key) := by
      refine ⟨fun k => ?_, fun k => ?_⟩
      · rw [isRegistered_hear_iff, hd.tracked, isRegistered_forget_iff]
        by_cases hk : key = k <;> simp [hk]
      · have hsame : (m₁.hear c key).Enlisted c k ↔ m₁.Enlisted c k := by cases c <;> exact Iff.rfl
        rw [hsame, hd.enlisted, henlisted]
        constructor
        · exact fun he => .inr he.2
        · rintro (rfl | he)
          · exact ⟨fun hf => hf, (h key).mp ht⟩
          · exact ⟨fun hf => hf, he⟩
    exact hj.attended h
  · rename_i u m₁ heq
    rw [heq] at hgone
    have hd := hgone rfl
    intro k
    rw [hd.tracked, hd.enlisted, isRegistered_forget_iff, henlisted, h k]
    constructor
    · exact fun hk => ⟨hk.1, hk.2.2⟩
    · exact fun hk => ⟨hk.1, fun e => hk.1 e.symm, hk.2⟩

/-! ## Producers -/

/-- Producers are filed under their own ids, and those and no others are tracked. -/
structure ProducersAttended (m : Master) : Prop where
  attended : Attended .producer m
  filed : ∀ id p, m.producers.get? id = some p → p.id = id

theorem departs_dropProducer (m : Master) (id : String) :
    Departs .producer (· = id) m (m.dropProducer id) := by
  unfold dropProducer
  simp only []
  split
  · rename_i hnone
    refine ⟨fun k => ?_, fun k => ?_⟩
    · rw [isRegistered_forget_iff, ne_comm]
    · show m.producers.contains k = true ↔ k ≠ id ∧ m.producers.contains k = true
      constructor
      · intro hk
        refine ⟨?_, hk⟩
        rintro rfl
        obtain ⟨p, hp⟩ := Table.contains_iff.mp hk
        rw [show m.producers.get? k = none from hnone] at hp
        cases hp
      · exact fun hk => hk.2
  · refine ⟨fun k => ?_, fun k => ?_⟩
    · show (m.forget .producer id).liveness.isRegistered .producer k = true ↔ _
      rw [isRegistered_forget_iff, ne_comm]
    · show (m.producers.erase id).contains k = true ↔ k ≠ id ∧ m.producers.contains k = true
      rw [Table.contains_erase_iff, ne_comm]

theorem filed_dropProducer {id : String} (h : ∀ id p, m.producers.get? id = some p → p.id = id) :
    ∀ x p, (m.dropProducer id).producers.get? x = some p → p.id = x := by
  unfold dropProducer
  simp only []
  split
  · exact h
  · intro x p hp
    change (m.producers.erase id).get? x = some p at hp
    rw [Table.get?_erase] at hp
    split at hp
    · cases hp
    · exact h x p hp

theorem filed_releaseProducer {id : String} (h : ∀ id p, m.producers.get? id = some p → p.id = id) :
    ∀ x p, (m.releaseProducer id).2.producers.get? x = some p → p.id = x :=
  allow_snd (p := fun m => ∀ x p, m.producers.get? x = some p → p.id = x) h (filed_dropProducer h)

namespace ProducersAttended

theorem create {settings : Settings} {store : Store} (h : Master.create settings store = .ok m) :
    ProducersAttended m := by
  refine ⟨.create _ h, ?_⟩
  obtain rfl := eq_of_create h
  intro id p hp
  cases hp

theorem producerRegister (h : ProducersAttended m) (r : ProducerRegister) :
    ProducersAttended (m.producerRegister r).2 := by
  refine allow_snd h ?_
  have htracked : ∀ k, (m.enrolProducer r).liveness.isRegistered .producer k = true ↔
      r.producer = k ∨ m.liveness.isRegistered .producer k = true :=
    fun _ => isRegistered_hear_iff (m := m)
  have hjoins : Joins .producer r.producer m (m.enrolProducer r) :=
    ⟨htracked, fun _ => Table.contains_insert_iff⟩
  refine ⟨hjoins.attended h.attended, fun id p hp => ?_⟩
  change (m.producers.insert r.producer _).get? id = some p at hp
  rw [Table.get?_insert] at hp
  split at hp
  · rename_i hid
    obtain rfl := Option.some.inj hp
    exact hid
  · exact h.filed id p hp

theorem producerHeartbeat (h : ProducersAttended m) (r : ProducerHeartbeat) :
    ProducersAttended (m.producerHeartbeat r).2 := by
  rcases allow_cases m (m.checkProducerHeartbeat r) _ with ⟨hcheck, he⟩ | ⟨e, -, he⟩
  · rw [Master.producerHeartbeat, he]
    have hknown : m.liveness.isRegistered .producer r.producer = true := by
      unfold checkProducerHeartbeat at hcheck
      obtain ⟨-, hcheck⟩ := bind_eq_ok_iff.mp hcheck
      obtain ⟨-, hcheck⟩ := bind_eq_ok_iff.mp hcheck
      obtain ⟨-, hcheck⟩ := bind_eq_ok_iff.mp hcheck
      exact checkKnown_ok_iff.mp hcheck
    have hheard : ProducersAttended (m.hear .producer r.producer) :=
      ⟨h.attended.hear hknown, h.filed⟩
    simp only []
    split
    · exact hheard
    · rename_i p hp
      unfold retopicProducer
      split
      · exact hheard
      · have hid : p.id = r.producer := h.filed _ p hp
        refine ⟨fun k => ?_, fun id q hq => ?_⟩
        · refine (hheard.attended k).trans ?_
          show m.producers.contains k = true ↔ (m.producers.insert p.id _).contains k = true
          rw [Table.contains_insert_iff, hid]
          constructor
          · exact .inr
          · rintro (rfl | hk)
            · exact Table.contains_iff.mpr ⟨p, hp⟩
            · exact hk
        · change (m.producers.insert p.id _).get? id = some q at hq
          rw [Table.get?_insert] at hq
          split at hq
          · rename_i hpid
            obtain rfl := Option.some.inj hq
            exact hpid
          · exact h.filed id q hq
  · rw [Master.producerHeartbeat, he]
    exact h

theorem releaseProducer (h : ProducersAttended m) (id : String) :
    ProducersAttended (m.releaseProducer id).2 :=
  allow_snd h ⟨(departs_dropProducer m id).attended h.attended, filed_dropProducer h.filed⟩

theorem letGo (h : ProducersAttended m) {key : String}
    (ht : m.liveness.isRegistered .producer key = true) :
    ProducersAttended (m.letGo .producer key) := by
  refine ⟨h.attended.letGo ht (fun hok => ?_) (fun hno => ?_), ?_⟩
  · rcases allow_cases (m.forget .producer key) _ (.ok (), (m.forget .producer key).dropProducer key)
      with ⟨-, he⟩ | ⟨e, -, he⟩
    · rw [show (m.forget .producer key).releaseNode .producer key = _ from he]
      exact departs_dropProducer _ key
    · rw [show (m.forget .producer key).releaseNode .producer key = _ from he] at hok
      cases hok
  · rcases allow_cases (m.forget .producer key) _ (.ok (), (m.forget .producer key).dropProducer key)
      with ⟨-, he⟩ | ⟨e, -, he⟩
    · rw [show (m.forget .producer key).releaseNode .producer key = _ from he] at hno
      exact absurd rfl hno
    · rw [show (m.forget .producer key).releaseNode .producer key = _ from he]
      exact ⟨fun k => by simp, fun k => by simp⟩
  · refine letGo_of_release (p := fun m => ∀ id p, m.producers.get? id = some p → p.id = id)
      (fun _ hm => hm) ?_
    exact filed_releaseProducer (m := m.forget .producer key) h.filed

/-- Every operation keeps track of the producers. -/
theorem after (h : ProducersAttended m) (op : Operation) : ProducersAttended (m.after op) := by
  by_cases hop : op.class? = some .producer
  · cases op with
    | producerRegister r => exact h.producerRegister r
    | producerHeartbeat r => exact h.producerHeartbeat r
    | producerClose id => exact allow_snd h (h.releaseProducer id)
    | expire c =>
      cases hop
      exact letGoAll_induction (fun m key ht hm => hm.letGo ht) m _ h
    | _ => cases hop
  · have hs := sameIn_after hop m
    exact ⟨hs.attended h.attended, (show (m.after op).producers = m.producers from hs.tables) ▸ h.filed⟩

end ProducersAttended

/-! ## Consumers -/

/-- Registered consumers and no others are tracked, and nobody else holds anything. -/
structure ConsumersAttended (m : Master) : Prop where
  attended : Attended .consumer m
  held : ∀ id, m.holdings.contains id = true → ∃ c, m.groups.consumer? id = some c

theorem departs_dropConsumer (hc : m.groups.Coherent) (hu : m.GroupsUsable) (x : String) :
    Departs .consumer (fun k => ∃ c, m.groups.consumer? x = some c ∧ c.livenessKey = k) m
      (m.dropConsumer x).2 := by
  have hdrop := dropConsumer_spec hc hu x
  refine ⟨fun k => ?_, fun k => ?_⟩
  · have hfst := Groups.leave_fst m.groups x
    unfold dropConsumer
    simp only []
    split
    · rename_i groups hleave
      rw [hleave, Option.map_none] at hfst
      simp [← hfst]
    · rename_i c dissolved groups hleave
      rw [hleave, Option.map_some] at hfst
      have hforget : (m.forget .consumer c.livenessKey).liveness.isRegistered .consumer k = true ↔
          ¬ (∃ d, m.groups.consumer? x = some d ∧ d.livenessKey = k) ∧
            m.liveness.isRegistered .consumer k = true := by
        rw [isRegistered_forget_iff, ← hfst]
        simp
      split <;> exact hforget
  · show (∃ id c, (m.dropConsumer x).2.groups.consumer? id = some c ∧ c.livenessKey = k) ↔
      ¬ (∃ d, m.groups.consumer? x = some d ∧ d.livenessKey = k) ∧
        ∃ id c, m.groups.consumer? id = some c ∧ c.livenessKey = k
    constructor
    · rintro ⟨id, c, hget, rfl⟩
      obtain ⟨hne, hget⟩ := (hdrop.consumer?_iff hc).mp hget
      refine ⟨?_, id, c, hget, rfl⟩
      rintro ⟨d, hd, hkey⟩
      -- consumers with one key have one id
      refine livenessKey_ne (hu x d hd) (hu id c hget) ?_ hkey
      rw [hc.id_eq hd, hc.id_eq hget]
      exact hne
    · rintro ⟨hno, id, c, hget, rfl⟩
      refine ⟨id, c, (hdrop.consumer?_iff hc).mpr ⟨?_, hget⟩, rfl⟩
      rintro rfl
      exact hno ⟨c, hget, rfl⟩

theorem joins_enrolConsumer (h : Registry m) {r : ConsumerRegister}
    (hr : m.checkConsumerRegister r = .ok ()) :
    Joins .consumer (livenessKey r.consumer r.group) m (m.enrolConsumer r) := by
  obtain ⟨-, -, hj⟩ := of_checkConsumerRegister hr
  refine ⟨fun k => isRegistered_hear_iff (m := m), fun k => ?_⟩
  show (∃ id c, (m.enrolConsumer r).groups.consumer? id = some c ∧ c.livenessKey = k) ↔
    livenessKey r.consumer r.group = k ∨ ∃ id c, m.groups.consumer? id = some c ∧ c.livenessKey = k
  simp only [consumer?_enrol h.coherent hj]
  constructor
  · rintro ⟨id, c, hget, rfl⟩
    split at hget
    · obtain rfl := Option.some.inj hget
      exact .inl rfl
    · exact .inr ⟨id, c, hget, rfl⟩
  · rintro (rfl | ⟨id, c, hget, rfl⟩)
    · exact ⟨r.consumer, r.toConsumer, if_pos rfl, rfl⟩
    · by_cases hid : id = r.consumer
      · -- who registers anew does so in its own group, under the key it had
        subst hid
        refine ⟨r.consumer, r.toConsumer, if_pos rfl, ?_⟩
        have hgroup : c.group = r.group := by
          obtain ⟨g, hg, hmem⟩ := (Groups.consumer?_eq_some_iff h.coherent).mp hget
          have hof := h.coherent.placed.mpr ⟨g, hg, Table.contains_iff.mpr ⟨c, hmem⟩⟩
          rcases (Groups.of_checkJoin hj).1 with hnone | hsame
          · rw [show m.groups.groupOf? r.consumer = none from hnone] at hof
            cases hof
          · exact Option.some.inj (hof.symm.trans hsame)
        show livenessKey r.consumer r.group = livenessKey c.id c.group
        rw [hgroup, h.coherent.id_eq hget]
      · exact ⟨id, c, by rw [if_neg hid]; exact hget, rfl⟩

/-- A heartbeat that is accepted is heard, and otherwise leaves everybody tracked as before. -/
theorem liveness_consumerHeartbeat {r : ConsumerHeartbeat}
    (h : m.checkConsumerHeartbeat r = .ok ()) : (m.after (.consumerHeartbeat r)).liveness =
      (m.hear .consumer (livenessKey r.consumer r.group)).liveness := by
  obtain ⟨events, holdings, he⟩ := consumerHeartbeat_touches h
  rw [he]

/-- Who may send a heartbeat as a member of a group is tracked as one. -/
theorem of_checkConsumerHeartbeat {r : ConsumerHeartbeat} (h : m.checkConsumerHeartbeat r = .ok ()) :
    Usable r.consumer ∧ Usable r.group ∧ m.isTracked r.consumer r.group = true := by
  unfold checkConsumerHeartbeat at h
  obtain ⟨-, h⟩ := bind_eq_ok_iff.mp h
  obtain ⟨hvalid, h⟩ := bind_eq_ok_iff.mp h
  obtain ⟨-, hknown⟩ := bind_eq_ok_iff.mp h
  unfold ConsumerHeartbeat.validate at hvalid
  obtain ⟨hid, hvalid⟩ := bind_eq_ok_iff.mp hvalid
  obtain ⟨hgroup, -⟩ := bind_eq_ok_iff.mp hvalid
  exact ⟨requireName_ok_iff.mp hid, requireName_ok_iff.mp hgroup, checkKnown_ok_iff.mp hknown⟩

/-- Who is tracked as a member of a group is one. -/
theorem Attended.isTracked_iff (h : Attended .consumer m) (hr : Registry m) {id group : String}
    (hg : '@' ∉ group.toList) : m.isTracked id group = true ↔
      ∃ c, m.groups.consumer? id = some c ∧ c.group = group := by
  unfold isTracked
  rw [h]
  constructor
  · rintro ⟨x, c, hget, hkey⟩
    obtain ⟨hid, hgroup⟩ := (livenessKey_inj (hr.groupsUsable x c hget) hg).mp hkey
    obtain rfl : x = id := (hr.coherent.id_eq hget).symm.trans hid
    exact ⟨c, hget, hgroup⟩
  · rintro ⟨c, hget, rfl⟩
    refine ⟨id, c, hget, ?_⟩
    rw [Consumer.livenessKey, hr.coherent.id_eq hget]

theorem hear_forget : (m.forget c key).hear c key = m.hear c key := by
  simp only [hear, forget, Liveness.register, Liveness.unregister, Table.insert_erase]

/-- Who leaves a group is forgotten anyway. -/
theorem dropConsumer_forget {c : Consumer} (hget : m.groups.consumer? c.id = some c) :
    ((m.forget .consumer c.livenessKey).dropConsumer c.id).2 = (m.dropConsumer c.id).2 := by
  have hfst := Groups.leave_fst m.groups c.id
  rw [hget] at hfst
  unfold dropConsumer
  simp only [forget]
  cases hleave : m.groups.leave c.id with
  | mk left groups =>
    rw [hleave] at hfst
    obtain ⟨⟨d, dissolved⟩, rfl, hd⟩ := Option.map_eq_some_iff.mp hfst
    obtain rfl : d = c := hd
    simp only [Liveness.unregister, Table.erase_erase]

/-- A silent consumer leaves, or counts as heard of just now where its row is held. -/
theorem letGo_member (hr : Registry m) {c : Consumer} (hget : m.groups.consumer? c.id = some c) :
    m.letGo .consumer c.livenessKey =
      if m.consumerRows.isLocked c.id = true then m.hear .consumer c.livenessKey
      else (m.dropConsumer c.id).2 := by
  have hsplit : splitLivenessKey c.livenessKey = some (c.id, c.group) :=
    splitLivenessKey_livenessKey c.id (hr.groupsUsable c.id c hget)
  have hrows : (m.forget .consumer c.livenessKey).consumerRows = m.consumerRows := rfl
  unfold letGo releaseNode releaseConsumer RowLock.checkFree
  simp only [hsplit, hrows]
  by_cases hheld : m.consumerRows.isLocked c.id = true
  · simp only [if_pos hheld, allow, hear_forget]
  · simp only [if_neg hheld, allow, dropConsumer_forget hget]

namespace ConsumersAttended

theorem create {settings : Settings} {store : Store} (h : Master.create settings store = .ok m) :
    ConsumersAttended m := by
  refine ⟨.create _ h, fun id hheld => ?_⟩
  obtain rfl := eq_of_create h
  cases hheld

theorem consumerRegister (h : ConsumersAttended m) (hr : Registry m) (r : ConsumerRegister) :
    ConsumersAttended (m.after (.consumerRegister r)) := by
  rcases after_consumerRegister m r with ⟨hcheck, he⟩ | ⟨-, he⟩
  · rw [he]
    obtain ⟨-, -, hj⟩ := of_checkConsumerRegister hcheck
    refine ⟨(joins_enrolConsumer hr hcheck).attended h.attended, fun id hheld => ?_⟩
    rw [consumer?_enrol hr.coherent hj]
    by_cases hid : id = r.consumer
    · exact ⟨r.toConsumer, if_pos hid⟩
    · rw [if_neg hid]
      refine h.held id ?_
      rw [Table.contains, holdings_enrol, if_neg (Ne.symm hid)] at hheld
      exact hheld
  · rw [he]
    exact h

theorem consumerHeartbeat (h : ConsumersAttended m) (hr : Registry m) (r : ConsumerHeartbeat) :
    ConsumersAttended (m.after (.consumerHeartbeat r)) := by
  rcases after_consumerHeartbeat m r with ⟨hcheck, hb⟩ | ⟨-, he⟩
  · obtain ⟨-, hgroup, htracked⟩ := of_checkConsumerHeartbeat hcheck
    obtain ⟨c, hc, -⟩ := (h.attended.isTracked_iff hr hgroup.2).mp htracked
    refine ⟨fun k => ?_, fun id hheld => ?_⟩
    · rw [liveness_consumerHeartbeat hcheck]
      refine ((h.attended.hear htracked) k).trans ?_
      show (∃ id c, m.groups.consumer? id = some c ∧ c.livenessKey = k) ↔
        ∃ id c, (m.after (.consumerHeartbeat r)).groups.consumer? id = some c ∧ c.livenessKey = k
      simp only [hb.consumer?]
    · rw [hb.consumer?]
      by_cases hid : r.consumer = id
      · exact ⟨c, hid ▸ hc⟩
      · refine h.held id ?_
        rw [Table.contains, hb.others id hid] at hheld
        exact hheld
  · rw [he]
    exact h

theorem dropConsumer (h : ConsumersAttended m) (hr : Registry m) (x : String) :
    ConsumersAttended (m.dropConsumer x).2 := by
  refine ⟨(departs_dropConsumer hr.coherent hr.groupsUsable x).attended h.attended, fun id hheld => ?_⟩
  have hdrop := dropConsumer_spec hr.coherent hr.groupsUsable x
  rw [hdrop.holdings, Table.contains_erase_iff] at hheld
  obtain ⟨c, hc⟩ := h.held id hheld.2
  exact ⟨c, (hdrop.consumer?_iff hr.coherent).mpr ⟨hheld.1, hc⟩⟩

theorem consumerClose (h : ConsumersAttended m) (hr : Registry m) (r : ConsumerClose) :
    ConsumersAttended (m.consumerClose r).2 := by
  rcases consumerClose_snd m r with he | he
  · rw [he]
    exact h
  · rw [he]
    exact allow_snd h (h.dropConsumer hr r.consumer)

theorem letGo (h : ConsumersAttended m) (hr : Registry m) {key : String}
    (ht : m.liveness.isRegistered .consumer key = true) :
    ConsumersAttended (m.letGo .consumer key) := by
  obtain ⟨x, c, hget, rfl⟩ := (h.attended key).mp ht
  obtain rfl : c.id = x := hr.coherent.id_eq hget
  rw [letGo_member hr hget]
  split
  · exact ⟨h.attended.hear ht, h.held⟩
  · exact h.dropConsumer hr c.id

/-- Every operation keeps track of the consumers. -/
theorem after (h : ConsumersAttended m) (hr : Registry m) (op : Operation) :
    ConsumersAttended (m.after op) := by
  by_cases hop : op.class? = some .consumer
  · cases op with
    | consumerRegister r => exact h.consumerRegister hr r
    | consumerHeartbeat r => exact h.consumerHeartbeat hr r
    | consumerClose r => exact h.consumerClose hr r
    | expire c =>
      cases hop
      exact (letGoAll_induction (p := fun m => Registry m ∧ ConsumersAttended m)
        (fun m key ht hm => ⟨hm.1.letGo key, hm.2.letGo hm.1 ht⟩) m _ ⟨hr, h⟩).2
    | _ => cases hop
  · have hs := sameIn_after hop m
    refine ⟨hs.attended h.attended, fun id hheld => ?_⟩
    rw [hs.tables.1]
    rw [hs.tables.2] at hheld
    exact h.held id hheld

end ConsumersAttended

end Master

end ClusterMaster
