import ClusterMaster.Store

/-!
# What validation and edits make of configurations

Configurations come into a store by edits, and one whose topics are new has been validated
(`Store.of_edit`). So in a store that edits have made every configuration is filed under its own
id, names no topic twice, and has no topic with more partitions in a store than the distance
between stores:

    s.Edited → s.Valid                                                       (Store.Edited.valid)
    s.Edited → s.Sound                                                       (Store.Edited.sound)

What a broker offers at some visibility are then its topics, each as it is configured
(`BrokerConfig.get?_offer_iff`).
-/

namespace ClusterMaster

/-! ## Validation -/

theorem TopicConfig.validate_ok_iff {t : TopicConfig} : t.validate = .ok () ↔ t.topic ≠ "" ∧
    0 < t.partitionCount.toNat ∧ t.partitionCount.toNat < storeStride ∧
    0 < t.storeCount.toNat ∧ t.storeCount.toNat ≤ maxStoreCount := by
  have hzero (n : UInt32) : n = 0 ↔ n.toNat = 0 := UInt32.toNat_inj.symm
  unfold validate
  split
  · rename_i hname
    refine iff_of_false (fun h => nomatch h) fun h => h.1 hname
  · rename_i hname
    split
    · rename_i hcount
      rw [hzero] at hcount
      refine iff_of_false (fun h => nomatch h) fun h => ?_
      omega
    · rename_i hcount
      split
      · rename_i hstores
        rw [hzero] at hstores
        refine iff_of_false (fun h => nomatch h) fun h => ?_
        omega
      · rename_i hstores
        rw [hzero] at hcount hstores
        refine iff_of_true rfl ⟨hname, ?_⟩
        omega

theorem TopicConfig.of_validate {t : TopicConfig} (h : t.validate = .ok ()) :
    t.partitionCount.toNat < storeStride :=
  (validate_ok_iff.mp h).2.2.1

theorem of_validateTopics {id : BrokerId} {seen : List String} {ts : List TopicConfig}
    (h : validateTopics id seen ts = .ok ()) :
    (∀ t ∈ ts, t.validate = .ok () ∧ t.topic ∉ seen) ∧ (ts.map TopicConfig.topic).Nodup := by
  induction ts generalizing seen with
  | nil => simp
  | cons t ts ih =>
    unfold validateTopics at h
    split at h
    · cases h
    · rename_i ht
      split at h
      · cases h
      · rename_i hseen
        obtain ⟨hrest, hnodup⟩ := ih h
        refine ⟨List.forall_mem_cons.mpr ⟨⟨ht, hseen⟩, fun t' ht' => ?_⟩,
          List.nodup_cons.mpr ⟨fun hmem => ?_, hnodup⟩⟩
        · obtain ⟨hvalid, hnot⟩ := hrest t' ht'
          exact ⟨hvalid, fun hmem => hnot (List.mem_cons_of_mem _ hmem)⟩
        · obtain ⟨t', ht', heq⟩ := List.mem_map.mp hmem
          exact (hrest t' ht').2 (heq ▸ List.mem_cons_self)

theorem of_validateBrokers {seen : List BrokerId} {cs : List BrokerConfig}
    (h : validateBrokers seen cs = .ok ()) : ∀ c ∈ cs, c.validate = .ok () := by
  induction cs generalizing seen with
  | nil => simp
  | cons c cs ih =>
    unfold validateBrokers at h
    split at h
    · cases h
    · rename_i hc
      split at h
      · cases h
      · exact List.forall_mem_cons.mpr ⟨hc, ih h⟩

namespace BrokerConfig

/-- The stores of a configured topic do not overlap. -/
def Spaced (c : BrokerConfig) : Prop :=
  ∀ t ∈ c.topics, t.partitionCount.toNat < storeStride

/-- No topic is configured twice. -/
def Distinct (c : BrokerConfig) : Prop := (c.topics.map TopicConfig.topic).Nodup

variable {c : BrokerConfig}

theorem validateTopics_of_validate (h : c.validate = .ok ()) :
    validateTopics c.id [] c.topics = .ok () := by
  unfold validate at h
  split at h
  · cases h
  · exact h

theorem spaced_of_validate (h : c.validate = .ok ()) : c.Spaced := fun t ht =>
  TopicConfig.of_validate ((of_validateTopics (validateTopics_of_validate h)).1 t ht).1

theorem distinct_of_validate (h : c.validate = .ok ()) : c.Distinct :=
  (of_validateTopics (validateTopics_of_validate h)).2

end BrokerConfig

/-! ## Edits -/

namespace Store

variable {s s' : Store} {e : Store.Edit} {id j : BrokerId} {c d : BrokerConfig}

/-- Where a configuration comes from that an edit leaves under an id. -/
inductive Origin (s s' : Store) (id : BrokerId) (c : BrokerConfig) : Prop
  | kept {b : BrokerConfig} (filed : s.config? id = some b) (same : c.id = b.id)
    (topics : c.topics = b.topics)
  | retopiced {b : BrokerConfig} (filed : s.config? id = some b) (same : c.id = b.id)
    (valid : c.validate = .ok ())
  | new (filed : c.id = id) (valid : c.validate = .ok ()) (version : s.version < s'.version)

/-- When one configuration is filed, all others are kept. -/
theorem Origin.of_insert {version : Nat}
    (hc : Origin s { s with brokers := s.brokers.insert id c, version := version } id c)
    (hd : config? { s with brokers := s.brokers.insert id c, version := version } j = some d) :
    Origin s { s with brokers := s.brokers.insert id c, version := version } j d := by
  change (s.brokers.insert id c).get? j = some d at hd
  rw [Table.get?_insert] at hd
  split at hd
  · rename_i hj
    subst hj
    obtain rfl := Option.some.inj hd
    exact hc
  · exact .kept hd rfl rfl

/-- An edit never goes back to an earlier version, and what it files anew has been validated. -/
theorem of_edit (he : s.edit e = .ok s') :
    s.version ≤ s'.version ∧ ∀ j d, s'.config? j = some d → Origin s s' j d := by
  cases e with
  | upsert c =>
    change s.upsert c = .ok s' at he
    unfold Store.upsert at he
    split at he
    · cases he
    · rename_i hc
      obtain rfl := Except.ok.inj he
      exact ⟨Nat.le_succ _, fun j d => Origin.of_insert (.new rfl hc (Nat.lt_succ_self _))⟩
  | remove id =>
    obtain rfl := Except.ok.inj he
    unfold Store.remove
    split
    · refine ⟨Nat.le_succ _, fun j d hd => ?_⟩
      change (s.brokers.erase id).get? j = some d at hd
      rw [Table.get?_erase] at hd
      split at hd
      · cases hd
      · exact .kept hd rfl rfl
    · exact ⟨Nat.le_refl _, fun j d hd => .kept hd rfl rfl⟩
  | setTopics id topics =>
    change s.setTopics id topics = .ok s' at he
    unfold Store.setTopics at he
    split at he
    · cases he
    · split at he
      · cases he
      · rename_i c hc _ hv
        obtain rfl := Except.ok.inj he
        exact ⟨Nat.le_refl _, fun j d => Origin.of_insert (.retopiced hc rfl hv)⟩
  | setIntent id intent =>
    change s.setIntent id intent = .ok s' at he
    unfold Store.setIntent at he
    split at he
    · cases he
    · rename_i c hc
      obtain rfl := Except.ok.inj he
      exact ⟨Nat.le_refl _, fun j d => Origin.of_insert (.kept hc rfl rfl)⟩
  | addBlackTopic group topic =>
    obtain rfl := Except.ok.inj he
    exact ⟨Nat.le_refl _, fun j d hd => .kept hd rfl rfl⟩
  | removeBlackTopic group topic =>
    obtain rfl := Except.ok.inj he
    exact ⟨Nat.le_refl _, fun j d hd => .kept hd rfl rfl⟩
  | load manifest =>
    change s.load manifest = .ok s' at he
    unfold Store.load at he
    split at he
    · cases he
    · rename_i hm
      obtain rfl := Except.ok.inj he
      refine ⟨Nat.le_succ _, fun j d hd => ?_⟩
      obtain ⟨c, hc, heq⟩ := List.mem_map.mp (Table.mem_of_get?_ofList hd)
      obtain ⟨rfl, rfl⟩ := Prod.mk.inj heq
      exact .new rfl (of_validateBrokers hm c hc) (Nat.lt_succ_self _)
  | setPrimary primary =>
    obtain rfl := Except.ok.inj he
    exact ⟨Nat.le_refl _, fun j d hd => .kept hd rfl rfl⟩

def Valid (s : Store) : Prop := ∀ id c, s.config? id = some c → c.Spaced

/-- Configurations are filed under their own ids and name no topic twice, and once there is one the
version is no longer the first. -/
def Sound (s : Store) : Prop :=
  ∀ id c, s.config? id = some c → c.id = id ∧ c.Distinct ∧ 0 < s.version

/-- The stores that edits make of an empty one. -/
inductive Edited : Store → Prop
  | empty : Edited Store.empty
  | edit {s s' : Store} {e : Edit} (h : Edited s) (he : s.edit e = .ok s') : Edited s'

theorem Valid.edit (h : s.Valid) (he : s.edit e = .ok s') : s'.Valid := by
  intro id c hc
  cases (of_edit he).2 id c hc with
  | kept filed _ topics =>
    intro t ht
    exact h id _ filed t (topics ▸ ht)
  | retopiced _ _ valid => exact BrokerConfig.spaced_of_validate valid
  | new _ valid _ => exact BrokerConfig.spaced_of_validate valid

theorem Sound.edit (h : s.Sound) (he : s.edit e = .ok s') : s'.Sound := by
  obtain ⟨hversion, horigin⟩ := of_edit he
  intro id c hc
  cases horigin id c hc with
  | kept filed same topics =>
    obtain ⟨hid, hdistinct, hpos⟩ := h id _ filed
    refine ⟨same.trans hid, ?_, Nat.lt_of_lt_of_le hpos hversion⟩
    unfold BrokerConfig.Distinct
    rw [topics]
    exact hdistinct
  | retopiced filed same valid =>
    obtain ⟨hid, -, hpos⟩ := h id _ filed
    exact ⟨same.trans hid, BrokerConfig.distinct_of_validate valid,
      Nat.lt_of_lt_of_le hpos hversion⟩
  | new filed valid version =>
    exact ⟨filed, BrokerConfig.distinct_of_validate valid, Nat.zero_lt_of_lt version⟩

theorem Edited.valid (h : s.Edited) : s.Valid := by
  induction h with
  | empty =>
    intro id c hc
    cases hc
  | edit _ he ih => exact ih.edit he

theorem Edited.sound (h : s.Edited) : s.Sound := by
  induction h with
  | empty =>
    intro id c hc
    cases hc
  | edit _ he ih => exact ih.edit he

end Store

/-! ## Offers of configurations -/

namespace BrokerConfig

variable {c : BrokerConfig} {v : Visibility} {topic : String} {h : HostedTopic}

theorem of_get?_offer (hh : (c.offer v).get? topic = some h) :
    ∃ t ∈ c.topics, t.topic = topic ∧ h = t.hosted c.id v := by
  obtain ⟨s, hs, heq⟩ := List.mem_map.mp (Table.mem_of_get?_ofList hh)
  obtain ⟨t, ht, rfl⟩ := List.mem_map.mp hs
  obtain ⟨htopic, rfl⟩ := Prod.mk.inj heq
  exact ⟨t, ht, htopic, rfl⟩

/-- An offer has the configured topics, each as it is configured. -/
theorem get?_offer_iff (hc : c.Distinct) : (c.offer v).get? topic = some h ↔
    ∃ t ∈ c.topics, t.topic = topic ∧ h = t.hosted c.id v := by
  refine ⟨of_get?_offer, ?_⟩
  rintro ⟨t, ht, rfl, rfl⟩
  have hkeys : (((c.hostedTopics v).map fun t => (t.topic, t)).map Prod.fst).Nodup := by
    rw [hostedTopics, List.map_map, List.map_map]
    exact hc
  exact (Table.get?_ofList_of_nodup hkeys).mpr
    (List.mem_map.mpr ⟨_, List.mem_map.mpr ⟨t, ht, rfl⟩, rfl⟩)

end BrokerConfig

end ClusterMaster
