import ClusterMaster.Proofs.SmallCluster

/-!
# Who holds a partition

Moving a partition takes two events, one that asks the old holder to drop it and one that asks the
new holder to take it up. They wait in two queues, and nothing makes the second one wait for the
first: the new holder may be faster (`Moving.held_twice`). What does hold is that a
partition is never held twice unnoticed. A pass puts a consumer *on notice* about a key when it
queues an event that asks the consumer to drop it; the notice is settled when the consumer
acknowledges that, registers anew, or is given the key again by a later pass.

    two members of a group hold one key, neither of them over TLS →
      one of them is on notice about it                                  (on_notice_of_held_twice)

The notices are not part of a master: its backlog may be dropped while the consumer has not seen
the event yet, and then nothing in the master tells that the key was asked back. They are read off
the history instead (`noticesAfter`). The invariant is `Exclusive`: what a member holds or is to
take up, and is not on notice about, no other member of its group holds or is to take up without
being on notice. It is preserved by every operation that reports no holdings (`Exclusive.after`).
-/

namespace ClusterMaster

/-- The operation does not say what a consumer holds, and keeps nobody from a consumer's row. -/
def Operation.isSilent : Operation → Bool
  | .consumerRegister r => r.subscribed.isEmpty
  | .consumerHeartbeat r => (r.reported.getD []).isEmpty
  | .hold .consumer _ => false
  | _ => true

namespace Master

variable {m m' : Master} {id key : String}

/-! ## Notices -/

/-- Which consumers are on notice about which keys. -/
abbrev Notices := String → String → Prop

/-- A pass asks a consumer to drop a key. -/
def Tells (m : Master) (id key : String) : Prop :=
  ∃ e ∈ (m.after .pass).events.queue id,
    e.kind.isConnect = false ∧ e.pass = m.lastPass + 1 ∧ e.Names key

/-- A pass gives a key to a consumer. -/
def Grants (m : Master) (id key : String) : Prop :=
  ∃ c g t, m.groups.consumer? id = some c ∧ c.group ∈ m.selected ∧
    m.groups.group? c.group = some g ∧ m.targetIn (m.viewGroup g) id = some t ∧
    ∃ topic, ∃ p ∈ t.getD topic [], p.key = key

/-- The operation settles a notice: the consumer has dropped the key, has started over, or is
given the key again. -/
def Settles (m : Master) (op : Operation) (id key : String) : Prop :=
  match op with
  | .consumerRegister r => r.consumer = id ∧ m.checkConsumerRegister r = .ok ()
  | .consumerHeartbeat r => r.consumer = id ∧ m.checkConsumerHeartbeat r = .ok () ∧
      ∃ e, taken (m.events.queue id) r.acknowledged = some e ∧ e.kind.isConnect = false ∧ e.Names key
  | .pass => m.Grants id key
  | _ => False

/-- The notices once an operation has been carried out. -/
def notice (m : Master) (op : Operation) (n : Notices) : Notices := fun id key =>
  (op = .pass ∧ m.Tells id key) ∨ (n id key ∧ ¬m.Settles op id key)

/-- The notices after operations, one after the other. -/
def noticesAfter (m : Master) (n : Notices) : List Operation → Notices
  | [] => n
  | op :: ops => (m.after op).noticesAfter (m.notice op n) ops

/-! ## Claims -/

/-- The consumer holds a partition with this key. -/
def Holds (m : Master) (id key : String) : Prop := key ∈ (m.holdingOf id).partitionKeys

/-- The consumer holds a partition with this key or is to take it up. -/
def Claims (m : Master) (id key : String) : Prop :=
  m.Holds id key ∨ ∃ e ∈ m.events.queue id, e.kind.isConnect = true ∧ e.Names key

/-- No event of a queue asks to drop what another one asks to take up. -/
def Apart (q : List Event) : Prop :=
  ∀ d ∈ q, d.kind.isConnect = false → ∀ e ∈ q, e.kind.isConnect = true → ∀ key,
    d.Names key → ¬e.Names key

theorem Apart.of_suffix {q r : List Event} (h : Apart q) (hr : r <:+ q) : Apart r :=
  fun d hd hdk e he => h d (hr.subset hd) hdk e (hr.subset he)

theorem Apart.handedOut {q : List Event} (h : Apart q) : Apart (handedOut q) := by
  intro d hd hdk e he hek key hdn hen
  obtain ⟨d', hd', -, hkd, hsd⟩ := mem_handedOut hd
  obtain ⟨e', he', -, hke, hse⟩ := mem_handedOut he
  exact h d' hd' (hkd ▸ hdk) e' he' (hke ▸ hek) key
    ((Event.names_iff_of_subscriptions_eq hsd).mp hdn)
    ((Event.names_iff_of_subscriptions_eq hse).mp hen)

/-- An event that is taken up adds only keys that it names. -/
theorem mem_partitionKeys_apply_of_connect {h : Holding} {e : Event} (he : e.kind.isConnect = true)
    (hk : key ∈ (h.apply e).partitionKeys) : key ∈ h.partitionKeys ∨ e.Names key := by
  obtain ⟨topic, ht⟩ := Holding.mem_partitionKeys.mp hk
  rcases (Holding.contains_apply_of_connect he).mp ht with ht | ⟨s, hs, hplace⟩
  · exact .inl (Holding.mem_partitionKeys.mpr ⟨topic, ht⟩)
  · exact .inr ⟨s, hs, congrArg Prod.snd hplace⟩

/-- An event that is dropped leaves none of the keys that it names. -/
theorem mem_partitionKeys_apply_of_disconnect {h : Holding} (hw : h.WellFiled) {e : Event}
    (he : e.kind.isConnect = false) (hk : key ∈ (h.apply e).partitionKeys) :
    key ∈ h.partitionKeys ∧ ¬e.Names key := by
  obtain ⟨topic, ht⟩ := Holding.mem_partitionKeys.mp hk
  obtain ⟨hheld, hnone⟩ := (Holding.contains_apply_of_disconnect he).mp ht
  refine ⟨Holding.mem_partitionKeys.mpr ⟨topic, hheld⟩, ?_⟩
  rintro ⟨s, hs, rfl⟩
  -- what is held under the key is filed where the event's partition is
  obtain ⟨p, hp⟩ := Table.contains_iff.mp hheld
  have hplace := hw _ p hp
  refine hnone s hs ?_
  rw [← hplace]
  exact Partition.place_eq_of_key_eq (congrArg Prod.snd hplace).symm

/-- What a consumer claims after a heartbeat it holds once the acknowledged event is applied, or it
is to take it up by an event that is left over. -/
theorem Beaten.claims {r : ConsumerHeartbeat} (hb : m.Beaten r m') (hrep : r.reported.getD [] = [])
    (hk : m'.Claims r.consumer key) :
    key ∈ ((m.holdingOf r.consumer).changedBy
        (taken (m.events.queue r.consumer) r.acknowledged)).partitionKeys ∨
      ∃ e ∈ leftOver (m.events.queue r.consumer) r.acknowledged,
        e.kind.isConnect = true ∧ e.Names key := by
  rcases hk with hk | ⟨e, he, hek, hen⟩
  · refine .inl ?_
    unfold Holds at hk
    cases hreported : r.reported with
    | none => exact hb.holding hreported ▸ hk
    | some subs =>
      rw [hreported, Option.getD_some] at hrep
      rcases hb.emptied (hrep ▸ hreported) with he | he
      · rw [he] at hk
        exact absurd hk KeySet.not_mem_empty
      · exact he ▸ hk
  · rw [hb.queue, if_pos rfl] at he
    obtain ⟨e', he', -, hkind, hsubs⟩ := mem_handedOut he
    exact .inr ⟨e', he', hkind ▸ hek, (Event.names_iff_of_subscriptions_eq hsubs).mp hen⟩

/-! ## The invariant -/

structure Exclusive (m : Master) (n : Notices) : Prop where
  free : ∀ id, m.consumerRows.isLocked id = false
  apart : ∀ id c, m.groups.consumer? id = some c → c.overTls = false → Apart (m.events.queue id)
  exclusive : ∀ c d, m.groups.consumer? c.id = some c → m.groups.consumer? d.id = some d →
    c.overTls = false → d.overTls = false → c.group = d.group → c.id ≠ d.id →
    ∀ key, m.Claims c.id key → m.Claims d.id key → n c.id key ∨ n d.id key

namespace Exclusive

variable {n n' : Notices}

theorem create {settings : Settings} {store : Store} (h : create settings store = .ok m) :
    Exclusive m n := by
  obtain rfl := eq_of_create h
  refine ⟨fun id => rfl, fun id c hc => ?_, fun c d hc => ?_⟩
  · cases hc
  · cases hc

theorem mono (h : Exclusive m n) (hn : ∀ id key, n id key → n' id key) : Exclusive m n' where
  free := h.free
  apart := h.apart
  exclusive c d hc hd hct hdt hg hne key hkc hkd :=
    (h.exclusive c d hc hd hct hdt hg hne key hkc hkd).imp (hn _ _) (hn _ _)

/-- When members stay members, claim nothing new, and lose a notice only with the claim, the
invariant stays. -/
theorem of_claims (h : Exclusive m n) (free : ∀ id, m'.consumerRows.isLocked id = false)
    (apart : ∀ id c, m'.groups.consumer? id = some c → c.overTls = false →
      Apart (m'.events.queue id))
    (members : ∀ id c, m'.groups.consumer? id = some c → ∀ key, m'.Claims id key →
      m.groups.consumer? id = some c ∧ m.Claims id key ∧ (n id key → n' id key)) :
    Exclusive m' n' where
  free := free
  apart := apart
  exclusive := by
    intro c d hc hd hct hdt hg hne key hkc hkd
    obtain ⟨hc', hkc', hnc⟩ := members c.id c hc key hkc
    obtain ⟨hd', hkd', hnd⟩ := members d.id d hd key hkd
    exact (h.exclusive c d hc' hd' hct hdt hg hne key hkc' hkd').imp hnc hnd

theorem same (h : Exclusive m n) (hs : SameConsumers m m') : Exclusive m' n := by
  have hq : ∀ id, m'.events.queue id = m.events.queue id := fun id => by rw [hs.events]
  have hheld : ∀ id key, m'.Claims id key → m.Claims id key := by
    intro id key hk
    unfold Claims Holds holdingOf at hk ⊢
    rw [hs.holdings, hs.events] at hk
    exact hk
  refine h.of_claims (fun id => hs.consumerRows ▸ h.free id) (fun id c hc hct => ?_)
    fun id c hc key hk => ⟨hs.groups ▸ hc, hheld id key hk, fun hn => hn⟩
  rw [hq]
  exact h.apart id c (hs.groups ▸ hc) hct

theorem drops (h : Exclusive m n) (hr : Registry m) {x : String} (hd : DropsConsumer x m m') :
    Exclusive m' n := by
  refine h.of_claims (fun id => hd.consumerRows ▸ h.free id) (fun id c hc hct => ?_)
    fun id c hc key hk => ?_
  · obtain ⟨hne, hc⟩ := (hd.consumer?_iff hr.coherent).mp hc
    rw [hd.queue, if_neg hne]
    exact h.apart id c hc hct
  · obtain ⟨hne, hc⟩ := (hd.consumer?_iff hr.coherent).mp hc
    refine ⟨hc, ?_, fun hn => hn⟩
    unfold Claims Holds at hk ⊢
    rw [hd.queue, hd.holdingOf, if_neg hne, if_neg hne] at hk
    exact hk

theorem enrol (h : Exclusive m n) (hr : Registry m) {r : ConsumerRegister}
    (hc : m.checkConsumerRegister r = .ok ()) (hsub : r.subscribed = []) :
    Exclusive (m.enrolConsumer r) (m.notice (.consumerRegister r) n) := by
  obtain ⟨-, -, hj⟩ := of_checkConsumerRegister hc
  have hempty : ∀ key, ¬(m.enrolConsumer r).Claims r.consumer key := by
    rintro key (hk | ⟨e, he, -⟩)
    · unfold Holds holdingOf Table.getD at hk
      rw [holdings_enrol, if_pos rfl, hsub] at hk
      exact KeySet.not_mem_empty hk
    · rw [queue_enrol, if_pos rfl] at he
      cases he
  refine h.of_claims h.free (fun id c hc' hct => ?_) fun id c hc' key hk => ?_
  · rw [queue_enrol]
    split
    · exact fun d hd => absurd hd List.not_mem_nil
    · rename_i hne
      rw [consumer?_enrol hr.coherent hj, if_neg (Ne.symm hne)] at hc'
      exact h.apart id c hc' hct
  · by_cases hid : r.consumer = id
    · subst hid
      exact absurd hk (hempty key)
    · rw [consumer?_enrol hr.coherent hj, if_neg (Ne.symm hid)] at hc'
      refine ⟨hc', ?_, fun hn => .inr ⟨hn, fun hs => hid hs.1⟩⟩
      unfold Claims Holds holdingOf Table.getD at hk ⊢
      rw [holdings_enrol, if_neg hid, queue_enrol, if_neg hid] at hk
      exact hk

/-- What a consumer claims after a heartbeat it claimed before, and it has not acknowledged just
now that it dropped it. -/
theorem claims_beaten (h : Exclusive m n) (hr : Registry m) {r : ConsumerHeartbeat}
    (hb : m.Beaten r m') (hrep : r.reported.getD [] = []) {c : Consumer}
    (hc : m.groups.consumer? id = some c) (hct : c.overTls = false) (hk : m'.Claims id key) :
    m.Claims id key ∧ ¬m.Settles (.consumerHeartbeat r) id key := by
  by_cases hid : r.consumer = id
  · subst hid
    have hclaims := hb.claims hrep hk
    have hleft : ∀ e ∈ leftOver (m.events.queue r.consumer) r.acknowledged,
        e ∈ m.events.queue r.consumer := fun e he => (leftOver_suffix _ _).subset he
    cases htaken : taken (m.events.queue r.consumer) r.acknowledged with
    | none =>
      rw [htaken] at hclaims
      refine ⟨?_, fun ⟨_, _, e, he, _⟩ => by rw [htaken] at he; cases he⟩
      rcases hclaims with hk | ⟨e, he, hek, hen⟩
      · exact .inl hk
      · exact .inr ⟨e, hleft e he, hek, hen⟩
    | some d =>
      rw [htaken] at hclaims
      obtain ⟨es, hes, -⟩ := taken_eq_some_iff.mp htaken
      have hdmem : d ∈ m.events.queue r.consumer := by
        rw [hes]
        exact List.mem_cons_self
      cases hdk : d.kind.isConnect with
      | true =>
        refine ⟨?_, fun ⟨_, _, e, he, hek, _⟩ => ?_⟩
        · rcases hclaims with hk | ⟨e, he, hek, hen⟩
          · exact (mem_partitionKeys_apply_of_connect hdk hk).imp_right
              fun hn => ⟨d, hdmem, hdk, hn⟩
          · exact .inr ⟨e, hleft e he, hek, hen⟩
        · obtain rfl := Option.some.inj (htaken.symm.trans he)
          rw [hdk] at hek
          cases hek
      | false =>
        have hclaim : m.Claims r.consumer key ∧ ¬d.Names key := by
          rcases hclaims with hk | ⟨e, he, hek, hen⟩
          · exact (mem_partitionKeys_apply_of_disconnect (hr.wellFiled _) hdk hk).imp_left .inl
          · have happart := h.apart _ c hc hct d hdmem hdk e (hleft e he) hek key
            exact ⟨.inr ⟨e, hleft e he, hek, hen⟩, fun hdn => happart hdn hen⟩
        refine ⟨hclaim.1, fun ⟨_, _, e, he, _, hen⟩ => hclaim.2 ?_⟩
        obtain rfl := Option.some.inj (htaken.symm.trans he)
        exact hen
  · refine ⟨?_, fun hs => hid hs.1⟩
    unfold Claims Holds holdingOf Table.getD at hk ⊢
    rw [hb.others id hid, hb.queue, if_neg hid] at hk
    exact hk

theorem beaten (h : Exclusive m n) (hr : Registry m) {r : ConsumerHeartbeat} (hb : m.Beaten r m')
    (hrep : r.reported.getD [] = []) : Exclusive m' (m.notice (.consumerHeartbeat r) n) where
  free id := hb.consumerRows ▸ h.free id
  apart id c hc hct := by
    rw [hb.consumer?] at hc
    rw [hb.queue]
    split
    · exact ((h.apart id c hc hct).of_suffix (leftOver_suffix _ _)).handedOut
    · exact h.apart id c hc hct
  exclusive c d hc hd hct hdt hg hne key hkc hkd := by
    rw [hb.consumer?] at hc hd
    obtain ⟨hkc, hsc⟩ := h.claims_beaten hr hb hrep hc hct hkc
    obtain ⟨hkd, hsd⟩ := h.claims_beaten hr hb hrep hd hdt hkd
    exact (h.exclusive c d hc hd hct hdt hg hne key hkc hkd).imp
      (fun hn => .inr ⟨hn, hsc⟩) (fun hn => .inr ⟨hn, hsd⟩)

/-! ### Passes -/

/-- What a member of a selected group claims after a pass, without having been told to drop it, is
wanted of it. -/
theorem wanted_of_claims_pass (h : Exclusive m n) (hr : Registry m) (ho : Offers m) {c : Consumer}
    {g : Group} (hc : m.groups.consumer? c.id = some c) (hsel : c.group ∈ m.selected)
    (hg : m.groups.group? c.group = some g) (hk : (m.after .pass).Claims c.id key)
    (htold : ¬m.Tells c.id key) :
    ∃ topic, ∃ p ∈ HoldingChange.wanted (m.holdingOf c.id) (m.targetIn (m.viewGroup g) c.id)
      (m.viewGroup g).black topic, p.key = key := by
  have hqueue := hr.queue_after_pass hc hsel hg (h.free c.id)
  have hplace := HoldingChange.place_after_iff c.overTls (m.viewGroup g).black (hr.wellFiled c.id)
    (ho.targetIn_wellFiled hr hg c.id)
  have hdrop : ∀ p ∈ (HoldingChange.between c.overTls (m.holdingOf c.id)
      (m.targetIn (m.viewGroup g) c.id) (m.viewGroup g).black).disconnect, p.key ≠ key := by
    intro p hp hpk
    obtain ⟨e, he, hek, hen⟩ := exists_disconnect_iff.mpr ⟨p, hp, hpk⟩
    exact htold ⟨e, hqueue ▸ he, hek, pass_of_mem_changeEvents he, hen⟩
  rcases hk with hk | ⟨e, he, hek, hen⟩
  · obtain ⟨events, he⟩ := hr.after_pass
    unfold Holds holdingOf at hk
    rw [he] at hk
    obtain ⟨topic, ht⟩ := Holding.mem_partitionKeys.mp hk
    have hkept : ∀ p ∈ (HoldingChange.between c.overTls (m.holdingOf c.id)
        (m.targetIn (m.viewGroup g) c.id) (m.viewGroup g).black).disconnect,
        p.place ≠ (topic, key) :=
      fun p hp hpp => hdrop p hp (congrArg Prod.snd hpp)
    exact ⟨topic, (hplace topic key).mp (.inl ⟨ht, hkept⟩)⟩
  · rw [hqueue] at he
    obtain ⟨p, hp, rfl⟩ := exists_connect_iff.mp ⟨e, he, hek, hen⟩
    exact ⟨p.topic, (hplace p.topic p.key).mp (.inr ⟨p, hp, rfl⟩)⟩

/-- What is wanted of a member without a target it holds already. -/
theorem claims_of_wanted_none {c : String} {black : NameSet} {topic : String} {p : Partition}
    (hr : Registry m) (hp : p ∈ HoldingChange.wanted (m.holdingOf c) none black topic) :
    m.Claims c p.key := by
  unfold HoldingChange.wanted at hp
  split at hp
  · cases hp
  · exact .inl (Holding.mem_partitionKeys.mpr
      ⟨topic, Table.contains_iff.mpr ⟨p, ((hr.wellFiled c).mem_ofTopic.mp hp).1⟩⟩)

/-- What is wanted of a member has the topic that it is wanted of. -/
theorem topic_of_wanted (hr : Registry m) (ho : Offers m) {g : Group} {name : String}
    (hg : m.groups.group? name = some g) {c topic : String} {black : NameSet} {p : Partition}
    (hp : p ∈ HoldingChange.wanted (m.holdingOf c) (m.targetIn (m.viewGroup g) c) black topic) :
    p.topic = topic :=
  HoldingChange.topic_of_mem_wanted (hr.wellFiled c) (ho.targetIn_wellFiled hr hg c) hp

/-- What a pass queues for a plain member asks to drop nothing that it asks to take up. -/
theorem apart_eventsFor (hr : Registry m) (ho : Offers m) {c : Consumer} {g : Group}
    (hg : m.groups.group? c.group = some g) (hct : c.overTls = false) :
    Apart (m.eventsFor (m.viewGroup g) c) := by
  intro d hd hdk e he hek key hdn hen
  obtain ⟨p, hp, rfl⟩ := exists_disconnect_iff.mp ⟨d, hd, hdk, hdn⟩
  obtain ⟨q, hq, hkey⟩ := exists_connect_iff.mp ⟨e, he, hek, hen⟩
  rw [hct] at hp hq
  obtain ⟨t, hpt, hnone⟩ := HoldingChange.mem_disconnect.mp hp
  obtain ⟨t', hqt, -⟩ := HoldingChange.mem_connect.mp hq
  have ht : p.topic = t := ((hr.wellFiled _).mem_ofTopic.mp hpt).2
  have ht' : q.topic = t' := topic_of_wanted hr ho hg hqt
  rw [← ht, ← Partition.topic_eq_of_key_eq hkey, ht'] at hnone
  exact hnone q hqt hkey

/-- Two members of a group of whom one key is wanted have no targets: both keep what they hold. -/
theorem targets_none_of_wanted (hr : Registry m) (ho : Offers m) {g : Group} {name : String}
    (hg : m.groups.group? name = some g) {c d : Consumer} (hc : c ∈ g.members.values)
    (hd : d ∈ g.members.values) (hne : c.id ≠ d.id) {t t' : String} {p q : Partition}
    (hp : p ∈ HoldingChange.wanted (m.holdingOf c.id) (m.targetIn (m.viewGroup g) c.id)
      (m.viewGroup g).black t)
    (hq : q ∈ HoldingChange.wanted (m.holdingOf d.id) (m.targetIn (m.viewGroup g) d.id)
      (m.viewGroup g).black t') (hkey : p.key = q.key) :
    m.targetIn (m.viewGroup g) c.id = none ∧ m.targetIn (m.viewGroup g) d.id = none := by
  have hcv : c.id ∈ (m.viewGroup g).ids := List.mem_map_of_mem hc
  have hdv : d.id ∈ (m.viewGroup g).ids := List.mem_map_of_mem hd
  have htopic : t = t' := by
    rw [← topic_of_wanted hr ho hg hp, ← topic_of_wanted hr ho hg hq]
    exact Partition.topic_eq_of_key_eq hkey
  subst htopic
  cases hsome : m.targetIn (m.viewGroup g) c.id with
  | some s =>
    obtain ⟨s', hs'⟩ := exists_targetIn hdv hsome
    rw [hsome] at hp
    rw [hs'] at hq
    unfold HoldingChange.wanted at hp hq
    split at hp
    · cases hp
    · rename_i hblack
      rw [if_neg hblack] at hq
      have hn : (m.viewGroup g).ids.Nodup := Groups.nodup_ids hr.coherent hg
      exact absurd
        (targetIn_exclusive hn (ho.nodup_key_partitionsOf g t) hsome hs' hp hq hkey) hne
  | none =>
    refine ⟨rfl, ?_⟩
    by_contra hs
    obtain ⟨s, hs⟩ := Option.ne_none_iff_exists'.mp hs
    obtain ⟨s', hs'⟩ := exists_targetIn hcv hs
    rw [hsome] at hs'
    cases hs'

/-- A pass gives nothing to a member without a target. -/
theorem not_settles_of_target_none {c : Consumer} {g : Group}
    (hc : m.groups.consumer? c.id = some c) (hg : m.groups.group? c.group = some g)
    (hnone : m.targetIn (m.viewGroup g) c.id = none) : ¬m.Settles .pass c.id key := by
  rintro ⟨c', g', s, hc', -, hg', hs, -⟩
  obtain rfl := Option.some.inj (hc.symm.trans hc')
  obtain rfl := Option.some.inj (hg.symm.trans hg')
  rw [hnone] at hs
  cases hs

/-- A pass changes nothing for a member of a group that it does not select. -/
theorem claims_of_not_selected (hr : Registry m) {c : Consumer}
    (hc : m.groups.consumer? c.id = some c) (hsel : c.group ∉ m.selected)
    (hk : (m.after .pass).Claims c.id key) : m.Claims c.id key ∧ ¬m.Settles .pass c.id key := by
  constructor
  · obtain ⟨events, he⟩ := hr.after_pass
    have hholdings : (m.after .pass).holdings = m.holdings := by rw [he]
    unfold Claims Holds holdingOf at hk ⊢
    rw [hholdings, hr.queue_after_pass_of_not_selected hc hsel] at hk
    exact hk
  · rintro ⟨c', g', s, hc', hsel', -⟩
    obtain rfl := Option.some.inj (hc.symm.trans hc')
    exact hsel hsel'

theorem pass (h : Exclusive m n) (hr : Registry m) (ho : Offers m) :
    Exclusive (m.after .pass) (m.notice .pass n) := by
  obtain ⟨events, he⟩ := hr.after_pass
  have hgroups : (m.after .pass).groups = m.groups := by rw [he]
  refine ⟨fun id => ?_, fun id c hc hct => ?_, ?_⟩
  · rw [he]
    exact h.free id
  · rw [hgroups] at hc
    obtain rfl := hr.coherent.id_eq hc
    by_cases hsel : c.group ∈ m.selected
    · obtain ⟨g, hg, -⟩ := hr.coherent.exists_group hc
      rw [hr.queue_after_pass hc hsel hg (h.free _)]
      exact apart_eventsFor hr ho hg hct
    · rw [hr.queue_after_pass_of_not_selected hc hsel]
      exact h.apart _ c hc hct
  · intro c d hc hd hct hdt hgroup hne key hkc hkd
    rw [hgroups] at hc hd
    by_cases hsel : c.group ∈ m.selected
    · obtain ⟨g, hg, -⟩ := hr.coherent.exists_group hc
      have hg' : m.groups.group? d.group = some g := hgroup ▸ hg
      by_contra hno
      obtain ⟨hnc, hnd⟩ := not_or.mp hno
      obtain ⟨t, p, hp, hpk⟩ := h.wanted_of_claims_pass hr ho hc hsel hg hkc
        fun ht => hnc (.inl ⟨rfl, ht⟩)
      obtain ⟨t', q, hq, hqk⟩ := h.wanted_of_claims_pass hr ho hd (hgroup ▸ hsel) hg' hkd
        fun ht => hnd (.inl ⟨rfl, ht⟩)
      obtain ⟨hcnone, hdnone⟩ := targets_none_of_wanted hr ho hg
        ((Groups.mem_members_iff hr.coherent hg).mpr ⟨hc, rfl⟩)
        ((Groups.mem_members_iff hr.coherent hg').mpr ⟨hd, rfl⟩) hne hp hq (hpk.trans hqk.symm)
      -- without targets nothing is given, and everybody keeps what it holds
      rw [hcnone] at hp
      rw [hdnone] at hq
      have hkc' : m.Claims c.id key := hpk ▸ claims_of_wanted_none hr hp
      have hkd' : m.Claims d.id key := hqk ▸ claims_of_wanted_none hr hq
      rcases h.exclusive c d hc hd hct hdt hgroup hne key hkc' hkd' with hn | hn
      · exact hnc (.inr ⟨hn, not_settles_of_target_none hc hg hcnone⟩)
      · exact hnd (.inr ⟨hn, not_settles_of_target_none hd hg' hdnone⟩)
    · obtain ⟨hkc, hsc⟩ := claims_of_not_selected hr hc hsel hkc
      obtain ⟨hkd, hsd⟩ := claims_of_not_selected hr hd (hgroup ▸ hsel) hkd
      exact (h.exclusive c d hc hd hct hdt hgroup hne key hkc hkd).imp
        (fun hn => .inr ⟨hn, hsc⟩) (fun hn => .inr ⟨hn, hsd⟩)

/-! ### Operations -/

/-- Every operation that reports no holdings keeps the invariant. -/
theorem after (h : Exclusive m n) (hr : Registry m) (ho : Offers m) {op : Operation}
    (hop : op.isSilent = true) : Exclusive (m.after op) (m.notice op n) := by
  have hkeep : (∀ id key, ¬m.Settles op id key) → ∀ id key, n id key → m.notice op n id key :=
    fun hs id key hn => .inr ⟨hn, hs id key⟩
  rcases op.cases with hc | ⟨r, rfl⟩ | ⟨r, rfl⟩ | hc | hc | rfl
  · refine (h.same (sameConsumers_after hc m)).mono (hkeep fun id key hs => ?_)
    cases op <;> first | exact hs | cases hc
  · rcases after_consumerRegister m r with ⟨hr', he⟩ | ⟨⟨e, hr'⟩, he⟩
    · rw [he]
      exact h.enrol hr hr' (List.isEmpty_iff.mp hop)
    · rw [he]
      refine h.mono (hkeep fun id key hs => ?_)
      have hok := hs.2
      rw [hr'] at hok
      cases hok
  · rcases after_consumerHeartbeat m r with ⟨-, hb⟩ | ⟨⟨e, hr'⟩, he⟩
    · exact h.beaten hr hb (List.isEmpty_iff.mp hop)
    · rw [he]
      refine h.mono (hkeep fun id key hs => ?_)
      have hok := hs.2.1
      rw [hr'] at hok
      cases hok
  · refine Exclusive.mono (Registry.departure_induction (p := fun m => Exclusive m n) hc
      (fun _ _ _ hs h => h.same hs) (fun _ _ _ hr hd h => h.drops hr hd) hr h).2
      (hkeep fun id key hs => ?_)
    cases op with
    | expire c => exact hs
    | consumerClose r => exact hs
    | _ => cases hc
  · cases op with
    | hold kind key =>
      cases kind with
      | consumer => cases hop
      | _ => cases hc
    | giveBack kind key =>
      cases kind with
      | consumer =>
        refine Exclusive.mono ⟨fun id => ?_, h.apart, h.exclusive⟩ (hkeep fun id key hs => hs)
        refine decide_eq_false fun hmem => ?_
        have hfree := of_decide_eq_false (h.free id)
        exact hfree (KeySet.mem_erase.mp hmem).1
      | _ => cases hc
    | _ => cases hc
  · exact h.pass hr ho

theorem run (h : Exclusive m n) (hr : Registry m) (ho : Offers m) {ops : List Operation}
    (hops : ∀ op ∈ ops, op.isSilent = true) : Exclusive (m.run ops) (m.noticesAfter n ops) := by
  induction ops generalizing m n with
  | nil => exact h
  | cons op ops ih =>
    obtain ⟨hop, hops⟩ := List.forall_mem_cons.mp hops
    exact ih (h.after hr ho hop) (hr.after op) (ho.after op) hops

end Exclusive

/-! ## Histories -/

/-- A key that two members of a group hold, neither of them over TLS, has been asked back from one
of them. -/
theorem on_notice_of_held_twice {settings : Settings} {store : Store} {fresh : Master}
    {ops : List Operation} (hs : store.Edited) (hf : Master.create settings store = .ok fresh)
    (hops : ∀ op ∈ ops, op.isSilent = true) {c d : Consumer}
    (hc : (fresh.run ops).groups.consumer? c.id = some c)
    (hd : (fresh.run ops).groups.consumer? d.id = some d) (hct : c.overTls = false)
    (hdt : d.overTls = false) (hgroup : c.group = d.group) (hne : c.id ≠ d.id)
    (hkc : (fresh.run ops).Holds c.id key) (hkd : (fresh.run ops).Holds d.id key) :
    fresh.noticesAfter (fun _ _ => False) ops c.id key ∨
      fresh.noticesAfter (fun _ _ => False) ops d.id key := by
  have hex : Exclusive fresh fun _ _ => False := .create hf
  have h := hex.run (.create hf) (.create hs.valid hf) hops
  exact h.exclusive c d hc hd hct hdt hgroup hne key (.inl hkc) (.inl hkd)

end Master

/-! ## A partition on the move

One consumer holds both partitions of a topic. A second one joins, and the next pass asks the first
one to drop a partition and the second one to take it up. The second one is faster.
-/

namespace Moving

open Master SmallCluster

def beat (id : String) (acknowledged : Nat) : Operation :=
  .consumerHeartbeat { consumer := id, group := "g", acknowledged := acknowledged }

/-- The first consumer takes up everything. -/
def settling : List Operation := [.consumerRegister (joining "a" "g"), .pass, beat "a" 0, beat "a" 1]

def gathering : List Operation := serving :: settling ++ [.consumerRegister (joining "b" "g")]

def history : List Operation := gathering ++ [.pass, beat "b" 0, beat "b" 2]

def first : Consumer := (joining "a" "g").toConsumer

def second : Consumer := (joining "b" "g").toConsumer

def host : Broker := { id := 1, host := "h", port := 1 }

def partition (number : Nat) : Partition := { broker := host, topic := "t", number := number }

/-- The broker serves the topic. -/
def served (runs : BrokerRuns) : Master :=
  { fresh 2 with
    brokers := { registered := Table.empty.insert 1 host, reports := Table.empty.insert 1 {} }
    topology.hosted := Table.empty.insert ("t", 1)
      { broker := 1
        topic := "t"
        partitionCount := 2
        storeCount := 1
        acceptPublish := false
        acceptSubscribe := true }
    liveness.lastSeen := Table.empty.insert (.broker, "1") 0
    runs := runs }

/-- The first consumer holds both partitions. -/
def settled (runs : BrokerRuns) : Master :=
  { served runs with
    groups.groups := Table.empty.insert "g"
      { Group.foundedBy first with members := Table.empty.insert "a" first, notAllocated := false }
    groups.groupOf := Table.empty.insert "a" "g"
    liveness := (served runs).liveness.register .consumer "a@g" 0
    topology := (served runs).topology.subscribe "g" (KeySet.ofList ["t"])
    holdings := Table.empty.insert "a"
      (Table.ofList [(("t", "1-t-0"), partition 0), (("t", "1-t-1"), partition 1)])
    lastPass := 1
    firstPass := false }

/-- The second consumer has joined. -/
def joined (runs : BrokerRuns) : Master :=
  { settled runs with
    groups.groups := Table.empty.insert "g"
      { Group.foundedBy first with
        members := (Table.empty.insert "a" first).insert "b" second
        notAllocated := false }
    groups.groupOf := (Table.empty.insert "a" "g").insert "b" "g"
    liveness := (settled runs).liveness.register .consumer "b@g" 0 }

/-- One partition is to move from the first consumer to the second one. -/
def moving (runs : BrokerRuns) : Master :=
  { joined runs with
    events.queues := Table.ofList
      [("a", [{
          pass := 2
          kind := .onlyDisconnect
          subscriptions := [first.subscription (partition 1)] }]),
       ("b", [{
          pass := 2
          kind := .onlyConnect
          subscriptions := [second.subscription (partition 1)] }])]
    lastPass := 2 }

/-- The second consumer has taken the partition up, the first one has not been heard of. -/
def moved (runs : BrokerRuns) : Master :=
  { moving runs with
    holdings := (settled runs).holdings.insert "b" (Table.empty.insert ("t", "1-t-1") (partition 1))
    events.queues := (moving runs).events.queues.erase "b" }

theorem after_serving : ∃ runs, (fresh 2).after serving = served runs := ⟨_, rfl⟩

theorem run_settling (runs : BrokerRuns) : (served runs).run settling = settled runs := by cbv

theorem after_joining (runs : BrokerRuns) :
    (settled runs).after (.consumerRegister (joining "b" "g")) = joined runs := by cbv

theorem after_joined (runs : BrokerRuns) : (joined runs).after .pass = moving runs := by cbv

theorem run_beats (runs : BrokerRuns) :
    (moving runs).run [beat "b" 0, beat "b" 2] = moved runs := by cbv

theorem run_gathering : ∃ runs, (fresh 2).run gathering = joined runs := by
  obtain ⟨runs, hserved⟩ := after_serving
  refine ⟨runs, ?_⟩
  calc (fresh 2).run gathering
    _ = (((fresh 2).after serving).run settling).after (.consumerRegister (joining "b" "g")) := rfl
    _ = joined runs := by rw [hserved, run_settling, after_joining]

theorem run_history : ∃ runs, (fresh 2).run history = moved runs := by
  obtain ⟨runs, hrun⟩ := run_gathering
  refine ⟨runs, ?_⟩
  calc (fresh 2).run history
    _ = (((fresh 2).run gathering).after .pass).run [beat "b" 0, beat "b" 2] := rfl
    _ = moved runs := by rw [hrun, after_joined, run_beats]

theorem holds_moved (runs : BrokerRuns) :
    (moved runs).Holds "a" "1-t-1" ∧ (moved runs).Holds "b" "1-t-1" := by
  constructor
  · exact Holding.mem_partitionKeys.mpr ⟨"t", rfl⟩
  · exact Holding.mem_partitionKeys.mpr ⟨"t", rfl⟩

theorem silent_history : ∀ op ∈ history, op.isSilent = true := by decide

/-- Both consumers hold the partition, although nobody has reported anything. -/
theorem held_twice : (store 2).Edited ∧ Master.create {} (store 2) = .ok (fresh 2) ∧
    (∀ op ∈ history, op.isSilent = true) ∧
    ((fresh 2).run history).groups.consumer? "a" = some first ∧
    ((fresh 2).run history).groups.consumer? "b" = some second ∧
    first.group = second.group ∧ first.overTls = false ∧ second.overTls = false ∧
    ((fresh 2).run history).Holds "a" "1-t-1" ∧ ((fresh 2).run history).Holds "b" "1-t-1" := by
  obtain ⟨runs, hrun⟩ := run_history
  rw [hrun]
  exact ⟨store_edited rfl, create_fresh rfl, silent_history, rfl, rfl, rfl, rfl, rfl, holds_moved runs⟩

/-- The first consumer has been asked to drop it. -/
theorem first_on_notice : (fresh 2).noticesAfter (fun _ _ => False) history "a" "1-t-1" ∨
    (fresh 2).noticesAfter (fun _ _ => False) history "b" "1-t-1" := by
  obtain ⟨runs, hrun⟩ := run_history
  refine on_notice_of_held_twice (c := first) (d := second) (store_edited rfl) (create_fresh rfl)
    silent_history ?_ ?_ rfl rfl rfl (by decide) ?_ ?_
  · rw [hrun]
    rfl
  · rw [hrun]
    rfl
  · rw [hrun]
    exact (holds_moved runs).1
  · rw [hrun]
    exact (holds_moved runs).2

end Moving

end ClusterMaster
