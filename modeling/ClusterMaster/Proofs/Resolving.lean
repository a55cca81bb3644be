import ClusterMaster.Proofs.Exactness

/-!
# Which brokers a producer can resolve

A producer is told by their ids who accepts its messages, and finds the addresses in the broker
list that it was sent last. It sends the version of that list along, and is sent a list only when
its version is stale. The version counts edits of the configured brokers: it does not count
registrations, so the list may lack a broker that has registered since (`Serving.unresolved`).
Such *news* are all that a list may lack:

    a producer that is told of broker id holds its present entry,
      or a registration has changed the entry since the list was sent                (resolves)
    a producer with a stale version is sent all registered brokers                   (resolves)

A producer's answers may be lost, and then it keeps what it has. The invariant is
`Directory.Knows`, and every step keeps it (`Directory.Knows.step`).
-/

namespace ClusterMaster

/-- What a producer keeps of the answers it has got, and the brokers of which a registration has
changed the entry since it was sent its list. -/
structure Directory where
  version : Nat := 0
  brokers : List Broker := []
  news : BrokerId → Prop := fun _ => False

namespace Master

variable {m : Master} {op : Operation} {id : BrokerId} {b : Broker}

/-! ## Registered brokers -/

/-- A registration that is accepted changes the entry of a broker. -/
def Renews (m : Master) (op : Operation) (id : BrokerId) : Prop :=
  (∃ r, op = .brokerRegister r ∧ r.broker = id) ∧ (m.perform op).1.isOk = true ∧
    (m.after op).brokers.broker? id ≠ m.brokers.broker? id

/-- The version never goes back, and entries come from registrations only. -/
theorem Hosting.entries_after (h : Hosting m) (op : Operation) :
    m.store.version ≤ (m.after op).store.version ∧
      ∀ id b, (m.after op).brokers.broker? id = some b → m.brokers.broker? id = some b ∨
        m.Renews op id ∧ 0 < m.store.version := by
  rcases h.quiet_or_heard op with hquiet | ⟨id, report, b₁, c, l, m₁, hheard, hok, hof, he, hsource⟩
  · obtain ⟨hversion, hentries⟩ := h.quiet_induction
      (p := fun m' => m.store.version ≤ m'.store.version ∧
        ∀ id b, m'.brokers.broker? id = some b → m.brokers.broker? id = some b) hquiet
      (fun m₁ m₂ hs hm => ⟨hs.store ▸ hm.1, fun id b hb => hm.2 id b (hs.brokers ▸ hb)⟩)
      (fun m₁ e store hs hm => ⟨hm.1.trans (Store.of_edit hs).1, hm.2⟩)
      (fun m₁ topic _ hm => hm) (fun m₁ topic hm => hm)
      (fun m₁ id hm => ⟨(released_releaseBroker m₁ id).store ▸ hm.1,
        fun j b hb => hm.2 j b ((released_releaseBroker m₁ id).broker? hb)⟩)
      ⟨le_refl _, fun _ _ hb => hb⟩
    exact ⟨hversion, fun id b hb => .inl (hentries id b hb)⟩
  · have hp := h.pushed hof
    refine ⟨?_, fun j b hb => ?_⟩
    · rw [he, hp.store, hof.store]
    · by_cases hj : id = j
      · subst hj
        by_cases hsame : m.brokers.broker? id = some b
        · exact .inl hsame
        · have hb₁ : (m.after op).brokers.broker? id = some b₁ := by
            rw [he, hp.brokers, hof.broker?]
          obtain rfl := Option.some.inj (hb.symm.trans hb₁)
          rcases hsource with ⟨r, rfl⟩ | hold
          · have hid : r.broker = id := congrArg Prod.fst (Option.some.inj hheard)
            refine .inr ⟨⟨⟨r, rfl, hid⟩, hok, ?_⟩, (h.sound id c hof.config).2.2⟩
            rw [hb]
            exact fun heq => hsame heq.symm
          · exact absurd hold hsame
      · rw [he, ((hof.others j hj).trans (hp.others j hj)).broker?] at hb
        exact .inl hb

/-- Nobody can register before a broker has been configured. -/
theorem Grown.version_pos (hm : m.Grown) (hb : m.brokers.broker? id = some b) :
    0 < m.store.version := by
  obtain ⟨settings, store, fresh, ops, hs, hf, rfl⟩ := hm
  have hh := Hosting.create hs.sound hf
  have hnone : ∀ id b, fresh.brokers.broker? id = some b → 0 < fresh.store.version := by
    obtain rfl := eq_of_create hf
    intro id b hb
    cases hb
  clear hf hs
  induction ops generalizing fresh with
  | nil => exact hnone id b hb
  | cons op ops ih =>
    refine ih _ hb (hh.after op) fun j b hb => ?_
    obtain ⟨hversion, hentries⟩ := hh.entries_after op
    rcases hentries j b hb with hold | ⟨-, hpos⟩
    · exact (hnone j b hold).trans_le hversion
    · exact hpos.trans_le hversion

theorem Grown.after (hm : m.Grown) (op : Operation) : (m.after op).Grown := by
  obtain ⟨settings, store, fresh, ops, hs, hf, rfl⟩ := hm
  exact ⟨settings, store, fresh, ops ++ [op], hs, hf, by simp [Master.run]⟩

end Master

/-! ## Producers and their lists -/

namespace Directory

variable {m m' : Master} {d d' : Directory} {op : Operation} {topics : NameSet} {version : UInt64}
  {a : ProducerAnswer} {id : BrokerId}

/-- The producer keeps the version of an answer, and its list if it has one. -/
def keep (d : Directory) (a : ProducerAnswer) : Directory :=
  { version := a.version
    brokers := a.brokers.getD d.brokers
    news := fun id => a.brokers = none ∧ d.news id }

/-- The producer calls with the version it has, and is answered. -/
def Asks (m : Master) (d : Directory) (op : Operation) (topics : NameSet) (a : ProducerAnswer) : Prop :=
  ∃ version, op.publishes? = some (topics, version) ∧ version.toNat = d.version ∧
    (m.perform op).1 = .ok (.producer a)

/-- What can happen to a master and a producer. A call whose answer is lost is an operation like
any other. -/
inductive Step : Master → Directory → Master → Directory → Prop
  | ask {m : Master} {d : Directory} {op : Operation} {topics : NameSet} {a : ProducerAnswer}
    (h : Asks m d op topics a) : Step m d (m.after op) (d.keep a)
  | other {m : Master} {d : Directory} (op : Operation) :
    Step m d (m.after op) { d with news := fun id => d.news id ∨ m.Renews op id }

/-- What can become of a master and a producer that has got no answer yet. -/
inductive Reachable : Master → Directory → Prop
  | start {m : Master} (h : m.Grown) : Reachable m {}
  | step {m m' : Master} {d d' : Directory} (h : Reachable m d) (hs : Step m d m' d') :
    Reachable m' d'

/-- The list lacks news only, or the producer is to be sent its first one. -/
structure Knows (m : Master) (d : Directory) : Prop where
  grown : m.Grown
  listed : (∀ id b, m.brokers.broker? id = some b → b ∈ d.brokers ∨ d.news id) ∨
    d.version = 0 ∧ 0 < m.store.version

/-- Whoever is registered is on the list of all. -/
theorem mem_all {b : Broker} (hb : m.brokers.broker? id = some b) : b ∈ m.brokers.all :=
  List.mem_map.mpr ⟨(id, b), Table.get?_eq_some_iff.mp hb, rfl⟩

namespace Knows

/-- Once it has been answered, a producer lacks news only. -/
theorem keep (h : Knows m d) (ha : Asks m d op topics a) :
    (d.version ≠ m.store.version → a.brokers = some m.brokers.all) ∧
      ∀ id b, m.brokers.broker? id = some b → b ∈ (d.keep a).brokers ∨ (d.keep a).news id := by
  obtain ⟨version, hop, hversion, hans⟩ := ha
  have hs := Master.sameBrokers_of_publishes hop m
  have hlist : a.brokers = if d.version = m.store.version then none else some m.brokers.all := by
    rw [Master.answer_of_publishes hop hans]
    unfold Master.producerAnswer
    rw [hs.store, hs.brokers, hversion]
  refine ⟨fun hstale => by rw [hlist, if_neg hstale], fun id b hb => ?_⟩
  unfold Directory.keep
  by_cases hcurrent : d.version = m.store.version
  · rw [if_pos hcurrent] at hlist
    rcases h.listed with hlisted | ⟨hzero, hpos⟩
    · rw [hlist]
      exact (hlisted id b hb).imp_right fun hnews => ⟨rfl, hnews⟩
    · omega
  · rw [if_neg hcurrent] at hlist
    rw [hlist]
    exact .inl (mem_all hb)

theorem step (h : Knows m d) (hs : Step m d m' d') : Knows m' d' := by
  cases hs with
  | ask ha =>
    obtain ⟨-, hkeep⟩ := h.keep ha
    obtain ⟨version, hop, -⟩ := ha
    refine ⟨h.grown.after _, .inl fun id b hb => hkeep id b ?_⟩
    rw [(Master.sameBrokers_of_publishes hop m).brokers] at hb
    exact hb
  | other op =>
    obtain ⟨hversion, hentries⟩ := h.grown.hosting.entries_after op
    refine ⟨h.grown.after op, ?_⟩
    rcases h.listed with hlisted | ⟨hzero, hpos⟩
    · refine .inl fun id b hb => ?_
      rcases hentries id b hb with hold | ⟨hrenews, -⟩
      · exact (hlisted id b hold).imp_right .inl
      · exact .inr (.inr hrenews)
    · exact .inr ⟨hzero, hpos.trans_le hversion⟩

end Knows

theorem Reachable.knows (h : Reachable m d) : Knows m d := by
  induction h with
  | @start m hm =>
    refine ⟨hm, ?_⟩
    rcases Nat.eq_zero_or_pos m.store.version with hzero | hpos
    · exact .inl fun id b hb => absurd (hm.version_pos hb) (by omega)
    · exact .inr ⟨rfl, hpos⟩
  | step _ hs ih => exact ih.step hs

/-- Of every broker that a producer is told to publish to, it holds the present entry, or the entry
has been changed by a registration since the list was sent. -/
theorem resolves (h : Reachable m d) (ha : Asks m d op topics a) :
    (d.version ≠ m.store.version → a.brokers = some m.brokers.all) ∧
    ∀ topic offers, a.topics.get? topic = some offers → ∀ offer ∈ offers,
      ∃ b, m.brokers.broker? offer.broker = some b ∧ b.id = offer.broker ∧
        (b ∈ (d.keep a).brokers ∨ (d.keep a).news offer.broker) := by
  have hknows := h.knows
  obtain ⟨hstale, hkeep⟩ := hknows.keep ha
  refine ⟨hstale, fun topic offers hget offer hmem => ?_⟩
  obtain ⟨version, hop, -, hans⟩ := ha
  rw [Master.answer_of_publishes hop hans, Master.get?_producerAnswer] at hget
  obtain ⟨-, hoffers⟩ := Option.ite_none_right_eq_some.mp hget
  obtain rfl := Option.some.inj hoffers
  obtain ⟨-, -, hreg⟩ := Master.mem_publishable.mp hmem
  rw [(Master.sameBrokers_of_publishes hop m).brokers] at hreg
  obtain ⟨b, hb⟩ := Table.contains_iff.mp hreg
  exact ⟨b, hb, hknows.grown.offers.registered _ b hb, hkeep _ b hb⟩

end Directory

/-! ## A broker that registers after the list was sent -/

namespace Serving

def publishing : Operation :=
  .producerRegister { producer := "p", host := "h", topics := KeySet.ofList ["t"] }

def repeating : Operation :=
  .producerHeartbeat { producer := "p", topics := KeySet.ofList ["t"], version := 1 }

/-- What the producer is told once the broker has registered. -/
def told (brokers : Option (List Broker)) : ProducerAnswer :=
  { version := 1
    brokers := brokers
    topics := Table.empty.insert "t" [shown "t" 1 true] }

def broker : Broker := { id := 1, host := "h", port := 1 }

theorem grown_fresh : fresh.Grown := ⟨{}, store, fresh, [], store_edited, create_fresh, rfl⟩

/-- The producer has the present version, is told to publish to the broker, and has no address. -/
theorem unresolved : ∃ m d, Directory.Reachable m d ∧
    Directory.Asks m d repeating (KeySet.ofList ["t"]) (told none) ∧
    (told none).topics.get? "t" = some [shown "t" 1 true] ∧
    m.brokers.broker? 1 = some broker ∧ (d.keep (told none)).brokers = [] := by
  have hfirst : Directory.Asks fresh {} publishing (KeySet.ofList ["t"])
      { version := 1, brokers := some [], topics := Table.empty.insert "t" [] } :=
    ⟨0, rfl, rfl, rfl⟩
  have hreach := ((Directory.Reachable.start grown_fresh).step (.ask hfirst)).step
    (.other registering)
  exact ⟨_, _, hreach, ⟨1, rfl, rfl, rfl⟩, rfl, rfl, rfl⟩

/-- A producer that comes after the broker is sent its entry. -/
theorem resolved : Directory.Reachable (fresh.after registering) {} ∧
    Directory.Asks (fresh.after registering) {} publishing (KeySet.ofList ["t"])
      (told (some [broker])) ∧
    ∃ b, (fresh.after registering).brokers.broker? 1 = some b ∧
      b ∈ (Directory.keep {} (told (some [broker]))).brokers := by
  have hreach : Directory.Reachable (fresh.after registering) {} :=
    .start (grown_fresh.after registering)
  have hasks : Directory.Asks (fresh.after registering) {} publishing (KeySet.ofList ["t"])
      (told (some [broker])) := ⟨0, rfl, rfl, rfl⟩
  refine ⟨hreach, hasks, ?_⟩
  obtain ⟨b, hb, -, hmem⟩ := (Directory.resolves hreach hasks).2 "t" [shown "t" 1 true] rfl
    (shown "t" 1 true) List.mem_cons_self
  exact ⟨b, hb, hmem.resolve_right fun hnews => nomatch hnews.1⟩

end Serving

end ClusterMaster
