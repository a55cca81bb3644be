import ClusterMaster.Loading
import ClusterMaster.Proofs.Edits
import ClusterMaster.Proofs.Rendering

/-!
# What a store exports can be loaded again

Every decoder gets back what was written, in any dialect, and follows no reference on the way: it
is `pure` of the value. A manifest is therefore read from its own document, and since the
configurations of a store that edits have made are valid, and filed under ids that differ, the
manifest it exports is never refused:

    Manifest.ofDocument? l m.toDocument = pure m                  (Manifest.ofDocument?_toDocument)
    s.WellFiled → s.toManifest.validate = .ok ()                    (WellFiled.validate_toManifest)
    any edits, then export, write, read and load: the same brokers and blocked topics
                                                                              (edited_reloadable)
-/

namespace ClusterMaster

/-! ## Values -/

namespace Decoder

variable {α : Type} {dec : Decoder α} {enc : α → Document} (l : Dialect)

theorem text_text (s : String) : Decoder.text l (.text s) = pure s := rfl

theorem bool_bool (b : Bool) : Decoder.bool l (.bool b) = pure b := rfl

theorem natBelow_ofNat {n bound : Nat} (h : n < bound) :
    Decoder.natBelow bound l (.ofNat n) = pure n := by
  show (if n < bound then pure n else failure : StateT References Option Nat) = pure n
  rw [if_pos h]

theorem uint16_ofNat (n : UInt16) : Decoder.uint16 l (.ofNat n.toNat) = pure n := by
  rw [Decoder.uint16, natBelow_ofNat l n.toNat_lt_size, pure_bind, UInt16.ofNat_toNat]

theorem uint32_ofNat (n : UInt32) : Decoder.uint32 l (.ofNat n.toNat) = pure n := by
  rw [Decoder.uint32, natBelow_ofNat l n.toNat_lt_size, pure_bind, UInt32.ofNat_toNat]

theorem uint64_ofNat (n : UInt64) : Decoder.uint64 l (.ofNat n.toNat) = pure n := by
  rw [Decoder.uint64, natBelow_ofNat l n.toNat_lt_size, pure_bind, UInt64.ofNat_toNat]

theorem list_map (h : ∀ a, dec l (enc a) = pure a) (as : List α) :
    Decoder.list dec l (.list (as.map enc)) = pure as := by
  show (as.map enc).mapM (dec l) = pure as
  induction as with
  | nil => rfl
  | cons a as ih => rw [List.map_cons, List.mapM_cons, h, pure_bind, ih, pure_bind]

/-- The list of a set's members makes the set. -/
theorem nameSet_ofSet (s : NameSet) : Decoder.nameSet l (.ofSet s) = pure s := by
  have hset : KeySet.ofList s.toList = s := KeySet.ext_mem fun x => KeySet.mem_ofList
  rw [Decoder.nameSet]
  show (Decoder.list Decoder.text l (.list (s.toList.map .text)) >>= fun ns =>
    pure (KeySet.ofList ns)) = pure s
  rw [list_map l (text_text l), pure_bind, hset]

end Decoder

/-- The entries of a table make the table. -/
theorem Table.ofList_entries {κ ν : Type} [Key κ] [DecidableEq κ] (t : Table κ ν) :
    Table.ofList t.entries = t :=
  Table.ext_get? fun _ => Table.get?_insertAll_entries.trans (Option.or_none)

theorem Decoder.table_ofTable {α : Type} {dec : Decoder α} {enc : α → Document} (l : Dialect)
    (h : ∀ a, dec l (enc a) = pure a) (t : Table String α) :
    Decoder.table dec l (.ofTable enc t) = pure t := by
  have hentries (es : List (String × α)) :
      (es.map fun e => (e.1, enc e.2)).mapM (fun f => do return (f.1, ← dec l f.2)) =
        (pure es : StateT References Option _) := by
    induction es with
    | nil => rfl
    | cons e es ih =>
      rw [List.map_cons, List.mapM_cons, h, pure_bind, pure_bind, ih, pure_bind]
  show ((t.entries.map fun e => (e.1, enc e.2)).mapM (fun f => do return (f.1, ← dec l f.2)) >>=
    fun es => pure (Table.ofList es) : StateT References Option (Table String α)) = pure t
  rw [hentries, pure_bind, Table.ofList_entries]

theorem Intent.ofDocument?_name (l : Dialect) (i : Intent) :
    Decoder.name Intent.names l (.text i.name) = pure i := by
  cases i <;> rfl

/-! ## Records -/

theorem Fields.of_record {names : List String} (l : Dialect) {fs : List (String × Document)}
    (h : Fields.distinct names fs = true) : Fields.of names l (.record fs) = pure ⟨l, fs⟩ := by
  show (if Fields.distinct names fs then pure ⟨l, fs⟩ else failure :
    StateT References Option Fields) = pure ⟨l, fs⟩
  rw [if_pos h]

/-- The names of a record are compared, and each value is read from its own place. -/
theorem TopicConfig.ofDocument?_toDocument (l : Dialect) (t : TopicConfig) :
    TopicConfig.ofDocument? l t.toDocument = pure t := by
  rw [TopicConfig.ofDocument?, TopicConfig.toDocument,
    Fields.of_record l (by simp [Fields.distinct])]
  simp [Fields.required, Fields.optional, Fields.get?, Decoder.text_text, Decoder.bool_bool,
    Decoder.uint32_ofNat]

theorem BrokerConfig.ofDocument?_toDocument (l : Dialect) (c : BrokerConfig) :
    BrokerConfig.ofDocument? l c.toDocument = pure c := by
  have htopics : Decoder.list TopicConfig.ofDocument? l
      (.list (c.topics.map TopicConfig.toDocument)) = pure c.topics :=
    Decoder.list_map l (TopicConfig.ofDocument?_toDocument l) _
  rw [BrokerConfig.ofDocument?, BrokerConfig.toDocument,
    Fields.of_record l (by simp [Fields.distinct])]
  simp [Fields.required, Fields.optional, Fields.get?, Decoder.text_text, Decoder.uint16_ofNat,
    Decoder.uint32_ofNat, Decoder.uint64_ofNat, Intent.ofDocument?_name, htopics]

theorem Manifest.ofDocument?_toDocument (l : Dialect) (m : Manifest) :
    Manifest.ofDocument? l m.toDocument = pure m := by
  have hbrokers : Decoder.list BrokerConfig.ofDocument? l
      (.list (m.brokers.map BrokerConfig.toDocument)) = pure m.brokers :=
    Decoder.list_map l (BrokerConfig.ofDocument?_toDocument l) _
  have hblack : Decoder.table Decoder.nameSet l (.ofTable .ofSet m.blackTopics) =
      pure m.blackTopics :=
    Decoder.table_ofTable l (Decoder.nameSet_ofSet l) _
  rw [Manifest.ofDocument?, Manifest.toDocument, Fields.of_record l (by simp [Fields.distinct])]
  simp [Fields.optional, Fields.get?, hbrokers, hblack]

/-! ## Files -/

open Document.Json (Plain)

theorem TopicConfig.plain_toDocument (t : TopicConfig) : Plain t.toDocument := by
  refine .record ?_
  simp only [List.forall_mem_cons]
  exact ⟨.text _, .int _, .int _, .bool _, .bool _, List.forall_mem_nil _⟩

theorem BrokerConfig.plain_toDocument (c : BrokerConfig) : Plain c.toDocument := by
  have htopics : Plain (.list (c.topics.map TopicConfig.toDocument)) :=
    .list (List.forall_mem_map.mpr fun t _ => t.plain_toDocument)
  refine .record ?_
  simp only [List.forall_mem_cons]
  exact ⟨.int _, .text _, .int _, .int _, .text _, htopics, .int _, List.forall_mem_nil _⟩

/-- JSON has a form for all that a manifest holds. -/
theorem Manifest.plain_toDocument (m : Manifest) : Plain m.toDocument := by
  have hbrokers : Plain (.list (m.brokers.map BrokerConfig.toDocument)) :=
    .list (List.forall_mem_map.mpr fun c _ => c.plain_toDocument)
  have hset (names : NameSet) : Plain (.ofSet names) :=
    .list (List.forall_mem_map.mpr fun n _ => .text n)
  have hblack : Plain (.ofTable .ofSet m.blackTopics) :=
    .record (List.forall_mem_map.mpr fun e _ => hset e.2)
  refine .record ?_
  simp only [List.forall_mem_cons]
  exact ⟨hbrokers, hblack, List.forall_mem_nil _⟩

namespace ConfigFile

variable {f : ConfigFile} {s : String}

/-- A name that ends in `.json`, and not just after a slash, is that of a file of JSON. -/
theorem format_json {path : String} {c : Char} (h : path.toList.getLast? = some c) (hc : c ≠ '/')
    (content : Option ByteArray) : format ⟨path ++ ".json", content⟩ = .json := by
  obtain ⟨before, hpath⟩ := List.getLast?_eq_some_iff.mp h
  have hreversed : (path ++ ".json").toList.reverse =
      'n' :: 'o' :: 's' :: 'j' :: '.' :: c :: before.reverse := by
    rw [String.toList_append, hpath]
    simp
  have hextension : extension (path ++ ".json") = "json" := by
    unfold extension
    rw [hreversed]
    simp [hc]
  have hlower : "json".toLower = "json" := by
    apply String.toList_injective
    rw [String.toLower, String.toList_map]
    decide
  rw [format, hextension, hlower]
  rfl

theorem text_eq (what : String) (h : f.content = some s.toUTF8) : f.text what = .ok s := by
  have hs : String.fromUTF8? s.toUTF8 = some s := by
    rw [String.fromUTF8?, dif_pos (show s.toUTF8.IsValidUTF8 from s.isValidUTF8)]
    rfl
  rw [text, h]
  simp only [hs]

/-- A file of JSON is read as the manifest whose document its text holds. -/
theorem manifest_eq {m : Manifest} (hformat : f.format = .json)
    (hcontent : f.content = some s.toUTF8) (hs : Document.Json.parse? s = some m.toDocument) :
    f.manifest = .ok m := by
  have hjson : fromJson? Manifest.ofDocument? s = some m := by
    rw [fromJson?, hs, Option.bind_some, Decoder.run?, Manifest.ofDocument?_toDocument]
    rfl
  rw [manifest, read, text_eq "manifest" hcontent]
  simp only [hformat, decode, hjson]

end ConfigFile

/-! ## Stores -/

theorem validateBrokers_of {seen : List BrokerId} {cs : List BrokerConfig}
    (hvalid : ∀ c ∈ cs, c.validate = .ok ()) (hnew : ∀ c ∈ cs, c.id ∉ seen)
    (hdistinct : (cs.map BrokerConfig.id).Nodup) : validateBrokers seen cs = .ok () := by
  induction cs generalizing seen with
  | nil => rfl
  | cons c cs ih =>
    rw [List.map_cons, List.nodup_cons] at hdistinct
    rw [List.forall_mem_cons] at hvalid hnew
    have hrest : ∀ d ∈ cs, d.id ∉ c.id :: seen := by
      intro d hd hmem
      rcases List.mem_cons.mp hmem with heq | hseen
      · exact hdistinct.1 (heq ▸ List.mem_map_of_mem hd)
      · exact hnew.2 d hd hseen
    rw [validateBrokers, hvalid.1]
    simp only [if_neg hnew.1]
    exact ih hvalid.2 hrest hdistinct.2

namespace Store

variable {s : Store}

theorem WellFiled.entries_eq (h : s.WellFiled) :
    s.brokers.values.map (fun c => (c.id, c)) = s.brokers.entries := by
  rw [Table.values, List.map_map]
  refine (List.map_congr_left fun e he => ?_).trans (List.map_id _)
  exact Prod.ext (h e.1 e.2 (Table.mem_entries_iff.mp he)).2 rfl

/-- A store holds nothing that a store would refuse. -/
theorem WellFiled.validate_toManifest (h : s.WellFiled) : s.toManifest.validate = .ok () := by
  refine validateBrokers_of (fun c hc => ?_) (fun _ _ => List.not_mem_nil) ?_
  · obtain ⟨e, he, rfl⟩ := List.mem_map.mp hc
    exact (h e.1 e.2 (Table.mem_entries_iff.mp he)).1
  · have hids : s.brokers.values.map BrokerConfig.id = s.brokers.entries.map Prod.fst := by
      rw [← h.entries_eq, List.map_map]
      rfl
    show (s.brokers.values.map BrokerConfig.id).Nodup
    rw [hids]
    exact s.brokers.nodup_keys

theorem WellFiled.load_toManifest (h : s.WellFiled) (t : Store) :
    t.load s.toManifest = .ok { t with
      brokers := s.brokers, blackTopics := s.blackTopics, version := t.version + 1 } := by
  have hbrokers : Table.ofList (s.toManifest.brokers.map fun c => (c.id, c)) = s.brokers := by
    show Table.ofList (s.brokers.values.map fun c => (c.id, c)) = s.brokers
    rw [h.entries_eq, Table.ofList_entries]
  rw [Store.load, h.validate_toManifest]
  simp only [hbrokers]
  rfl

/-- What a store exports brings its brokers and blocked topics back. -/
structure Reloadable (s : Store) : Prop where
  /-- The text that the export is written as holds the export. -/
  written : Document.Json.parse? (Document.Json.render s.toManifest.toDocument) =
    some s.toManifest.toDocument
  /-- A file of JSON is read as the export if its text holds that, however it is laid out. -/
  read : ∀ (f : ConfigFile) (text : String), f.format = .json → f.content = some text.toUTF8 →
    Document.Json.parse? text = some s.toManifest.toDocument → f.manifest = .ok s.toManifest
  /-- So is the file that the export is written to, if its name tells that it is one of JSON. -/
  saved : ∀ (path : String) (c : Char), path.toList.getLast? = some c → c ≠ '/' →
    ConfigFile.manifest
      ⟨path ++ ".json", some (Document.Json.render s.toManifest.toDocument).toUTF8⟩ =
        .ok s.toManifest
  /-- A store can be made of it. -/
  made : ∃ t, ofManifest s.toManifest = .ok t ∧
    t.brokers = s.brokers ∧ t.blackTopics = s.blackTopics
  /-- Any store can load it. -/
  loaded : ∀ t : Store, ∃ t', t.load s.toManifest = .ok t' ∧
    t'.brokers = s.brokers ∧ t'.blackTopics = s.blackTopics

/-- Whatever edits have made of a store, nothing is lost when it is exported and loaded again. -/
theorem edited_reloadable (edits : List Edit) : Reloadable (edited empty edits) := by
  have hfiled : (edited empty edits).WellFiled := (Edited.empty.edited edits).wellFiled
  have hwritten := Document.Json.parse?_render (edited empty edits).toManifest.plain_toDocument
  constructor
  case written => exact hwritten
  case read => exact fun f text => ConfigFile.manifest_eq
  case saved =>
    exact fun path c hlast hc =>
      ConfigFile.manifest_eq (ConfigFile.format_json hlast hc _) rfl hwritten
  case made => exact ⟨_, hfiled.load_toManifest empty, rfl, rfl⟩
  case loaded => exact fun t => ⟨_, hfiled.load_toManifest t, rfl, rfl⟩

end Store

end ClusterMaster
