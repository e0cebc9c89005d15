import Mathlib.Data.List.Dedup
import RerunViz.Node.Subscriptions

set_option autoImplicit false

/-!
# Duplicate converters

For a topic it knows, `updateSubscriptions` looks for a converter of each type before it
constructs one.  For a new topic it does not look, so that a type that occurs twice in the
type list gets two converters.  Without such lists no topic ever holds two converters of
one type, and what is listed for a topic depends on the last map only
(`noDuplicates_iff`).
-/

namespace RerunViz

/-- The factory has a class for the type on the topic. -/
def supported (topic type : String) : Bool := (ConverterFactory.classFor topic type).isSome

/-- No construction throws. -/
def World.Reliable (world : World) : Prop := ∀ n, world.constructionError n = none

/-- A world in which every construction succeeds, and nothing else does. -/
def World.reliable : World where
  constructionError := fun _ => none
  lookupTransform := fun _ _ _ => .error "no transform"
  fromCameraInfo := fun _ => .error "no camera model"
  initString := fun _ => ⟨"", none, []⟩
  stackDepth := 0

namespace Node

variable {world : World} {stream : Option RecordingStream}

/-- No topic holds two converters that report the same type. -/
def NoDuplicates (node : Node) : Prop :=
  ∀ topic types, node.getSubscriptions.lookup topic = some types → types.Nodup

/-- What is listed for a topic of the map are the supported types of its list, each
once. -/
def ListsSupported (node : Node) (m : TopicMap) : Prop :=
  ∀ topic types, m.lookup topic = some types →
    ∃ names, node.getSubscriptions.lookup topic = some names ∧
      names.Perm (types.filter (supported topic)).dedup

/-- A topic that the map before did not have repeats no supported type. -/
def NewTopicsPlain (before m : TopicMap) : Prop :=
  ∀ topic types, topic ∉ before → m.lookup topic = some types →
    (types.filter (supported topic)).Nodup

/-! ## One topic -/

/-- What the loop makes of a topic is what the round of that topic makes of it. -/
theorem exists_round (world : World) (entries : List (Sigma fun _ : String => List String))
    (hkeys : entries.NodupKeys) (node : Node) {topic : String} {types : List String}
    (hmem : ⟨topic, types⟩ ∈ entries) :
    ∃ node' : Node, node'.stream = node.stream ∧
      node'.subscriptions.lookup topic = node.subscriptions.lookup topic ∧
      (entries.foldl (updateTopic world) node).subscriptions.lookup topic =
        (updateTopic world node' ⟨topic, types⟩).subscriptions.lookup topic := by
  induction entries generalizing node with
  | nil => cases hmem
  | cons entry entries ih =>
      obtain ⟨hnot, hrest⟩ := List.nodupKeys_cons.mp hkeys
      rw [List.foldl_cons]
      rcases List.mem_cons.mp hmem with rfl | hlater
      · obtain ⟨_, subscriptions, hloop, _, hother, _⟩ :=
          foldl_updateTopic_spec world entries hrest (updateTopic world node ⟨topic, types⟩)
        refine ⟨node, rfl, rfl, ?_⟩
        rw [hloop]
        exact hother topic hnot
      · have hkey : topic ∈ entries.keys := List.mem_keys_of_mem hlater
        have hne : topic ≠ entry.1 := fun heq => hnot (heq ▸ hkey)
        obtain ⟨_, _, hround, _, _⟩ := updateTopic_spec world node entry.1 entry.2
        obtain ⟨node', hstream, hlookup, hsame⟩ :=
          ih hrest (updateTopic world node entry) hlater
        rw [show entry = ⟨entry.1, entry.2⟩ from rfl, hround] at hstream hlookup
        rw [AList.lookup_insert_ne hne] at hlookup
        exact ⟨node', hstream, hlookup, hsame⟩

/-- The names listed for a new topic and for a known one. -/
def namesAfterRound (world : World) (stream : Option RecordingStream) (topic : String)
    (types : List String) (attempts : List Attempt) : Option (List Converter) → List String
  | none => typeNames (addForNewTopic world stream topic types attempts).converters
  | some existing =>
      typeNames (eraseUnneeded types
        (addMissing world stream topic types attempts existing).converters)

/-- The names listed after an update are those of the round of the topic. -/
theorem lookup_updateSubscriptions (world : World) {node : Node} (hshared : node.shared = true)
    {m : TopicMap} {topic : String} {types : List String}
    (htypes : m.lookup topic = some types) :
    ∃ attempts, (node.updateSubscriptions world m).getSubscriptions.lookup topic =
      some (namesAfterRound world node.stream topic types attempts
        (node.subscriptions.lookup topic)) := by
  have hm : topic ∈ m := Assoc.mem_of_lookup htypes
  obtain ⟨node', hstream, hlookup, hsame⟩ :=
    exists_round world m.entries m.nodupKeys (node.removeTopics m)
      (AList.mem_lookup_iff.mp htypes)
  rw [lookup_removeTopics, if_pos hm] at hlookup
  have hstream' : node'.stream = node.stream := hstream
  refine ⟨node'.attempts, ?_⟩
  rw [lookup_getSubscriptions, updateSubscriptions, if_pos hshared, hsame, updateTopic,
    ← hlookup, ← hstream']
  cases node'.subscriptions.lookup topic with
  | none =>
      rw [AList.lookup_insert]
      rfl
  | some existing =>
      rw [AList.lookup_insert]
      rfl

/-! ## No name is added twice -/

/-- A construction that succeeds is one the factory has a class for. -/
theorem MadeFor.supported {a : Attempt} {topic : String} (h : MadeFor a topic stream)
    (hok : a.Succeeded) : supported topic a.type = true := by
  unfold Attempt.Succeeded at hok
  cases hresult : a.result with
  | error what =>
      rw [hresult] at hok
      cases hok
  | ok c =>
      rw [RerunViz.supported, h.class_eq c hresult]
      rfl

/-- The types constructed for a topic are supported types of its list. -/
theorem constructedTypes_sublist {made : List Attempt} {topic : String} {types : List String}
    (hfor : ∀ a ∈ made, MadeFor a topic stream) (hsub : (made.map Attempt.type).Sublist types) :
    (constructedTypes made).Sublist (types.filter (supported topic)) := by
  have hsupported : ∀ type ∈ constructedTypes made, supported topic type = true := by
    intro type htype
    obtain ⟨a, hmem, _, rfl, hok⟩ := (mem_constructedTypes_iff hfor type).mp htype
    exact (hfor a hmem).supported hok
  have hfilter : (constructedTypes made).filter (supported topic) = constructedTypes made :=
    List.filter_eq_self.mpr hsupported
  rw [← hfilter]
  exact (((List.filter_sublist).map Attempt.type).trans hsub).filter (supported topic)

/-- A new topic gets no duplicates when its list repeats no supported type. -/
theorem nodup_addForNewTopic {topic : String} {types : List String} (attempts : List Attempt)
    (hplain : (types.filter (supported topic)).Nodup) :
    (typeNames (addForNewTopic world stream topic types attempts).converters).Nodup := by
  obtain ⟨made, _, hfor, hsub, hnames⟩ :=
    subscribeLoop_spec world stream topic (fun _ _ => false) types ⟨attempts, []⟩
  unfold addForNewTopic
  rw [hnames, typeNames, List.map_nil, List.nil_append]
  exact hplain.sublist (constructedTypes_sublist hfor hsub)

/-- A known topic gets no duplicates: only missing types are constructed. -/
theorem nodup_addMissing (topic : String) (types : List String) (attempts : List Attempt)
    {existing : List Converter} (h : (typeNames existing).Nodup) :
    (typeNames (addMissing world stream topic types attempts existing).converters).Nodup := by
  unfold addMissing
  suffices hloop : ∀ s : Subscribing, (typeNames s.converters).Nodup →
      (typeNames (subscribeLoop world stream topic hasType types s).converters).Nodup from
    hloop _ h
  induction types with
  | nil => exact fun s hs => hs
  | cons type types ih =>
      intro s hs
      unfold subscribeLoop at ih ⊢
      rw [List.foldl_cons]
      apply ih
      split
      · exact hs
      · rename_i hnot
        rw [hasType_iff] at hnot
        obtain ⟨a, _, hatype, _, hnames⟩ := tryConverter_spec world stream topic s type
        rw [hnames]
        refine List.Nodup.append hs ?_ ?_
        · unfold constructedTypes
          exact ((List.filter_sublist).map Attempt.type).nodup (by simp)
        · intro name hname hnew
          have hsame : name = a.type := by
            simpa using (((List.filter_sublist).map Attempt.type).subset hnew :
              name ∈ [a].map Attempt.type)
          rw [hsame, hatype] at hname
          exact hnot hname

/-! ## When no construction throws -/

theorem typeNames_tryConverter (hreliable : world.Reliable) (topic : String)
    (s : Subscribing) (type : String) :
    typeNames (tryConverter world stream topic s type).converters =
      typeNames s.converters ++ [type].filter (supported topic) := by
  unfold tryConverter supported ConverterFactory.getConverterForRosTopic
  rw [hreliable]
  cases hclass : ConverterFactory.classFor topic type with
  | none => simp [hclass]
  | some cls =>
      have hname : cls.rosTypeName = type := ConverterFactory.rosTypeName_of_classFor hclass
      simp [hclass, typeNames, Converter.getRosTypeName, hname]

/-- A new topic gets a converter for every supported entry of its list. -/
theorem typeNames_addForNewTopic (hreliable : world.Reliable) (topic : String)
    (types : List String) (attempts : List Attempt) :
    typeNames (addForNewTopic world stream topic types attempts).converters =
      types.filter (supported topic) := by
  unfold addForNewTopic
  suffices hloop : ∀ s : Subscribing,
      typeNames (subscribeLoop world stream topic (fun _ _ => false) types s).converters =
        typeNames s.converters ++ types.filter (supported topic) from hloop _
  induction types with
  | nil => simp [subscribeLoop]
  | cons type types ih =>
      intro s
      unfold subscribeLoop at ih ⊢
      rw [List.foldl_cons, ih, if_neg Bool.false_ne_true, typeNames_tryConverter hreliable,
        List.append_assoc, ← List.filter_append, List.singleton_append]

/-- A known topic gets every supported type of its list. -/
theorem mem_addMissing_iff (hreliable : world.Reliable) (topic : String)
    (types : List String) (attempts : List Attempt) (existing : List Converter)
    (name : String) :
    name ∈ typeNames (addMissing world stream topic types attempts existing).converters ↔
      name ∈ typeNames existing ∨ (name ∈ types ∧ supported topic name = true) := by
  unfold addMissing
  suffices hloop : ∀ s : Subscribing,
      name ∈ typeNames (subscribeLoop world stream topic hasType types s).converters ↔
        name ∈ typeNames s.converters ∨ (name ∈ types ∧ supported topic name = true) from
    hloop _
  induction types with
  | nil => simp [subscribeLoop]
  | cons type types ih =>
      intro s
      unfold subscribeLoop at ih ⊢
      rw [List.foldl_cons, ih]
      split
      · rename_i hfound
        rw [hasType_iff] at hfound
        grind
      · rw [typeNames_tryConverter hreliable]
        grind

/-! ## Runs -/

theorem mem_updated_iff (world : World) (stream : Option RecordingStream)
    (maps : List TopicMap) (topic : String) :
    topic ∈ (updated world stream maps).getSubscriptions ↔
      topic ∈ Run.run (fun _ m => m) (∅ : TopicMap) maps := by
  induction maps using List.reverseRecOn with
  | nil =>
      rw [mem_getSubscriptions_iff]
      rfl
  | append_singleton maps m _ =>
      rw [updated_concat, mem_updateSubscriptions_iff (updated_shared world stream maps),
        Run.run_append, Run.run_singleton]

/-- Every type that is ever listed is supported. -/
theorem supported_of_lists {maps : List TopicMap} {topic type : String}
    (h : (updated world stream maps).Lists topic type) : supported topic type = true := by
  induction maps using List.reverseRecOn with
  | nil =>
      obtain ⟨converters, hlookup, _⟩ := lists_iff.mp h
      cases hlookup
  | append_singleton maps m ih =>
      obtain ⟨made, _, hfor, hlists⟩ :=
        lists_updateSubscriptions_iff world (updated_shared world stream maps) m
      rw [updated_concat, hlists] at h
      obtain ⟨types, _, _, hold | ⟨a, hmem, htopic, rfl, hok⟩⟩ := h
      · exact ih hold
      · rw [← htopic]
        exact (hfor a hmem).supported hok

/-- An update whose new topics repeat no supported type adds no duplicate. -/
theorem NoDuplicates.updateSubscriptions {node : Node} (h : NoDuplicates node)
    (hshared : node.shared = true) {m : TopicMap}
    (hplain : ∀ topic types, topic ∉ node.getSubscriptions → m.lookup topic = some types →
      (types.filter (supported topic)).Nodup) :
    NoDuplicates (node.updateSubscriptions world m) := by
  intro topic names hnames
  cases htypes : m.lookup topic with
  | none =>
      have hm : topic ∈ m :=
        (mem_updateSubscriptions_iff hshared m topic).mp (Assoc.mem_of_lookup hnames)
      rw [← AList.lookup_isSome, htypes] at hm
      cases hm
  | some types =>
      obtain ⟨attempts, hround⟩ := lookup_updateSubscriptions world hshared htypes
      obtain rfl := Option.some.inj (hnames.symm.trans hround)
      cases hlookup : node.subscriptions.lookup topic with
      | none =>
          have hnew : topic ∉ node.getSubscriptions := by
            rw [mem_getSubscriptions_iff, ← AList.lookup_isSome, hlookup]
            simp
          exact nodup_addForNewTopic attempts (hplain topic types hnew htypes)
      | some existing =>
          have hexisting : (typeNames existing).Nodup := by
            refine h topic _ ?_
            rw [lookup_getSubscriptions, hlookup]
            rfl
          rw [namesAfterRound, typeNames_eraseUnneeded]
          exact (nodup_addMissing topic types attempts hexisting).filter _

/-- In runs whose new topics repeat no supported type no topic ever holds duplicates. -/
theorem noDuplicates_updated {maps : List TopicMap}
    (hplain : Run.Meets (fun _ m => m) NewTopicsPlain ∅ maps) :
    NoDuplicates (updated world stream maps) := by
  induction maps using List.reverseRecOn with
  | nil =>
      intro topic names hnames
      cases hnames
  | append_singleton maps m ih =>
      rw [Run.meets_concat] at hplain
      rw [updated_concat]
      refine (ih hplain.1).updateSubscriptions (updated_shared world stream maps) ?_
      intro topic types hnew htypes
      rw [mem_updated_iff] at hnew
      exact hplain.2 topic types hnew htypes

/-- Without duplicates, and when no construction throws, what is listed are the supported
types of the last map. -/
theorem listsSupported_updated (hreliable : world.Reliable) {maps : List TopicMap}
    {m : TopicMap} (hnodup : NoDuplicates (updated world stream (maps ++ [m]))) :
    ListsSupported (updated world stream (maps ++ [m])) m := by
  intro topic types htypes
  have hshared := updated_shared world stream maps
  obtain ⟨attempts, hround⟩ := lookup_updateSubscriptions world hshared htypes
  rw [← updated_concat] at hround
  refine ⟨_, hround, ?_⟩
  refine (List.perm_ext_iff_of_nodup (hnodup topic _ hround) (List.nodup_dedup _)).mpr ?_
  intro name
  rw [List.mem_dedup, List.mem_filter]
  cases hlookup : (updated world stream maps).subscriptions.lookup topic with
  | none =>
      rw [namesAfterRound, typeNames_addForNewTopic hreliable, List.mem_filter]
  | some existing =>
      have hold : name ∈ typeNames existing → supported topic name = true := by
        intro hname
        exact supported_of_lists (lists_iff.mpr ⟨existing, hlookup, hname⟩)
      rw [namesAfterRound, typeNames_eraseUnneeded, List.mem_filter,
        mem_addMissing_iff hreliable, decide_eq_true_eq]
      constructor
      · rintro ⟨hname | hname, hmem⟩
        · exact ⟨hmem, hold hname⟩
        · exact hname
      · intro hname
        exact ⟨Or.inr hname, hname.1⟩

/-- In a world without failures a new topic holds duplicates unless its list repeats no
supported type. -/
theorem newTopicsPlain_of_noDuplicates {maps : List TopicMap} {m : TopicMap}
    (hnodup : NoDuplicates (updated World.reliable stream (maps ++ [m]))) :
    NewTopicsPlain (Run.run (fun _ m => m) ∅ maps) m := by
  intro topic types hnew htypes
  have hreliable : World.reliable.Reliable := fun _ => rfl
  have hshared := updated_shared World.reliable stream maps
  rw [← mem_updated_iff World.reliable stream, mem_getSubscriptions_iff,
    ← AList.lookup_isSome, Option.not_isSome_iff_eq_none] at hnew
  obtain ⟨attempts, hround⟩ :=
    lookup_updateSubscriptions World.reliable hshared htypes
  rw [← updated_concat, hnew, namesAfterRound, typeNames_addForNewTopic hreliable] at hround
  exact hnodup topic _ hround

/-- For every sequence of maps: no topic ever holds two converters of one type, whatever
constructions fail, and without failures what is listed after each call are the supported
types of its map, each once, if and only if at every call the topics that the call before
did not have repeat no supported type. -/
theorem noDuplicates_iff (stream : Option RecordingStream) (maps : List TopicMap) :
    (∀ world : World,
      (∀ before, before <+: maps → NoDuplicates (updated world stream before)) ∧
      (world.Reliable → ∀ before m, before ++ [m] <+: maps →
        ListsSupported (updated world stream (before ++ [m])) m)) ↔
      Run.Meets (fun _ m => m) NewTopicsPlain ∅ maps := by
  constructor
  · intro h
    exact Run.meets_of_prefixes (h World.reliable).1 fun _ _ _ hnodup =>
      newTopicsPlain_of_noDuplicates hnodup
  · intro hplain world
    have hnodup : ∀ before, before <+: maps → NoDuplicates (updated world stream before) := by
      rintro before ⟨rest, rfl⟩
      exact noDuplicates_updated ((Run.meets_append _ _ _).mp hplain).1
    exact ⟨hnodup, fun hreliable before m hgrown =>
      listsSupported_updated hreliable (hnodup _ hgrown)⟩

/-- A new topic whose list names a type twice gets two converters of it. -/
theorem not_noDuplicates_repeated :
    ¬ NoDuplicates (updated World.reliable none
      [AList.singleton "/points"
        ["sensor_msgs/msg/PointCloud2", "sensor_msgs/msg/PointCloud2"]]) := by
  intro h
  have hnodup := h "/points" ["sensor_msgs/msg/PointCloud2", "sensor_msgs/msg/PointCloud2"]
    (by decide)
  revert hnodup
  decide

end Node

end RerunViz
