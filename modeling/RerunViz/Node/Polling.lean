import RerunViz.Node.Duplicates
import RerunViz.Node.Identity

set_option autoImplicit false

/-!
# Polling

The graph is polled every second, so most updates are made with a map that the node has seen
before.  A construction that failed is tried again at the next poll.  Once constructions
succeed, one update is enough to have every supported type of the map subscribed, and
nothing else (`settled_updateSubscriptions`); from then on, updates with the same map
construct nothing and touch no list of converters, among any other events
(`polling_stable`).
-/

namespace RerunViz

/-- The constructions with this number and later ones do not throw. -/
def World.ReliableFrom (world : World) (n : Nat) : Prop :=
  ∀ i, n ≤ i → world.constructionError i = none

namespace Node

variable {world : World} {stream : Option RecordingStream}

/-- What is listed is what the map asks for, as far as it is supported. -/
structure Settled (node : Node) (m : TopicMap) : Prop where
  topics : ∀ topic, topic ∈ node.getSubscriptions ↔ topic ∈ m
  listed : ∀ topic type, node.Lists topic type ↔
    ∃ types, m.lookup topic = some types ∧ type ∈ types ∧ supported topic type = true

/-! ## Subscriptions come from updates alone -/

/-- The nodes hold the same converters, and make the same constructions next. -/
structure SameConverters (node node' : Node) : Prop where
  shared : node'.shared = node.shared
  stream : node'.stream = node.stream
  subscriptions : node'.subscriptions = node.subscriptions
  attempts : node'.attempts = node.attempts

theorem SameConverters.updateTopic {node node' : Node} (h : SameConverters node node')
    (entry : Sigma fun _ : String => List String) :
    SameConverters (node.updateTopic world entry) (node'.updateTopic world entry) := by
  unfold Node.updateTopic
  rw [h.subscriptions, h.stream, h.attempts]
  split
  · exact ⟨h.shared, rfl, rfl, rfl⟩
  · exact ⟨h.shared, rfl, rfl, rfl⟩

theorem SameConverters.updateSubscriptions {node node' : Node} (h : SameConverters node node')
    (m : TopicMap) :
    SameConverters (node.updateSubscriptions world m) (node'.updateSubscriptions world m) := by
  unfold Node.updateSubscriptions
  rw [h.shared]
  split
  · have hremoved : SameConverters (node.removeTopics m) (node'.removeTopics m) := by
      unfold removeTopics
      rw [h.subscriptions]
      exact ⟨h.shared, h.stream, rfl, h.attempts⟩
    generalize node.removeTopics m = start, node'.removeTopics m = start' at hremoved
    induction m.entries generalizing start start' with
    | nil => exact hremoved
    | cons entry entries ih => exact ih _ _ (hremoved.updateTopic entry)
  · exact h

/-- The map of an event that is an update. -/
def Event.maps : Event → List TopicMap
  | .updateSubscriptions m => [m]
  | .deliver _ _ => []
  | .onTimer => []

/-- Deliveries and ticks have no part in what is subscribed. -/
theorem sameConverters_run (world : World) (stream : Option RecordingStream)
    (events : List Event) :
    SameConverters (updated world stream (events.flatMap Event.maps))
      (Run.run (step world) (init true stream) events) := by
  induction events using List.reverseRecOn with
  | nil => exact ⟨rfl, rfl, rfl, rfl⟩
  | append_singleton events event ih =>
      rw [List.flatMap_append, List.flatMap_singleton, Run.run_append, Run.run_singleton]
      cases event with
      | updateSubscriptions m =>
          rw [Event.maps, updated_concat]
          exact ih.updateSubscriptions m
      | deliver i msg =>
          obtain ⟨members, calls, heq⟩ := deliver_frame world
            (Run.run (step world) (init true stream) events) i msg
          rw [Event.maps, List.append_nil, step, heq]
          exact ⟨ih.shared, ih.stream, ih.subscriptions, ih.attempts⟩
      | onTimer =>
          rw [Event.maps, List.append_nil, step, onTimer_eq]
          exact ⟨ih.shared, ih.stream, ih.subscriptions, ih.attempts⟩

theorem SameConverters.lists_iff {node node' : Node} (h : SameConverters node node')
    (topic type : String) : node'.Lists topic type ↔ node.Lists topic type := by
  rw [Node.lists_iff, Node.lists_iff, h.subscriptions]

/-- Every type that is listed in a run is supported. -/
theorem supported_of_lists_run {events : List Event} {topic type : String}
    (h : (Run.run (step world) (init true stream) events).Lists topic type) :
    supported topic type = true :=
  supported_of_lists (((sameConverters_run world stream events).lists_iff topic type).mp h)

/-! ## Constructions that succeed -/

/-- With constructions that succeed from now on, a loop over types ends with all that are
supported, whether or not it looks for them first. -/
theorem mem_typeNames_subscribeLoop {topic : String} {skip : List Converter → String → Bool}
    (hskip : ∀ converters type, skip converters type = true → type ∈ typeNames converters)
    {types : List String} {s : Subscribing} (hreliable : world.ReliableFrom s.attempts.length)
    {type : String}
    (h : type ∈ typeNames s.converters ∨ (type ∈ types ∧ supported topic type = true)) :
    type ∈ typeNames (subscribeLoop world stream topic skip types s).converters := by
  induction types generalizing s with
  | nil =>
      rcases h with hold | ⟨hmem, _⟩
      · exact hold
      · cases hmem
  | cons type' types ih =>
      unfold subscribeLoop at ih ⊢
      rw [List.foldl_cons]
      split
      · rename_i hfound
        apply ih hreliable
        rcases h with hold | ⟨hmem, hsupported⟩
        · exact Or.inl hold
        · rcases List.mem_cons.mp hmem with rfl | hlater
          · exact Or.inl (hskip _ _ hfound)
          · exact Or.inr ⟨hlater, hsupported⟩
      · have hgrown : s.attempts.length ≤
            (tryConverter world stream topic s type').attempts.length :=
          (extends_tryConverter world stream topic s type').attempts.length_le
        apply ih fun i hi => hreliable i (hgrown.trans hi)
        rcases h with hold | ⟨hmem, hsupported⟩
        · obtain ⟨a, _, _, _, hnames⟩ := tryConverter_spec world stream topic s type'
          rw [hnames]
          exact Or.inl (List.mem_append_left _ hold)
        · rcases List.mem_cons.mp hmem with rfl | hlater
          · -- the construction for the type itself
            left
            obtain ⟨cls, hcls⟩ := Option.isSome_iff_exists.mp hsupported
            have hname : cls.rosTypeName = type := ConverterFactory.rosTypeName_of_classFor hcls
            unfold tryConverter ConverterFactory.getConverterForRosTopic
            rw [hcls, hreliable _ (Nat.le_refl _)]
            simp [typeNames, Converter.getRosTypeName, hname]
          · exact Or.inr ⟨hlater, hsupported⟩

/-- After its round, a topic lists every supported type of its list. -/
theorem lists_updateTopic {node : Node} (hreliable : world.ReliableFrom node.attempts.length)
    {topic type : String} {types : List String} (htype : type ∈ types)
    (hsupported : supported topic type = true) :
    (node.updateTopic world ⟨topic, types⟩).Lists topic type := by
  rw [lists_iff]
  unfold updateTopic
  cases hlookup : node.subscriptions.lookup topic with
  | none =>
      refine ⟨_, AList.lookup_insert _, ?_⟩
      refine mem_typeNames_subscribeLoop ?_ hreliable (Or.inr ⟨htype, hsupported⟩)
      intro _ _ hskip
      cases hskip
  | some existing =>
      refine ⟨_, AList.lookup_insert _, ?_⟩
      rw [typeNames_eraseUnneeded]
      refine List.mem_filter.mpr ⟨?_, decide_eq_true htype⟩
      exact mem_typeNames_subscribeLoop (fun _ _ hskip => hasType_iff.mp hskip) hreliable
        (Or.inr ⟨htype, hsupported⟩)

theorem lists_foldl_updateTopic {entries : List (Sigma fun _ : String => List String)}
    (hkeys : entries.NodupKeys) {node : Node}
    (hreliable : world.ReliableFrom node.attempts.length) {topic type : String}
    {types : List String} (hentry : ⟨topic, types⟩ ∈ entries) (htype : type ∈ types)
    (hsupported : supported topic type = true) :
    (entries.foldl (updateTopic world) node).Lists topic type := by
  induction entries generalizing node with
  | nil => cases hentry
  | cons entry entries ih =>
      obtain ⟨hnot, hrest⟩ := List.nodupKeys_cons.mp hkeys
      obtain ⟨made, _, hround, _, _⟩ := updateTopic_spec world node entry.1 entry.2
      have hgrown : node.attempts.length ≤ (node.updateTopic world entry).attempts.length := by
        rw [show entry = ⟨entry.1, entry.2⟩ from rfl, hround]
        exact (List.prefix_append _ _).length_le
      rw [List.foldl_cons]
      rcases List.mem_cons.mp hentry with rfl | hlater
      · obtain ⟨_, subscriptions, hloop, _, hother, _⟩ :=
          foldl_updateTopic_spec world entries hrest (node.updateTopic world ⟨topic, types⟩)
        have hlists := lists_updateTopic hreliable htype hsupported
        rw [lists_iff] at hlists ⊢
        rw [hloop]
        obtain ⟨converters, hlookup, hname⟩ := hlists
        exact ⟨converters, (hother topic hnot).trans hlookup, hname⟩
      · exact ih hrest (fun i hi => hreliable i (hgrown.trans hi)) hlater

/-- After every run, when constructions succeed from now on, one update settles the node. -/
theorem settled_updateSubscriptions {events : List Event} {m : TopicMap}
    (hreliable : world.ReliableFrom
      (Run.run (step world) (init true stream) events).attempts.length) :
    Settled ((Run.run (step world) (init true stream) events).updateSubscriptions world m) m := by
  have hshared := (fixed_run world true stream events).1
  have hevent : (Run.run (step world) (init true stream) events).updateSubscriptions world m =
      Run.run (step world) (init true stream) (events ++ [.updateSubscriptions m]) := by
    rw [Run.run_append]
    rfl
  obtain ⟨_, _, _, hlists⟩ := lists_updateSubscriptions_iff world hshared m
  refine ⟨mem_updateSubscriptions_iff hshared m, fun topic type => ?_⟩
  constructor
  · intro h
    obtain ⟨types, htypes, htype, _⟩ := (hlists topic type).mp h
    rw [hevent] at h
    exact ⟨types, htypes, htype, supported_of_lists_run h⟩
  · rintro ⟨types, htypes, htype, hsupported⟩
    have hremoved : world.ReliableFrom
        ((Run.run (step world) (init true stream) events).removeTopics m).attempts.length :=
      hreliable
    rw [updateSubscriptions, if_pos hshared]
    exact lists_foldl_updateTopic m.nodupKeys hremoved (AList.mem_lookup_iff.mp htypes) htype
      hsupported

/-! ## Updates of a settled node -/

/-- Types that are listed or not supported construct nothing. -/
theorem subscribeLoop_settled {topic : String} {types : List String} {s : Subscribing}
    (h : ∀ type ∈ types, supported topic type = true → type ∈ typeNames s.converters) :
    ∃ made : List Attempt,
      subscribeLoop world stream topic hasType types s = ⟨s.attempts ++ made, s.converters⟩ ∧
        ∀ a ∈ made, ¬ a.Succeeded := by
  induction types generalizing s with
  | nil => exact ⟨[], by rw [List.append_nil]; rfl, by simp⟩
  | cons type types ih =>
      unfold subscribeLoop at ih ⊢
      rw [List.foldl_cons]
      split
      · exact ih fun type' hmem => h type' (List.mem_cons_of_mem type hmem)
      · rename_i hnot
        have hclass : ConverterFactory.classFor topic type = none := by
          rw [hasType_iff] at hnot
          by_contra hsome
          exact hnot (h type List.mem_cons_self (Option.isSome_iff_ne_none.mpr hsome))
        have hfails : tryConverter world stream topic s type =
            ⟨s.attempts ++ [⟨topic, type, .error ⟨"Unsupported ROS message type: " ++ type⟩⟩],
              s.converters⟩ := by
          unfold tryConverter ConverterFactory.getConverterForRosTopic
          rw [hclass]
        rw [hfails]
        obtain ⟨made, heq, hmade⟩ := ih (s := ⟨s.attempts ++
          [⟨topic, type, .error ⟨"Unsupported ROS message type: " ++ type⟩⟩], s.converters⟩)
          fun type' hmem => h type' (List.mem_cons_of_mem type hmem)
        refine ⟨⟨topic, type, .error ⟨"Unsupported ROS message type: " ++ type⟩⟩ :: made, ?_, ?_⟩
        · rw [heq, List.append_assoc, List.singleton_append]
        · intro a ha
          rcases List.mem_cons.mp ha with rfl | hlater
          · exact Bool.false_ne_true
          · exact hmade a hlater

/-- The node holds the same converters, and has constructed none. -/
structure Unmoved (node node' : Node) : Prop where
  lookup : ∀ topic, node'.subscriptions.lookup topic = node.subscriptions.lookup topic
  attempts : ∃ made, node'.attempts = node.attempts ++ made ∧ ∀ a ∈ made, ¬ a.Succeeded

theorem Unmoved.refl (node : Node) : Unmoved node node where
  lookup := fun _ => rfl
  attempts := ⟨[], by rw [List.append_nil], by simp⟩

theorem Unmoved.trans {node node' node'' : Node} (h : Unmoved node node')
    (h' : Unmoved node' node'') : Unmoved node node'' where
  lookup := fun topic => (h'.lookup topic).trans (h.lookup topic)
  attempts := by
    obtain ⟨made, heq, hmade⟩ := h.attempts
    obtain ⟨made', heq', hmade'⟩ := h'.attempts
    refine ⟨made ++ made', by rw [heq', heq, List.append_assoc], fun a ha => ?_⟩
    exact (List.mem_append.mp ha).elim (hmade a) (hmade' a)

theorem Unmoved.lists_iff {node node' : Node} (h : Unmoved node node') (topic type : String) :
    node'.Lists topic type ↔ node.Lists topic type := by
  rw [Node.lists_iff, Node.lists_iff, h.lookup]

theorem Settled.of_unmoved {node node' : Node} {m : TopicMap} (h : Settled node m)
    (hunmoved : Unmoved node node') : Settled node' m where
  topics := by
    intro topic
    rw [← h.topics, mem_getSubscriptions_iff, mem_getSubscriptions_iff, ← AList.lookup_isSome,
      ← AList.lookup_isSome, hunmoved.lookup]
  listed := fun topic type => (hunmoved.lists_iff topic type).trans (h.listed topic type)

/-- The round of a topic that lists what its list asks for. -/
theorem unmoved_updateTopic {node : Node} {topic : String} {types : List String}
    (hmem : topic ∈ node.subscriptions)
    (hlisted : ∀ type, node.Lists topic type ↔ type ∈ types ∧ supported topic type = true) :
    Unmoved node (node.updateTopic world ⟨topic, types⟩) := by
  obtain ⟨existing, hlookup⟩ := Option.isSome_iff_exists.mp (AList.lookup_isSome.mpr hmem)
  have hnames : ∀ type, type ∈ typeNames existing ↔ type ∈ types ∧ supported topic type = true := by
    intro type
    rw [← hlisted, lists_iff, hlookup]
    simp
  obtain ⟨made, hloop, hmade⟩ := @subscribeLoop_settled world node.stream topic types
    ⟨node.attempts, existing⟩ fun type htype hsupported => (hnames type).mpr ⟨htype, hsupported⟩
  have hkept : eraseUnneeded types existing = existing := by
    rw [eraseUnneeded_eq_filter, List.filter_eq_self]
    intro c hc
    have hname : c.getRosTypeName ∈ typeNames existing := List.mem_map_of_mem hc
    exact List.any_eq_true.mpr ⟨_, ((hnames _).mp hname).1, decide_eq_true rfl⟩
  have hround : node.updateTopic world ⟨topic, types⟩ =
      { node with
        attempts := node.attempts ++ made
        subscriptions := node.subscriptions.insert topic existing } := by
    simp only [updateTopic, hlookup, addMissing, hloop, hkept]
  rw [hround]
  refine ⟨fun topic' => ?_, made, rfl, hmade⟩
  rw [Assoc.lookup_insert]
  split
  · rename_i heq
    rw [heq, hlookup]
  · rfl

theorem unmoved_foldl_updateTopic {entries : List (Sigma fun _ : String => List String)}
    {node : Node} (h : ∀ entry ∈ entries, entry.1 ∈ node.subscriptions ∧
      ∀ type, node.Lists entry.1 type ↔ type ∈ entry.2 ∧ supported entry.1 type = true) :
    Unmoved node (entries.foldl (updateTopic world) node) := by
  induction entries generalizing node with
  | nil => exact .refl node
  | cons entry entries ih =>
      obtain ⟨hmem, hlisted⟩ := h entry List.mem_cons_self
      have hround := @unmoved_updateTopic world node entry.1 entry.2 hmem hlisted
      rw [List.foldl_cons]
      refine hround.trans (ih fun entry' hentry' => ?_)
      obtain ⟨hmem', hlisted'⟩ := h entry' (List.mem_cons_of_mem entry hentry')
      refine ⟨?_, fun type => (hround.lists_iff entry'.1 type).trans (hlisted' type)⟩
      rw [← AList.lookup_isSome, hround.lookup, AList.lookup_isSome]
      exact hmem'

/-- An update with the map that the node has settled on. -/
theorem Settled.updateSubscriptions {node : Node} {m : TopicMap} (h : Settled node m) :
    Unmoved node (node.updateSubscriptions world m) := by
  unfold Node.updateSubscriptions
  split
  · have hremoved : Unmoved node (node.removeTopics m) := by
      refine ⟨fun topic => ?_, [], by rw [List.append_nil]; rfl, by simp⟩
      rw [lookup_removeTopics]
      split
      · rfl
      · rename_i hnot
        rw [← h.topics, mem_getSubscriptions_iff] at hnot
        exact (AList.lookup_eq_none.mpr hnot).symm
    refine hremoved.trans (unmoved_foldl_updateTopic fun entry hentry => ?_)
    have hlookup : m.lookup entry.1 = some entry.2 := AList.mem_lookup_iff.mpr hentry
    have hsettled := h.of_unmoved hremoved
    refine ⟨?_, fun type => ?_⟩
    · rw [← mem_getSubscriptions_iff, hsettled.topics]
      exact Assoc.mem_of_lookup hlookup
    · rw [hsettled.listed, hlookup]
      simp
  · exact .refl node

/-- An event that, when it is an update, is one with the given map. -/
def Event.Polls (m : TopicMap) : Event → Prop
  | .updateSubscriptions m' => m' = m
  | _ => True

theorem Settled.step {node : Node} {m : TopicMap} (h : Settled node m) {event : Event}
    (hevent : event.Polls m) : Unmoved node (node.step world event) := by
  cases event with
  | updateSubscriptions m' =>
      obtain rfl : m' = m := hevent
      exact h.updateSubscriptions
  | deliver i msg =>
      obtain ⟨members, calls, heq⟩ := deliver_frame world node i msg
      rw [Node.step, heq]
      exact ⟨fun _ => rfl, [], by rw [List.append_nil], by simp⟩
  | onTimer =>
      rw [Node.step, onTimer_eq]
      exact ⟨fun _ => rfl, [], by rw [List.append_nil], by simp⟩

theorem Settled.run {node : Node} {m : TopicMap} (h : Settled node m) {events : List Event}
    (hevents : ∀ event ∈ events, event.Polls m) :
    Unmoved node (Run.run (Node.step world) node events) := by
  induction events generalizing node with
  | nil => exact .refl node
  | cons event events ih =>
      have hstep := @Settled.step world node m h event (hevents event List.mem_cons_self)
      rw [Run.run_cons]
      exact hstep.trans (ih (h.of_unmoved hstep) fun event' hmem =>
        hevents event' (List.mem_cons_of_mem event hmem))

/-- After every run, when constructions succeed from now on: an update with a map subscribes
the supported types of the map and nothing else, and every run after it whose updates are
made with the same map keeps every list of converters and constructs nothing. -/
theorem polling_stable (world : World) (stream : Option RecordingStream)
    (events : List Event) (m : TopicMap)
    (hreliable : world.ReliableFrom
      (Run.run (step world) (init true stream) events).attempts.length) :
    Settled (Run.run (step world) (init true stream) (events ++ [.updateSubscriptions m])) m ∧
      ∀ later : List Event, (∀ event ∈ later, event.Polls m) →
        Unmoved (Run.run (step world) (init true stream) (events ++ [.updateSubscriptions m]))
          (Run.run (step world) (init true stream)
            (events ++ [.updateSubscriptions m] ++ later)) := by
  have hsettled : Settled
      (Run.run (step world) (init true stream) (events ++ [.updateSubscriptions m])) m := by
    rw [Run.run_append]
    exact settled_updateSubscriptions hreliable
  refine ⟨hsettled, fun later hlater => ?_⟩
  rw [Run.run_append _ _ later]
  exact hsettled.run hlater

/-- The second construction of the run is the first to succeed. -/
def worldAfterOutage : World :=
  { World.reliable with
    constructionError := fun n =>
      if n = 0 then some ⟨"failed to create subscription"⟩ else none }

/-- A point cloud topic whose first construction has failed is subscribed at the next poll. -/
theorem polling_stable_outage :
    Settled (Run.run (step worldAfterOutage) (init true none)
      [.updateSubscriptions (AList.singleton "/points" ["sensor_msgs/msg/PointCloud2"]),
        .updateSubscriptions (AList.singleton "/points" ["sensor_msgs/msg/PointCloud2"])])
      (AList.singleton "/points" ["sensor_msgs/msg/PointCloud2"]) :=
  (polling_stable worldAfterOutage none
    [.updateSubscriptions (AList.singleton "/points" ["sensor_msgs/msg/PointCloud2"])]
    (AList.singleton "/points" ["sensor_msgs/msg/PointCloud2"]) (by
      intro i hi
      have hone : 1 ≤ i := hi
      exact if_neg (by omega))).1

/-! ## Camera topics -/

/-- The classes for what a camera publishes. -/
def ofCamera (cls : ConverterClass) : Prop := cls = .image ∨ cls = .cameraInfo

/-- The types that `isCameraTopic` looks for are those of the two classes. -/
theorem isCameraTopic_iff {topic : String} {types : List String} :
    isCameraTopic topic types = true ↔
      ∃ type ∈ types, supported topic type = true ∧
        ∃ cls, ofCamera cls ∧ cls.rosTypeName = type := by
  rw [isCameraTopic, List.any_eq_true]
  refine exists_congr fun type => and_congr_right fun _ => ?_
  rw [List.contains_iff_mem, List.mem_cons, List.mem_singleton]
  constructor
  · rintro (rfl | rfl)
    · exact ⟨rfl, .image, Or.inl rfl, rfl⟩
    · exact ⟨rfl, .cameraInfo, Or.inr rfl, rfl⟩
  · rintro ⟨_, cls, rfl | rfl, rfl⟩
    · exact Or.inl rfl
    · exact Or.inr rfl

theorem rosTypeName_injective {cls cls' : ConverterClass}
    (h : cls.rosTypeName = cls'.rosTypeName) : cls = cls' := by
  revert h
  cases cls <;> cases cls' <;> decide

/-- On a settled node `isCameraTopic` tells which topics have a converter of a camera. -/
theorem Settled.isCameraTopic_iff {node : Node} {m : TopicMap} (h : Settled node m)
    {topic : String} {types : List String} (hlookup : m.lookup topic = some types) :
    isCameraTopic topic types = true ↔
      ∃ converters c, node.subscriptions.lookup topic = some converters ∧ c ∈ converters ∧
        ofCamera c.cls := by
  rw [Node.isCameraTopic_iff]
  constructor
  · rintro ⟨type, hmem, hsupported, cls, hcamera, rfl⟩
    have hlists := (h.listed topic _).mpr ⟨types, hlookup, hmem, hsupported⟩
    obtain ⟨converters, hconverters, hname⟩ := lists_iff.mp hlists
    obtain ⟨c, hc, heq⟩ := List.mem_map.mp hname
    exact ⟨converters, c, hconverters, hc, (rosTypeName_injective heq).symm ▸ hcamera⟩
  · rintro ⟨converters, c, hconverters, hc, hcamera⟩
    have hlists : node.Lists topic c.getRosTypeName :=
      lists_iff.mpr ⟨converters, hconverters, List.mem_map_of_mem hc⟩
    obtain ⟨types', hlookup', hmem, hsupported⟩ := (h.listed topic _).mp hlists
    obtain rfl : types' = types := Option.some.inj (hlookup'.symm.trans hlookup)
    exact ⟨_, hmem, hsupported, c.cls, hcamera, rfl⟩

/-- After every run, when constructions succeed from now on: from one update with a map on, and
through every run whose updates are made with it, the topics of the map that
`isCameraTopic` accepts are those with a converter for images or camera parameters. -/
theorem camera_topics (world : World) (stream : Option RecordingStream) (events : List Event)
    (m : TopicMap)
    (hreliable : world.ReliableFrom
      (Run.run (step world) (init true stream) events).attempts.length)
    (later : List Event) (hlater : ∀ event ∈ later, event.Polls m)
    (topic : String) (types : List String) (hlookup : m.lookup topic = some types) :
    isCameraTopic topic types = true ↔
      ∃ converters c, (Run.run (step world) (init true stream)
        (events ++ .updateSubscriptions m :: later)).subscriptions.lookup topic =
          some converters ∧ c ∈ converters ∧ ofCamera c.cls := by
  have hsettled := @settled_updateSubscriptions world stream events m hreliable
  rw [Run.run_append, Run.run_cons]
  exact (hsettled.of_unmoved (hsettled.run hlater)).isCameraTopic_iff hlookup

/-- The camera whose first construction has failed is there after the next poll. -/
theorem camera_topics_outage :
    isCameraTopic "/camera/image_raw" ["sensor_msgs/msg/Image"] = true ↔
      ∃ converters c, (Run.run (step worldAfterOutage) (init true none)
        ([.updateSubscriptions (AList.singleton "/camera/image_raw" ["sensor_msgs/msg/Image"])] ++
          .updateSubscriptions (AList.singleton "/camera/image_raw" ["sensor_msgs/msg/Image"]) ::
            [.onTimer])).subscriptions.lookup "/camera/image_raw" = some converters ∧
        c ∈ converters ∧ ofCamera c.cls :=
  camera_topics worldAfterOutage none
    [.updateSubscriptions (AList.singleton "/camera/image_raw" ["sensor_msgs/msg/Image"])]
    (AList.singleton "/camera/image_raw" ["sensor_msgs/msg/Image"])
    (by
      intro i hi
      have hone : 1 ≤ i := hi
      exact if_neg (by omega))
    [.onTimer] (by simp [Event.Polls]) "/camera/image_raw" ["sensor_msgs/msg/Image"] rfl

end Node

end RerunViz
