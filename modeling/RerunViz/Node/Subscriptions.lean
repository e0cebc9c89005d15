import RerunViz.Lib.Assoc
import RerunViz.Node.Basic

set_option autoImplicit false

/-!
# What is subscribed after an update

`updateSubscriptions` drops topics, fills new ones, and reconciles the ones it knows.
Whatever the history and whichever constructions fail, the outcome of a call is the same
for new and known topics: a type is listed when it is asked for, and either was listed
before or was constructed in this call (`updateSubscriptions_spec`).
-/

namespace RerunViz

/-- Topics with their types, as the graph reports them. -/
abbrev TopicMap := AList (fun _ : String => List String)

namespace Node

variable {world : World} {stream : Option RecordingStream}

/-- The node after updates with a list of maps. -/
def updated (world : World) (stream : Option RecordingStream) (maps : List TopicMap) : Node :=
  Run.run (updateSubscriptions world) (init true stream) maps

/-- The attempt was made for a topic, with a stream. -/
structure MadeFor (a : Attempt) (topic : String) (stream : Option RecordingStream) : Prop where
  topic_eq : a.topic = topic
  class_eq : ∀ c, a.result = .ok c → ConverterFactory.classFor topic a.type = some c.cls
  topicName_eq : ∀ c, a.result = .ok c → c.topicName = topic
  stream_eq : ∀ c, a.result = .ok c → c.stream = stream

/-- `getSubscriptions` lists the type under the topic. -/
def Lists (node : Node) (topic type : String) : Prop :=
  ∃ types, node.getSubscriptions.lookup topic = some types ∧ type ∈ types

/-! ## Observers -/

/-- The names that a list of converters reports. -/
def typeNames (converters : List Converter) : List String :=
  converters.map Converter.getRosTypeName

theorem lookup_getSubscriptions (node : Node) (topic : String) :
    node.getSubscriptions.lookup topic = (node.subscriptions.lookup topic).map typeNames := by
  unfold getSubscriptions
  rw [Assoc.lookup_foldl_insert _ _ node.subscriptions.nodupKeys, AList.lookup_empty,
    Option.or_none]
  rfl

theorem mem_getSubscriptions_iff (node : Node) (topic : String) :
    topic ∈ node.getSubscriptions ↔ topic ∈ node.subscriptions := by
  rw [← AList.lookup_isSome, ← AList.lookup_isSome, lookup_getSubscriptions,
    Option.isSome_map]

theorem lists_iff {node : Node} {topic type : String} :
    node.Lists topic type ↔
      ∃ converters, node.subscriptions.lookup topic = some converters ∧
        type ∈ typeNames converters := by
  unfold Lists
  rw [lookup_getSubscriptions]
  simp

theorem hasType_iff {converters : List Converter} {type : String} :
    hasType converters type = true ↔ type ∈ typeNames converters := by
  simp [hasType, typeNames]

/-- `getConverter` finds a converter exactly for what is listed. -/
theorem getConverter_isSome_iff (node : Node) (topic type : String) :
    (node.getConverter topic type).isSome ↔ node.Lists topic type := by
  rw [lists_iff, getConverter]
  cases node.subscriptions.lookup topic with
  | none => simp
  | some converters => simp [typeNames]

/-- What `getConverter` finds reports the type asked for. -/
theorem getRosTypeName_of_getConverter {node : Node} {topic type : String} {c : Converter}
    (h : node.getConverter topic type = some c) : c.getRosTypeName = type := by
  unfold getConverter at h
  split at h
  · cases h
  · simpa using List.find?_some h

/-! ## The loops over the types of a topic -/

/-- A construction that succeeds gives the object of its number, of the class for the topic
and the type, with the stream of the node. -/
theorem of_constructed {n : Nat} {topic type : String} {c : Converter}
    (h : ConverterFactory.getConverterForRosTopic world n topic type stream = .ok c) :
    ConverterFactory.classFor topic type = some c.cls ∧ c.topicName = topic ∧
      c.stream = stream ∧ c.id = n := by
  unfold ConverterFactory.getConverterForRosTopic at h
  split at h
  · cases h
  · rename_i cls hcls
    split at h
    · cases h
    · obtain rfl := Except.ok.inj h
      exact ⟨hcls, rfl, rfl, rfl⟩

/-- The types of the attempts that constructed a converter. -/
def constructedTypes (attempts : List Attempt) : List String :=
  (attempts.filter fun a => a.result.isOk).map Attempt.type

/-- One of the attempts constructed a converter of the type for the topic. -/
def Constructed (attempts : List Attempt) (topic type : String) : Prop :=
  ∃ a ∈ attempts, a.topic = topic ∧ a.type = type ∧ a.Succeeded

theorem constructed_append {made made' : List Attempt} {topic type : String} :
    Constructed (made ++ made') topic type ↔
      Constructed made topic type ∨ Constructed made' topic type := by
  unfold Constructed
  simp only [List.mem_append, or_and_right, exists_or]

/-- One of the attempts was made with the type for the topic. -/
def Attempted (attempts : List Attempt) (topic type : String) : Prop :=
  ∃ a ∈ attempts, a.topic = topic ∧ a.type = type

theorem Attempted.mono {made made' : List Attempt} {topic type : String}
    (h : Attempted made topic type) (hsub : made ⊆ made') : Attempted made' topic type := by
  obtain ⟨a, hmem, ha⟩ := h
  exact ⟨a, hsub hmem, ha⟩

theorem not_constructed_of_topic {made : List Attempt} {topic : String}
    (h : ∀ a ∈ made, a.topic ≠ topic) (type : String) : ¬ Constructed made topic type := by
  rintro ⟨a, hmem, htopic, _⟩
  exact h a hmem htopic

/-- When all attempts were made for one topic. -/
theorem mem_constructedTypes_iff {made : List Attempt} {topic : String}
    (h : ∀ a ∈ made, MadeFor a topic stream) (type : String) :
    type ∈ constructedTypes made ↔ Constructed made topic type := by
  simp only [constructedTypes, Constructed, List.mem_map, List.mem_filter, Attempt.Succeeded]
  constructor
  · rintro ⟨a, ⟨hmem, hok⟩, htype⟩
    exact ⟨a, hmem, (h a hmem).topic_eq, htype, hok⟩
  · rintro ⟨a, hmem, _, htype, hok⟩
    exact ⟨a, ⟨hmem, hok⟩, htype⟩

/-- One attempt is recorded, and adds its type to the names when it succeeds. -/
theorem tryConverter_spec (world : World) (stream : Option RecordingStream) (topic : String)
    (s : Subscribing) (type : String) :
    ∃ a, MadeFor a topic stream ∧ a.type = type ∧
      (tryConverter world stream topic s type).attempts = s.attempts ++ [a] ∧
      typeNames (tryConverter world stream topic s type).converters =
        typeNames s.converters ++ constructedTypes [a] := by
  refine ⟨⟨topic, type, ConverterFactory.getConverterForRosTopic world s.attempts.length topic
    type stream⟩, ⟨rfl, fun c hc => (of_constructed hc).1, fun c hc => (of_constructed hc).2.1,
    fun c hc => (of_constructed hc).2.2.1⟩, rfl, rfl, ?_⟩
  unfold tryConverter constructedTypes
  cases hresult : ConverterFactory.getConverterForRosTopic world s.attempts.length topic type
    stream with
  | error what => simp [Except.isOk, Except.toBool]
  | ok converter =>
      have hname : converter.getRosTypeName = type :=
        ConverterFactory.rosTypeName_of_classFor (of_constructed hresult).1
      simp [typeNames, Except.isOk, Except.toBool, hname]

/-- A loop over types attempts some of them, in order, and adds the names of those that
were constructed. -/
theorem subscribeLoop_spec (world : World) (stream : Option RecordingStream) (topic : String)
    (skip : List Converter → String → Bool) (types : List String) (s : Subscribing) :
    ∃ made : List Attempt,
      (subscribeLoop world stream topic skip types s).attempts = s.attempts ++ made ∧
      (∀ a ∈ made, MadeFor a topic stream) ∧ (made.map Attempt.type).Sublist types ∧
      typeNames (subscribeLoop world stream topic skip types s).converters =
        typeNames s.converters ++ constructedTypes made := by
  induction types generalizing s with
  | nil =>
      refine ⟨[], ?_, by simp, by simp, ?_⟩
      · simp [subscribeLoop]
      · simp [subscribeLoop, constructedTypes]
  | cons type types ih =>
      unfold subscribeLoop at ih ⊢
      rw [List.foldl_cons]
      cases hskip : skip s.converters type with
      | true =>
          obtain ⟨made, hattempts, hfor, hsub, hnames⟩ := ih s
          exact ⟨made, hattempts, hfor, hsub.cons type, hnames⟩
      | false =>
          obtain ⟨a, hafor, hatype, hone, honeNames⟩ :=
            tryConverter_spec world stream topic s type
          obtain ⟨made, hattempts, hfor, hsub, hnames⟩ :=
            ih (tryConverter world stream topic s type)
          refine ⟨a :: made, ?_, ?_, ?_, ?_⟩
          · simpa [hone] using hattempts
          · exact List.forall_mem_cons.mpr ⟨hafor, hfor⟩
          · rw [List.map_cons, hatype]
            exact hsub.cons_cons type
          · have hcons : constructedTypes (a :: made) =
                constructedTypes [a] ++ constructedTypes made := by
              unfold constructedTypes
              rw [← List.map_append, ← List.filter_append, List.singleton_append]
            rw [hcons, ← List.append_assoc, ← honeNames]
            exact hnames

/-- A loop that leaves out no more than what is found attempts every other type. -/
theorem attempted_subscribeLoop {topic : String} {skip : List Converter → String → Bool}
    (hskip : ∀ converters type, skip converters type = true → type ∈ typeNames converters)
    (types : List String) {s : Subscribing} {made : List Attempt}
    (hmade : (subscribeLoop world stream topic skip types s).attempts = s.attempts ++ made) :
    ∀ type ∈ types, type ∈ typeNames s.converters ∨ Attempted made topic type := by
  induction types generalizing s made with
  | nil => simp
  | cons type types ih =>
      unfold subscribeLoop at ih hmade
      rw [List.foldl_cons] at hmade
      split at hmade
      · rename_i hfound
        exact List.forall_mem_cons.mpr ⟨Or.inl (hskip s.converters type hfound), ih hmade⟩
      · obtain ⟨a, hafor, hatype, hone, honeNames⟩ := tryConverter_spec world stream topic s type
        obtain ⟨later, hlater, _⟩ :=
          subscribeLoop_spec world stream topic skip types (tryConverter world stream topic s type)
        unfold subscribeLoop at hlater
        -- the attempts of the loop are this one and the later ones
        obtain rfl : a :: later = made := by
          rw [hlater, hone, List.append_assoc] at hmade
          exact List.append_cancel_left hmade
        refine List.forall_mem_cons.mpr
          ⟨Or.inr ⟨a, List.mem_cons_self, hafor.topic_eq, hatype⟩, fun type' htype' => ?_⟩
        rcases ih hlater type' htype' with hname | hattempted
        · rw [honeNames, List.mem_append] at hname
          refine hname.imp_right fun hconstructed => ?_
          obtain ⟨a', ha', hname'⟩ := List.mem_map.mp hconstructed
          obtain rfl := List.mem_singleton.mp (List.mem_filter.mp ha').1
          exact ⟨a', List.mem_cons_self, hafor.topic_eq, hname'⟩
        · exact Or.inr (hattempted.mono (List.subset_cons_self _ _))

theorem eraseUnneeded_eq_filter (types : List String) (converters : List Converter) :
    eraseUnneeded types converters =
      converters.filter fun c => types.any fun type => c.getRosTypeName = type := by
  induction converters with
  | nil => rfl
  | cons c converters ih => rw [eraseUnneeded, List.filter_cons, ih]

/-- What the erase loop keeps are the converters whose type is asked for. -/
theorem typeNames_eraseUnneeded (types : List String) (converters : List Converter) :
    typeNames (eraseUnneeded types converters) =
      (typeNames converters).filter fun name => name ∈ types := by
  rw [eraseUnneeded_eq_filter, typeNames, typeNames, List.filter_map]
  congr 1
  apply List.filter_congr
  intro c _
  simp [List.any_eq, eq_comm]

/-! ## One topic -/

/-- A topic that is in the map ends up with the types that are asked for and were listed
before or are constructed now.  Nothing else changes. -/
theorem updateTopic_spec (world : World) (node : Node) (topic : String) (types : List String) :
    ∃ made converters,
      updateTopic world node ⟨topic, types⟩ =
        { node with
          attempts := node.attempts ++ made
          subscriptions := node.subscriptions.insert topic converters } ∧
      (∀ a ∈ made, MadeFor a topic node.stream) ∧
      (∀ type, type ∈ typeNames converters ↔
        type ∈ types ∧ (node.Lists topic type ∨ Constructed made topic type)) ∧
      ∀ type ∈ types, node.Lists topic type ∨ Attempted made topic type := by
  unfold updateTopic
  cases hlookup : node.subscriptions.lookup topic with
  | none =>
      obtain ⟨made, hattempts, hfor, hsub, hnames⟩ :=
        subscribeLoop_spec world node.stream topic (fun _ _ => false) types ⟨node.attempts, []⟩
      refine ⟨made, (addForNewTopic world node.stream topic types node.attempts).converters,
        ?_, hfor, ?_, fun type htype => ?_⟩
      · rw [← hattempts]
        rfl
      · intro type
        have hlists : ¬ node.Lists topic type := by
          rw [lists_iff, hlookup]
          simp
        have hmade : Constructed made topic type → type ∈ types := by
          rintro ⟨a, hmem, _, rfl, _⟩
          exact hsub.subset (List.mem_map_of_mem hmem)
        unfold addForNewTopic
        rw [hnames, typeNames, List.map_nil, List.nil_append, mem_constructedTypes_iff hfor]
        simp only [hlists, false_or]
        exact ⟨fun h => ⟨hmade h, h⟩, And.right⟩
      · right
        have hattempted := attempted_subscribeLoop (fun _ _ hfalse => by cases hfalse) types
          hattempts type htype
        exact hattempted.resolve_left List.not_mem_nil
  | some existing =>
      obtain ⟨made, hattempts, hfor, _, hnames⟩ :=
        subscribeLoop_spec world node.stream topic hasType types ⟨node.attempts, existing⟩
      refine ⟨made, eraseUnneeded types
        (addMissing world node.stream topic types node.attempts existing).converters,
        ?_, hfor, ?_, fun type htype => ?_⟩
      · rw [← hattempts]
        rfl
      · intro type
        have hlists : node.Lists topic type ↔ type ∈ typeNames existing := by
          rw [lists_iff, hlookup]
          simp
        unfold addMissing
        rw [typeNames_eraseUnneeded, List.mem_filter, hnames, List.mem_append,
          mem_constructedTypes_iff hfor, hlists, decide_eq_true_eq, and_comm]
      · have hattempted := attempted_subscribeLoop (fun _ _ hfound => hasType_iff.mp hfound) types
          hattempts type htype
        exact hattempted.imp_left fun hname => lists_iff.mpr ⟨existing, hlookup, hname⟩

/-! ## All topics -/

/-- The loop over a map: what it attempts belongs to topics of the map, other topics are
left alone, and each topic of the map ends up as after its own round. -/
theorem foldl_updateTopic_spec (world : World)
    (entries : List (Sigma fun _ : String => List String)) (hkeys : entries.NodupKeys)
    (node : Node) :
    ∃ made subscriptions,
      entries.foldl (updateTopic world) node =
        { node with attempts := node.attempts ++ made, subscriptions := subscriptions } ∧
      (∀ a ∈ made, a.topic ∈ entries.keys ∧ MadeFor a a.topic node.stream) ∧
      (∀ topic, topic ∉ entries.keys →
        subscriptions.lookup topic = node.subscriptions.lookup topic) ∧
      (∀ topic types, ⟨topic, types⟩ ∈ entries →
        ∃ converters, subscriptions.lookup topic = some converters ∧
          ∀ type, type ∈ typeNames converters ↔
            type ∈ types ∧ (node.Lists topic type ∨ Constructed made topic type)) ∧
      ∀ topic types, ⟨topic, types⟩ ∈ entries →
        ∀ type ∈ types, node.Lists topic type ∨ Attempted made topic type := by
  induction entries generalizing node with
  | nil => exact ⟨[], node.subscriptions, by simp, by simp, by simp, by simp, by simp⟩
  | cons entry entries ih =>
      obtain ⟨topic₀, types₀⟩ := entry
      obtain ⟨hnot, hrest⟩ := List.nodupKeys_cons.mp hkeys
      obtain ⟨made₀, converters₀, hround, hfor₀, hnames₀, hattempted₀⟩ :=
        updateTopic_spec world node topic₀ types₀
      obtain ⟨made, subscriptions, hloop, hfor, hother, heach, hattempted⟩ :=
        ih hrest (updateTopic world node ⟨topic₀, types₀⟩)
      rw [List.foldl_cons, hloop]
      rw [hround] at hfor hother heach hattempted ⊢
      refine ⟨made₀ ++ made, subscriptions, by rw [List.append_assoc], ?_, ?_, ?_, ?_⟩
      · intro a ha
        rw [List.keys_cons, List.mem_cons]
        rcases List.mem_append.mp ha with hfirst | hlater
        · have htopic := (hfor₀ a hfirst).topic_eq
          exact ⟨Or.inl htopic, htopic ▸ hfor₀ a hfirst⟩
        · exact ⟨Or.inr (hfor a hlater).1, (hfor a hlater).2⟩
      · intro topic htopic
        rw [List.keys_cons, List.mem_cons, not_or] at htopic
        rw [hother topic htopic.2, AList.lookup_insert_ne htopic.1]
      · intro topic types hmem
        rcases List.mem_cons.mp hmem with heq | hlater
        · -- the rounds that follow neither touch the topic nor attempt anything for it
          cases heq
          have hmade : ∀ type, ¬ Constructed made topic₀ type :=
            not_constructed_of_topic fun a ha heq => hnot (heq ▸ (hfor a ha).1)
          refine ⟨converters₀, by rw [hother topic₀ hnot, AList.lookup_insert], ?_⟩
          intro type
          rw [hnames₀, constructed_append]
          simp only [hmade, or_false]
        · have hkey : topic ∈ entries.keys := List.mem_keys_of_mem hlater
          have hne : topic ≠ topic₀ := fun heq => hnot (heq ▸ hkey)
          have hmade : ∀ type, ¬ Constructed made₀ topic type :=
            not_constructed_of_topic fun a ha heq =>
              hne (heq.symm.trans (hfor₀ a ha).topic_eq)
          obtain ⟨converters, hlookup, hnames⟩ := heach topic types hlater
          refine ⟨converters, hlookup, ?_⟩
          intro type
          rw [hnames, constructed_append, lists_iff, lists_iff, AList.lookup_insert_ne hne]
          simp only [hmade, false_or]
      · intro topic types hmem type htype
        rcases List.mem_cons.mp hmem with heq | hlater
        · cases heq
          exact (hattempted₀ type htype).imp_right fun h => h.mono (List.subset_append_left _ _)
        · have hkey : topic ∈ entries.keys := List.mem_keys_of_mem hlater
          have hne : topic ≠ topic₀ := fun heq => hnot (heq ▸ hkey)
          have hrounds := hattempted topic types hlater type htype
          rw [lists_iff, AList.lookup_insert_ne hne, ← lists_iff] at hrounds
          exact hrounds.imp_right fun h => h.mono (List.subset_append_right _ _)

/-- Dropping topics keeps exactly those that the map has. -/
theorem lookup_removeTopics (node : Node) (m : TopicMap) (topic : String) :
    (node.removeTopics m).subscriptions.lookup topic =
      if topic ∈ m then node.subscriptions.lookup topic else none := by
  unfold removeTopics
  rw [Assoc.lookup_foldl_erase]
  by_cases hm : topic ∈ m
  · simp [hm]
  · rw [if_neg hm]
    cases hlookup : node.subscriptions.lookup topic with
    | none => simp
    | some converters =>
        have hkey : topic ∈ node.subscriptions.keys :=
          AList.mem_keys.mp (Assoc.mem_of_lookup hlookup)
        simp [hkey, hm]

/-- One call: the constructions it attempts and the subscriptions it leaves are all that
changes. -/
theorem updateSubscriptions_frame (world : World) (node : Node) (m : TopicMap) :
    ∃ made subscriptions,
      node.updateSubscriptions world m =
        { node with attempts := node.attempts ++ made, subscriptions := subscriptions } ∧
      (∀ a ∈ made, MadeFor a a.topic node.stream) ∧
      (node.shared = true → ∀ topic types, m.lookup topic = some types →
        ∃ converters, subscriptions.lookup topic = some converters ∧
          ∀ type, type ∈ typeNames converters ↔
            type ∈ types ∧ (node.Lists topic type ∨ Constructed made topic type)) ∧
      (node.shared = true → ∀ topic, m.lookup topic = none →
        subscriptions.lookup topic = none) ∧
      (node.shared = true → ∀ topic types, m.lookup topic = some types →
        ∀ type ∈ types, node.Lists topic type ∨ Attempted made topic type) := by
  unfold updateSubscriptions
  split
  · obtain ⟨made, subscriptions, hloop, hfor, hother, heach, hattempted⟩ :=
      foldl_updateTopic_spec world m.entries m.nodupKeys (node.removeTopics m)
    refine ⟨made, subscriptions, hloop, fun a ha => (hfor a ha).2, ?_, ?_, ?_⟩
    · intro _ topic types htypes
      have hm : topic ∈ m := Assoc.mem_of_lookup htypes
      obtain ⟨converters, hlookup, hnames⟩ :=
        heach topic types (AList.mem_lookup_iff.mp htypes)
      refine ⟨converters, hlookup, ?_⟩
      intro type
      rw [hnames, lists_iff, lists_iff, lookup_removeTopics, if_pos hm]
    · intro _ topic hnone
      have hm : topic ∉ m := AList.lookup_eq_none.mp hnone
      rw [hother topic hm, lookup_removeTopics, if_neg hm]
    · intro _ topic types htypes type htype
      have hm : topic ∈ m := Assoc.mem_of_lookup htypes
      have hrounds := hattempted topic types (AList.mem_lookup_iff.mp htypes) type htype
      rw [lists_iff, lookup_removeTopics, if_pos hm, ← lists_iff] at hrounds
      exact hrounds
  · rename_i hshared
    exact ⟨[], node.subscriptions, by simp, by simp, fun h => absurd h hshared,
      fun h => absurd h hshared, fun h => absurd h hshared⟩

theorem updated_concat (world : World) (stream : Option RecordingStream)
    (maps : List TopicMap) (m : TopicMap) :
    updated world stream (maps ++ [m]) =
      (updated world stream maps).updateSubscriptions world m := by
  rw [updated, Run.run_append, Run.run_singleton]
  rfl

theorem updated_shared (world : World) (stream : Option RecordingStream)
    (maps : List TopicMap) : (updated world stream maps).shared = true := by
  induction maps using List.reverseRecOn with
  | nil => rfl
  | append_singleton maps m ih =>
      obtain ⟨made, subscriptions, heq, _⟩ :=
        updateSubscriptions_frame world (updated world stream maps) m
      rw [updated_concat, heq]
      exact ih

/-- After a call the topics are those of the map. -/
theorem mem_updateSubscriptions_iff {node : Node} (hshared : node.shared = true)
    (m : TopicMap) (topic : String) :
    topic ∈ (node.updateSubscriptions world m).getSubscriptions ↔ topic ∈ m := by
  obtain ⟨made, subscriptions, heq, _, hpresent, habsent, _⟩ :=
    updateSubscriptions_frame world node m
  rw [heq, mem_getSubscriptions_iff, ← AList.lookup_isSome, ← AList.lookup_isSome]
  cases hm : m.lookup topic with
  | none =>
      rw [habsent hshared topic hm]
      rfl
  | some types =>
      obtain ⟨converters, hlookup, _⟩ := hpresent hshared topic types hm
      rw [hlookup]
      rfl

/-- A type is listed after a call exactly when it is in the map, and was listed before or
is constructed in the call. -/
theorem lists_updateSubscriptions_iff (world : World) {node : Node} (hshared : node.shared = true)
    (m : TopicMap) :
    ∃ made,
      (node.updateSubscriptions world m).attempts = node.attempts ++ made ∧
      (∀ a ∈ made, MadeFor a a.topic node.stream) ∧
      ∀ topic type, (node.updateSubscriptions world m).Lists topic type ↔
        ∃ types, m.lookup topic = some types ∧ type ∈ types ∧
          (node.Lists topic type ∨ Constructed made topic type) := by
  obtain ⟨made, subscriptions, heq, hfor, hpresent, habsent, _⟩ :=
    updateSubscriptions_frame world node m
  rw [heq]
  refine ⟨made, rfl, hfor, ?_⟩
  intro topic type
  rw [lists_iff]
  cases hm : m.lookup topic with
  | none =>
      rw [habsent hshared topic hm]
      simp
  | some types =>
      obtain ⟨converters, hlookup, hnames⟩ := hpresent hshared topic types hm
      rw [hlookup]
      simp [hnames]

/-! ## What the attempts come to -/

/-- What is found among the attempts and one more. -/
theorem getElem?_concat_cases {attempts : List Attempt} {a b : Attempt} {i : Nat}
    (h : (attempts ++ [b])[i]? = some a) :
    attempts[i]? = some a ∨ (i = attempts.length ∧ a = b) := by
  by_cases hi : i < attempts.length
  · rw [List.getElem?_append_left hi] at h
    exact Or.inl h
  · have hlast : i = attempts.length := by
      have hle := (List.getElem?_eq_some_iff.mp h).1
      rw [List.length_append, List.length_singleton] at hle
      omega
    rw [hlast, List.getElem?_concat_length, Option.some.injEq] at h
    exact Or.inr ⟨hlast, h.symm⟩

/-- Every attempt has come to what the factory makes of it at its number. -/
def Genuine (world : World) (stream : Option RecordingStream) (attempts : List Attempt) : Prop :=
  ∀ i a, attempts[i]? = some a →
    a.result = ConverterFactory.getConverterForRosTopic world i a.topic a.type stream

theorem Genuine.tryConverter {s : Subscribing} (h : Genuine world stream s.attempts)
    (topic type : String) :
    Genuine world stream (tryConverter world stream topic s type).attempts := by
  intro i a hat
  rcases getElem?_concat_cases hat with hold | ⟨rfl, rfl⟩
  · exact h i a hold
  · rfl

theorem Genuine.subscribeLoop {s : Subscribing} (h : Genuine world stream s.attempts)
    (topic : String) (skip : List Converter → String → Bool) (types : List String) :
    Genuine world stream (subscribeLoop world stream topic skip types s).attempts := by
  induction types generalizing s with
  | nil => exact h
  | cons type types ih =>
      unfold Node.subscribeLoop at ih ⊢
      rw [List.foldl_cons]
      split
      · exact ih h
      · exact ih (h.tryConverter topic type)

theorem Genuine.updateSubscriptions {node : Node} (h : Genuine world node.stream node.attempts)
    (m : TopicMap) : Genuine world node.stream (node.updateSubscriptions world m).attempts := by
  unfold Node.updateSubscriptions
  split
  · have hround : ∀ (node' : Node) (entry : Sigma fun _ : String => List String),
        node'.stream = node.stream ∧ Genuine world node.stream node'.attempts →
        (updateTopic world node' entry).stream = node.stream ∧
          Genuine world node.stream (updateTopic world node' entry).attempts := by
      rintro node' entry ⟨hstream, hgenuine⟩
      unfold updateTopic
      rw [← hstream] at hgenuine ⊢
      split
      · exact ⟨rfl, hgenuine.subscribeLoop (s := ⟨node'.attempts, []⟩) entry.1 _ entry.2⟩
      · rename_i existing _
        exact ⟨rfl, hgenuine.subscribeLoop (s := ⟨node'.attempts, existing⟩) entry.1 _ entry.2⟩
    have hremoved : (node.removeTopics m).stream = node.stream ∧
        Genuine world node.stream (node.removeTopics m).attempts := ⟨rfl, h⟩
    exact (Run.run_keeps hround hremoved m.entries).2
  · exact h

theorem updated_stream (world : World) (stream : Option RecordingStream)
    (maps : List TopicMap) : (updated world stream maps).stream = stream := by
  induction maps using List.reverseRecOn with
  | nil => rfl
  | append_singleton maps m ih =>
      obtain ⟨made, subscriptions, heq, _⟩ :=
        updateSubscriptions_frame world (updated world stream maps) m
      rw [updated_concat, heq]
      exact ih

theorem genuine_updated (world : World) (stream : Option RecordingStream)
    (maps : List TopicMap) : Genuine world stream (updated world stream maps).attempts := by
  induction maps using List.reverseRecOn with
  | nil => exact fun i a hat => by cases hat
  | append_singleton maps m ih =>
      have hstream := updated_stream world stream maps
      have hgenuine : Genuine world (updated world stream maps).stream
          (updated world stream maps).attempts := by rwa [hstream]
      have hupdated := hgenuine.updateSubscriptions m
      rwa [hstream, ← updated_concat] at hupdated

/-- After every sequence of updates, a further update with a map has these effects,
whichever constructions fail: the topics are those of the map, a type is listed exactly
when it is in the map and was listed before or constructed in this call, and
`getConverter` finds a converter that reports the type in exactly these cases.  Every type of
the map that was not listed before is attempted, and every attempt comes to what the factory
makes of it. -/
theorem updateSubscriptions_spec (world : World) (stream : Option RecordingStream)
    (maps : List TopicMap) (m : TopicMap) :
    ∃ made,
      (updated world stream (maps ++ [m])).attempts =
        (updated world stream maps).attempts ++ made ∧
      (∀ a ∈ made, MadeFor a a.topic stream) ∧
      (∀ i a, (updated world stream (maps ++ [m])).attempts[i]? = some a →
        a.result = ConverterFactory.getConverterForRosTopic world i a.topic a.type stream) ∧
      (∀ topic types, m.lookup topic = some types → ∀ type ∈ types,
        (updated world stream maps).Lists topic type ∨
          ∃ a ∈ made, a.topic = topic ∧ a.type = type) ∧
      (∀ topic, topic ∈ (updated world stream (maps ++ [m])).getSubscriptions ↔ topic ∈ m) ∧
      (∀ topic type, (updated world stream (maps ++ [m])).Lists topic type ↔
        ∃ types, m.lookup topic = some types ∧ type ∈ types ∧
          ((updated world stream maps).Lists topic type ∨ Constructed made topic type)) ∧
      (∀ topic type, ((updated world stream (maps ++ [m])).getConverter topic type).isSome ↔
        (updated world stream (maps ++ [m])).Lists topic type) ∧
      ∀ topic type c, (updated world stream (maps ++ [m])).getConverter topic type = some c →
        c.getRosTypeName = type := by
  have hshared := updated_shared world stream maps
  have hstream := updated_stream world stream maps
  have hgenuine := genuine_updated world stream (maps ++ [m])
  obtain ⟨made, hattempts, hfor, hlists⟩ := lists_updateSubscriptions_iff world hshared m
  obtain ⟨made', subscriptions, hframe, _, _, _, hattempted⟩ :=
    updateSubscriptions_frame world (updated world stream maps) m
  obtain rfl : made' = made := by
    rw [hframe] at hattempts
    exact List.append_cancel_left hattempts
  rw [hstream] at hfor
  rw [updated_concat] at hgenuine ⊢
  exact ⟨made', hattempts, hfor, hgenuine, hattempted hshared,
    mem_updateSubscriptions_iff hshared m, hlists,
    fun topic type => getConverter_isSome_iff _ topic type,
    fun _ _ _ hc => getRosTypeName_of_getConverter hc⟩

end Node

end RerunViz
