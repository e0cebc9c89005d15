import RerunViz.Node.Objects

set_option autoImplicit false

/-!
# Which objects an update keeps

`updateSubscriptions` appends converters to the list of a topic and erases others from it,
while `getConverter` takes the first match.  A converter that is found before an update,
and whose topic and type are still in the map, is found after it: the same object, with
its members.  An object whose topic or type has gone is not held at any topic
(`updateSubscriptions_objects`).
-/

namespace RerunViz.Node

variable {world : World}

/-- The object is held at the topic and reports the type. -/
def Serves (node : Node) (topic type : String) (c : Converter) : Prop :=
  ∃ converters, node.subscriptions.lookup topic = some converters ∧ c ∈ converters ∧
    c.getRosTypeName = type

/-- The object of a number is held at some topic. -/
def Holds (node : Node) (id : Nat) : Prop :=
  ∃ topic converters c, node.subscriptions.lookup topic = some converters ∧ c ∈ converters ∧
    c.id = id

/-- The object of a number is held, by running through all lists. -/
def holds (node : Node) (id : Nat) : Bool :=
  node.subscriptions.entries.any fun entry => entry.2.any fun converter => converter.id = id

theorem holds_iff {node : Node} {id : Nat} : node.holds id = true ↔ node.Holds id := by
  simp only [holds, List.any_eq_true, decide_eq_true_eq]
  constructor
  · rintro ⟨⟨topic, converters⟩, hentry, c, hc, hid⟩
    exact ⟨topic, converters, c, AList.mem_lookup_iff.mpr hentry, hc, hid⟩
  · rintro ⟨topic, converters, c, hlookup, hc, hid⟩
    exact ⟨⟨topic, converters⟩, AList.mem_lookup_iff.mp hlookup, c, hc, hid⟩

/-! ## What stays -/

theorem getConverter_of_lookup {node : Node} {topic : String} {converters : List Converter}
    (h : node.subscriptions.lookup topic = some converters) (type : String) :
    node.getConverter topic type = converters.find? fun c => c.getRosTypeName = type := by
  rw [getConverter, h]

/-- One round: what is found at a topic is still found, unless the round is for that topic
and without the type. -/
theorem getConverter_updateTopic {node : Node} {topic type : String} {c : Converter}
    (h : node.getConverter topic type = some c)
    (entry : Sigma fun _ : String => List String) (hentry : entry.1 = topic → type ∈ entry.2) :
    (node.updateTopic world entry).getConverter topic type = some c := by
  obtain ⟨topic', types⟩ := entry
  by_cases htopic : topic' = topic
  · subst htopic
    have htype := hentry rfl
    cases hlookup : node.subscriptions.lookup topic' with
    | none =>
        rw [getConverter, hlookup] at h
        cases h
    | some existing =>
        rw [getConverter_of_lookup hlookup] at h
        obtain ⟨added, hadded, _⟩ := (extends_subscribeLoop world node.stream topic' hasType types
          ⟨node.attempts, existing⟩).converters
        rw [getConverter, updateTopic]
        simp only [hlookup, AList.lookup_insert]
        -- a converter of the type is kept, so the filter does not change the first match
        have hkept : ∀ c' : Converter, (types.any fun type => c'.getRosTypeName = type) = true ∧
            c'.getRosTypeName = type ↔ c'.getRosTypeName = type := by
          intro c'
          refine and_iff_right_of_imp fun hname => ?_
          exact List.any_eq_true.mpr ⟨type, htype, decide_eq_true hname⟩
        rw [eraseUnneeded_eq_filter, List.find?_filter, addMissing, hadded]
        simp only [decide_eq_true_eq, hkept, List.find?_append]
        rw [h, Option.some_or]
  · have hsame : (node.updateTopic world ⟨topic', types⟩).subscriptions.lookup topic =
        node.subscriptions.lookup topic := by
      unfold updateTopic
      split <;> exact AList.lookup_insert_ne (Ne.symm htopic)
    rw [getConverter, hsame]
    exact h

/-- An update keeps what is found at a topic of the map for one of its types. -/
theorem getConverter_updateSubscriptions {node : Node} {topic type : String} {c : Converter}
    (h : node.getConverter topic type = some c) {m : TopicMap} {types : List String}
    (hm : m.lookup topic = some types) (htype : type ∈ types) :
    (node.updateSubscriptions world m).getConverter topic type = some c := by
  unfold updateSubscriptions
  split
  · have hremoved : (node.removeTopics m).getConverter topic type = some c := by
      rw [getConverter, lookup_removeTopics, if_pos (Assoc.mem_of_lookup hm)]
      exact h
    have hround : ∀ (node : Node) (entry : Sigma fun _ : String => List String),
        node.getConverter topic type = some c → (entry.1 = topic → type ∈ entry.2) →
        (node.updateTopic world entry).getConverter topic type = some c :=
      fun _ entry hfound hentry => getConverter_updateTopic hfound entry hentry
    refine Run.run_invariant hround hremoved (Run.meets_of_forall _ fun _ entry hentry htopic => ?_)
    obtain ⟨topic', types'⟩ := entry
    obtain rfl : topic' = topic := htopic
    rw [AList.mem_lookup_iff.mpr hentry, Option.some.injEq] at hm
    exact hm ▸ htype
  · exact h

/-! ## What is new -/

/-- One round: an object that it constructs ends up at its topic. -/
theorem held_updateTopic {node : Node} {topic : String} {types : List String} {i : Nat}
    (hi : node.attempts.length ≤ i) {topic' type : String} {c : Converter}
    (hat : (node.updateTopic world ⟨topic, types⟩).attempts[i]? = some ⟨topic', type, .ok c⟩) :
    topic' = topic ∧ ∃ converters,
      (node.updateTopic world ⟨topic, types⟩).subscriptions.lookup topic = some converters ∧
        c ∈ converters := by
  -- what the loop over the types has made, by its spec
  have hloop : ∀ (skip : List Converter → String → Bool) (existing : List Converter),
      (subscribeLoop world node.stream topic skip types ⟨node.attempts, existing⟩).attempts[i]? =
        some ⟨topic', type, .ok c⟩ →
      topic' = topic ∧ c.getRosTypeName ∈ types ∧
        c ∈ (subscribeLoop world node.stream topic skip types
          ⟨node.attempts, existing⟩).converters := by
    intro skip existing hloop
    have hentered := (extends_subscribeLoop world node.stream topic skip types
      ⟨node.attempts, existing⟩).entered i topic' type c hloop hi
    obtain ⟨made, hattempts, hfor, hsub, _⟩ :=
      subscribeLoop_spec world node.stream topic skip types ⟨node.attempts, existing⟩
    rw [hattempts, List.getElem?_append_right hi] at hloop
    have hmem := List.mem_of_getElem? hloop
    have hmade := hfor _ hmem
    have hname := ConverterFactory.rosTypeName_of_classFor (hmade.class_eq c rfl)
    refine ⟨hmade.topic_eq, ?_, hentered⟩
    rw [Converter.getRosTypeName, hname]
    exact hsub.subset (List.mem_map_of_mem hmem)
  unfold updateTopic at hat ⊢
  cases hlookup : node.subscriptions.lookup topic with
  | none =>
      simp only [hlookup] at hat ⊢
      obtain ⟨rfl, _, hmem⟩ := hloop _ [] hat
      exact ⟨rfl, _, AList.lookup_insert _, hmem⟩
  | some existing =>
      simp only [hlookup] at hat ⊢
      obtain ⟨rfl, htype, hmem⟩ := hloop _ existing hat
      refine ⟨rfl, _, AList.lookup_insert _, ?_⟩
      rw [eraseUnneeded_eq_filter]
      exact List.mem_filter.mpr
        ⟨hmem, List.any_eq_true.mpr ⟨c.getRosTypeName, htype, decide_eq_true rfl⟩⟩

theorem held_foldl_updateTopic (entries : List (Sigma fun _ : String => List String))
    (hkeys : entries.NodupKeys) {node : Node} {i : Nat} (hi : node.attempts.length ≤ i)
    {topic type : String} {c : Converter}
    (hat : (entries.foldl (updateTopic world) node).attempts[i]? = some ⟨topic, type, .ok c⟩) :
    ∃ converters,
      (entries.foldl (updateTopic world) node).subscriptions.lookup topic = some converters ∧
        c ∈ converters := by
  induction entries generalizing node with
  | nil => exact absurd (List.getElem?_eq_some_iff.mp hat).1 (Nat.not_lt.mpr hi)
  | cons entry entries ih =>
      obtain ⟨topic₀, types₀⟩ := entry
      obtain ⟨hnot, hrest⟩ := List.nodupKeys_cons.mp hkeys
      rw [List.foldl_cons] at hat ⊢
      by_cases hround : i < (node.updateTopic world ⟨topic₀, types₀⟩).attempts.length
      · -- the rounds that follow leave the topic alone
        obtain ⟨made, subscriptions, hloop, _, hother, _⟩ :=
          foldl_updateTopic_spec world entries hrest (node.updateTopic world ⟨topic₀, types₀⟩)
        rw [hloop] at hat ⊢
        rw [List.getElem?_append_left hround] at hat
        obtain ⟨rfl, converters, hlookup, hmem⟩ := held_updateTopic hi hat
        exact ⟨converters, (hother topic hnot).trans hlookup, hmem⟩
      · exact ih hrest (Nat.le_of_not_lt hround) hat

/-- An update holds every object that it constructs. -/
theorem holds_of_new {node : Node} (h : Objects node) {m : TopicMap} {i : Nat}
    (hi : node.attempts.length ≤ i) {topic type : String} {c : Converter}
    (hat : (node.updateSubscriptions world m).attempts[i]? = some ⟨topic, type, .ok c⟩) :
    (node.updateSubscriptions world m).Holds i := by
  have hid : c.id = i := ((h.updateSubscriptions m).numbered i topic type c hat).1
  unfold updateSubscriptions at hat ⊢
  split at hat
  · rename_i hshared
    have hremoved : (node.removeTopics m).attempts.length ≤ i := hi
    obtain ⟨converters, hlookup, hmem⟩ :=
      held_foldl_updateTopic m.entries m.nodupKeys hremoved hat
    rw [if_pos hshared]
    exact ⟨topic, converters, c, hlookup, hmem, hid⟩
  · exact absurd (List.getElem?_eq_some_iff.mp hat).1 (Nat.not_lt.mpr hi)

/-! ## What goes -/

theorem Serves.lists {node : Node} {topic type : String} {c : Converter}
    (h : node.Serves topic type c) : node.Lists topic type := by
  obtain ⟨converters, hlookup, hmem, rfl⟩ := h
  exact lists_iff.mpr ⟨converters, hlookup, List.mem_map_of_mem hmem⟩

/-- An object that has served a topic is only ever held there, and for its type. -/
theorem serves_of_holds {node node' : Node} (h : Objects node) (h' : Objects node')
    (hgrown : node.attempts <+: node'.attempts) {topic type : String} {c : Converter}
    (hserves : node.Serves topic type c) (hholds : node'.Holds c.id) :
    node'.Serves topic type c := by
  obtain ⟨converters, hlookup, hmem, htype⟩ := hserves
  obtain ⟨topic', converters', c', hlookup', hmem', hid⟩ := hholds
  obtain ⟨rfl, rfl⟩ := (h'.live topic' converters' hlookup' c' hmem').unique
    ((h.live topic converters hlookup c hmem).later hgrown) hid
  exact ⟨converters', hlookup', hmem', htype⟩

/-- After every run of a node that a `std::shared_ptr` owns, an update with a map keeps every
object that is found for a topic and a type of the map, with its requests, and holds
none of the objects that have served a topic or a type which is not in the map. -/
theorem updateSubscriptions_objects (world : World) (stream : Option RecordingStream)
    (events : List Event) (m : TopicMap) (topic type : String) :
    (∀ types c, m.lookup topic = some types → type ∈ types →
      (Run.run (step world) (init true stream) events).getConverter topic type = some c →
        ((Run.run (step world) (init true stream) events).updateSubscriptions world
            m).getConverter topic type = some c ∧
          c.getTfRequests (((Run.run (step world) (init true stream) events).updateSubscriptions
            world m).members c.id) =
          c.getTfRequests ((Run.run (step world) (init true stream) events).members c.id)) ∧
    ((∀ types, m.lookup topic = some types → type ∉ types) →
      ∀ before, before <+: events → ∀ c,
        (Run.run (step world) (init true stream) before).Serves topic type c →
          ¬ ((Run.run (step world) (init true stream) events).updateSubscriptions world
            m).Holds c.id) := by
  have hobjects := objects_run world true stream events
  constructor
  · intro types c hm htype hfound
    refine ⟨getConverter_updateSubscriptions hfound hm htype, ?_⟩
    obtain ⟨made, subscriptions, heq, _⟩ :=
      updateSubscriptions_frame world (Run.run (step world) (init true stream) events) m
    rw [heq]
  · rintro habsent before ⟨later, rfl⟩ c hserves hholds
    have hgrown : (Run.run (step world) (init true stream) before).attempts <+:
        ((Run.run (step world) (init true stream) (before ++ later)).updateSubscriptions world
          m).attempts := by
      rw [Run.run_append]
      exact (attempts_run world _ later).trans
        (attempts_step world _ (.updateSubscriptions m))
    have hlists := (serves_of_holds (objects_run world true stream before)
      (hobjects.updateSubscriptions m) hgrown hserves hholds).lists
    obtain ⟨_, _, _, hiff⟩ := lists_updateSubscriptions_iff world
      (fixed_run world true stream (before ++ later)).1 m
    obtain ⟨types, hm, htype, _⟩ := (hiff topic type).mp hlists
    exact habsent types hm htype

end RerunViz.Node
