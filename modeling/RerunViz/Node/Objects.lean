import RerunViz.Node.Subscriptions

set_option autoImplicit false

/-!
# Converter objects

An object is told from others by the number of its construction, and the constructions
are only ever added to.  `Objects` says that every construction that succeeded made the
object of its number, for its topic and its type, and that every converter of a topic is
the object of a construction for that topic.  Every event of a run keeps this.
-/

namespace RerunViz.Node

variable {world : World} {stream : Option RecordingStream}

/-- A construction for the topic has made the object. -/
def MadeAt (attempts : List Attempt) (topic : String) (c : Converter) : Prop :=
  ∃ type, attempts[c.id]? = some ⟨topic, type, .ok c⟩

/-- A construction that succeeded has made the object of its own number, with its topic,
its type and the stream. -/
def Numbered (stream : Option RecordingStream) (attempts : List Attempt) : Prop :=
  ∀ (i : Nat) (topic type : String) (c : Converter),
    attempts[i]? = some ⟨topic, type, .ok c⟩ →
      c.id = i ∧ c.topicName = topic ∧ c.getRosTypeName = type ∧ c.stream = stream

/-- Every converter is an object constructed for the topic it is held at. -/
structure Objects (node : Node) : Prop where
  numbered : Numbered node.stream node.attempts
  live : ∀ topic converters, node.subscriptions.lookup topic = some converters →
    ∀ c ∈ converters, MadeAt node.attempts topic c

theorem objects_init (shared : Bool) (stream : Option RecordingStream) :
    Objects (init shared stream) where
  numbered := by simp [Numbered, init]
  live := by simp [init]

/-- An attempt keeps its number when others are added. -/
theorem getElem?_of_grown {attempts attempts' : List Attempt} (hgrown : attempts <+: attempts')
    {i : Nat} {a : Attempt} (hat : attempts[i]? = some a) : attempts'[i]? = some a := by
  obtain ⟨later, rfl⟩ := hgrown
  rw [List.getElem?_append_left (List.getElem?_eq_some_iff.mp hat).1, hat]

/-- One construction makes one object. -/
theorem object_unique {attempts : List Attempt} {i : Nat} {topic topic' type type' : String}
    {c c' : Converter} (h : attempts[i]? = some ⟨topic, type, .ok c⟩)
    (h' : attempts[i]? = some ⟨topic', type', .ok c'⟩) : topic = topic' ∧ c = c' := by
  rw [h, Option.some.injEq, Attempt.mk.injEq, Except.ok.injEq] at h'
  exact ⟨h'.1, h'.2.2⟩

theorem MadeAt.later {attempts attempts' : List Attempt} {topic : String} {c : Converter}
    (h : MadeAt attempts topic c) (hgrown : attempts <+: attempts') :
    MadeAt attempts' topic c := by
  obtain ⟨type, hat⟩ := h
  exact ⟨type, getElem?_of_grown hgrown hat⟩

/-- No object is constructed for two topics. -/
theorem MadeAt.unique {attempts : List Attempt} {topic topic' : String} {c c' : Converter}
    (h : MadeAt attempts topic c) (h' : MadeAt attempts topic' c') (hid : c.id = c'.id) :
    topic = topic' ∧ c = c' := by
  obtain ⟨type, hat⟩ := h
  obtain ⟨type', hat'⟩ := h'
  exact object_unique hat (hid ▸ hat')

/-! ## Updates -/

/-- What the constructions for a topic do: they add attempts, and to the converters the
objects that they made. -/
structure Extends (stream : Option RecordingStream) (topic : String) (s s' : Subscribing) :
    Prop where
  attempts : s.attempts <+: s'.attempts
  numbered : Numbered stream s.attempts → Numbered stream s'.attempts
  converters : ∃ added, s'.converters = s.converters ++ added ∧
    ∀ c ∈ added, MadeAt s'.attempts topic c
  entered : ∀ i topic' type c, s'.attempts[i]? = some ⟨topic', type, .ok c⟩ →
    s.attempts.length ≤ i → c ∈ s'.converters

namespace Extends

variable {topic : String} {s s' s'' : Subscribing}

theorem refl (stream : Option RecordingStream) (topic : String) (s : Subscribing) :
    Extends stream topic s s where
  attempts := List.prefix_refl _
  numbered := id
  converters := ⟨[], by simp, by simp⟩
  entered := fun i _ _ _ hat hi =>
    absurd (List.getElem?_eq_some_iff.mp hat).1 (Nat.not_lt.mpr hi)

theorem trans (h : Extends stream topic s s') (h' : Extends stream topic s' s'') :
    Extends stream topic s s'' where
  attempts := h.attempts.trans h'.attempts
  numbered := fun hnumbered => h'.numbered (h.numbered hnumbered)
  converters := by
    obtain ⟨added, heq, hadded⟩ := h.converters
    obtain ⟨added', heq', hadded'⟩ := h'.converters
    refine ⟨added ++ added', by rw [heq', heq, List.append_assoc], fun c hc => ?_⟩
    rcases List.mem_append.mp hc with hc | hc
    · exact (hadded c hc).later h'.attempts
    · exact hadded' c hc
  entered := by
    intro i topic' type c hat hi
    by_cases hlt : i < s'.attempts.length
    · obtain ⟨later, hlater⟩ := h'.attempts
      obtain ⟨added, heq, _⟩ := h'.converters
      rw [← hlater, List.getElem?_append_left hlt] at hat
      rw [heq]
      exact List.mem_append_left _ (h.entered i topic' type c hat hi)
    · exact h'.entered i topic' type c hat (Nat.le_of_not_lt hlt)

end Extends

theorem extends_tryConverter (world : World) (stream : Option RecordingStream)
    (topic : String) (s : Subscribing) (type : String) :
    Extends stream topic s (tryConverter world stream topic s type) := by
  constructor
  case attempts => exact List.prefix_append _ _
  case numbered =>
    intro hnumbered i topic' type' c hat
    rcases getElem?_concat_cases hat with hold | ⟨rfl, hnew⟩
    · exact hnumbered i topic' type' c hold
    · obtain ⟨rfl, rfl, hresult⟩ := Attempt.mk.inj hnew
      obtain ⟨hcls, htopic, hstream, hid⟩ := of_constructed hresult.symm
      exact ⟨hid, htopic, ConverterFactory.rosTypeName_of_classFor hcls, hstream⟩
  case converters =>
    simp only [tryConverter]
    cases hresult : ConverterFactory.getConverterForRosTopic world s.attempts.length topic type
      stream with
    | error what => exact ⟨[], by simp, by simp⟩
    | ok converter =>
        refine ⟨[converter], rfl, fun c hc => ?_⟩
        obtain rfl := List.mem_singleton.mp hc
        exact ⟨type, by rw [(of_constructed hresult).2.2.2, List.getElem?_concat_length]⟩
  case entered =>
    intro i topic' type' c hat hi
    rcases getElem?_concat_cases hat with hold | ⟨_, hnew⟩
    · exact absurd (List.getElem?_eq_some_iff.mp hold).1 (Nat.not_lt.mpr hi)
    · obtain ⟨_, _, hresult⟩ := Attempt.mk.inj hnew
      simp only [tryConverter, ← hresult]
      exact List.mem_append_right _ List.mem_cons_self

theorem extends_subscribeLoop (world : World) (stream : Option RecordingStream)
    (topic : String) (skip : List Converter → String → Bool) (types : List String)
    (s : Subscribing) :
    Extends stream topic s (subscribeLoop world stream topic skip types s) := by
  induction types generalizing s with
  | nil => exact .refl stream topic s
  | cons type types ih =>
      unfold subscribeLoop at ih ⊢
      rw [List.foldl_cons]
      split
      · exact ih s
      · exact (extends_tryConverter world stream topic s type).trans (ih _)

/-- One topic: the converters it ends up with were held at it before or are constructed
now. -/
theorem Objects.updateTopic {node : Node} (h : Objects node)
    (entry : Sigma fun _ : String => List String) :
    Objects (node.updateTopic world entry) := by
  obtain ⟨topic, types⟩ := entry
  -- the lists that were there before are made of objects of earlier constructions
  have hinsert : ∀ {s : Subscribing} {converters : List Converter},
      Extends node.stream topic ⟨node.attempts, (node.subscriptions.lookup topic).getD []⟩ s →
      converters ⊆ s.converters →
      Objects { node with
        attempts := s.attempts
        subscriptions := node.subscriptions.insert topic converters } := by
    intro s converters hext hsub
    refine ⟨hext.numbered h.numbered, fun topic' converters' hlookup c hc => ?_⟩
    rcases Assoc.lookup_insert_eq_some_iff.mp hlookup with ⟨rfl, rfl⟩ | ⟨_, hold⟩
    · obtain ⟨added, heq, hadded⟩ := hext.converters
      have hmem := hsub hc
      rw [heq, List.mem_append] at hmem
      rcases hmem with hmem | hmem
      · cases hexisting : node.subscriptions.lookup topic' with
        | none =>
            rw [hexisting] at hmem
            cases hmem
        | some existing =>
            rw [hexisting] at hmem
            exact (h.live topic' existing hexisting c hmem).later hext.attempts
      · exact hadded c hmem
    · exact (h.live topic' converters' hold c hc).later hext.attempts
  unfold Node.updateTopic
  cases hlookup : node.subscriptions.lookup topic with
  | none =>
      have hext := extends_subscribeLoop world node.stream topic (fun _ _ => false) types
        ⟨node.attempts, []⟩
      rw [hlookup, Option.getD_none] at hinsert
      exact hinsert hext (List.Subset.refl _)
  | some existing =>
      have hext := extends_subscribeLoop world node.stream topic hasType types
        ⟨node.attempts, existing⟩
      rw [hlookup, Option.getD_some] at hinsert
      refine hinsert hext fun c hc => ?_
      rw [eraseUnneeded_eq_filter] at hc
      exact (List.mem_filter.mp hc).1

theorem Objects.removeTopics {node : Node} (h : Objects node) (m : TopicMap) :
    Objects (node.removeTopics m) := by
  refine ⟨h.numbered, fun topic converters hlookup => ?_⟩
  rw [lookup_removeTopics] at hlookup
  split at hlookup
  · exact h.live topic converters hlookup
  · cases hlookup

theorem Objects.updateSubscriptions {node : Node} (h : Objects node) (m : TopicMap) :
    Objects (node.updateSubscriptions world m) := by
  unfold Node.updateSubscriptions
  split
  · exact Run.run_keeps (fun _ entry hobjects => hobjects.updateTopic entry)
      (h.removeTopics m) m.entries
  · exact h

/-! ## Runs -/

/-- The calls that were made for some handled requests. -/
def loggedFor (handled : List (TFRequest × Handled)) : List LogCall :=
  handled.flatMap fun entry => entry.2.calls entry.1

theorem loggedFor_append (handled handled' : List (TFRequest × Handled)) :
    loggedFor (handled ++ handled') = loggedFor handled ++ loggedFor handled' :=
  List.flatMap_append

/-- A tick handles requests, and makes the calls for them. -/
theorem onTimer_frame (world : World) (node : Node) :
    ∃ new, node.onTimer world =
      { node with handled := node.handled ++ new, calls := node.calls ++ loggedFor new } := by
  have hrounds : ∀ (requests : List TFRequest) (node : Node),
      ∃ new, requests.foldl (handleRequest world) node =
        { node with handled := node.handled ++ new, calls := node.calls ++ loggedFor new } := by
    intro requests
    induction requests with
    | nil => exact fun node => ⟨[], by simp [loggedFor]⟩
    | cons req requests ih =>
        intro node
        obtain ⟨new, heq⟩ := ih (node.handleRequest world req)
        refine ⟨(req, node.handleTfRequest world req) :: new, ?_⟩
        rw [List.foldl_cons, heq]
        simp [handleRequest, loggedFor]
  unfold onTimer
  split
  · exact hrounds node.tfRequests node
  · exact ⟨[], by simp [loggedFor]⟩

/-- A tick: only the handled requests and the calls on the stream change. -/
theorem onTimer_eq (world : World) (node : Node) :
    node.onTimer world =
      { node with
        handled := (node.onTimer world).handled
        calls := (node.onTimer world).calls } := by
  obtain ⟨new, heq⟩ := node.onTimer_frame world
  rw [heq]

theorem deliver_frame (world : World) (node : Node) (i : Nat) (msg : Message) :
    ∃ members calls, node.deliver world i msg =
      { node with members := members, calls := calls } := by
  unfold deliver
  split
  · exact ⟨_, _, rfl⟩
  · exact ⟨node.members, node.calls, rfl⟩

theorem Objects.step {node : Node} (h : Objects node) (event : Event) :
    Objects (node.step world event) := by
  cases event with
  | updateSubscriptions m => exact h.updateSubscriptions m
  | deliver i msg =>
      obtain ⟨members, calls, heq⟩ := deliver_frame world node i msg
      rw [Node.step, heq]
      exact ⟨h.numbered, h.live⟩
  | onTimer =>
      rw [Node.step, onTimer_eq]
      exact ⟨h.numbered, h.live⟩

/-- An event leaves alone what the constructor fixed, and forgets no construction. -/
theorem step_frame (world : World) (node : Node) (event : Event) :
    ∃ made subscriptions members handled calls,
      node.step world event =
        { node with
          subscriptions := subscriptions
          members := members
          attempts := node.attempts ++ made
          handled := handled
          calls := calls } := by
  cases event with
  | updateSubscriptions m =>
      obtain ⟨made, subscriptions, heq, _⟩ := updateSubscriptions_frame world node m
      exact ⟨made, subscriptions, node.members, node.handled, node.calls, heq⟩
  | deliver i msg =>
      obtain ⟨members, calls, heq⟩ := deliver_frame world node i msg
      refine ⟨[], node.subscriptions, members, node.handled, calls, ?_⟩
      rw [step, heq, List.append_nil]
  | onTimer =>
      refine ⟨[], node.subscriptions, node.members, (node.onTimer world).handled,
        (node.onTimer world).calls, ?_⟩
      rw [step, onTimer_eq, List.append_nil]

theorem attempts_step (world : World) (node : Node) (event : Event) :
    node.attempts <+: (node.step world event).attempts := by
  obtain ⟨made, _, _, _, _, heq⟩ := step_frame world node event
  rw [heq]
  exact List.prefix_append _ _

/-- What the constructor fixes stays as it is. -/
theorem fixed_run (world : World) (shared : Bool) (stream : Option RecordingStream)
    (events : List Event) :
    (Run.run (step world) (init shared stream) events).shared = shared ∧
      (Run.run (step world) (init shared stream) events).stream = stream ∧
      (Run.run (step world) (init shared stream) events).tfBuffer = true := by
  have hstep : ∀ (node : Node) (event : Event),
      node.shared = shared ∧ node.stream = stream ∧ node.tfBuffer = true →
      (step world node event).shared = shared ∧ (step world node event).stream = stream ∧
        (step world node event).tfBuffer = true := by
    intro node event h
    obtain ⟨_, _, _, _, _, heq⟩ := step_frame world node event
    rw [heq]
    exact h
  exact Run.run_keeps hstep ⟨rfl, rfl, rfl⟩ events

theorem objects_run (world : World) (shared : Bool) (stream : Option RecordingStream)
    (events : List Event) : Objects (Run.run (step world) (init shared stream) events) :=
  Run.run_keeps (fun _ event h => h.step event) (objects_init shared stream) events

theorem attempts_run (world : World) (node : Node) (events : List Event) :
    node.attempts <+: (Run.run (step world) node events).attempts := by
  have hstep : ∀ node' event, node.attempts <+: node'.attempts →
      node.attempts <+: (step world node' event).attempts := fun node' event h =>
    h.trans (attempts_step world node' event)
  exact Run.run_keeps hstep (List.prefix_refl _) events

end RerunViz.Node
