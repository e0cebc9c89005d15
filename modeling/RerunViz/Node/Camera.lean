import RerunViz.Node.Timer

set_option autoImplicit false

/-!
# Camera requests and the timer

The request of a `CameraInfo` converter is a function of the messages that the object has
received since it was constructed: the last one with a calibrated camera decides, and
uncalibrated ones before and after it count for nothing.  A tick handles every request of
every live converter on its own (`onTimer_cameras`).
-/

namespace RerunViz.Node

variable {world : World}

/-! ## The request of a camera -/

/-- A message that the callback does not return early for. -/
def calibrated (msg : SensorMsgs.CameraInfo) : Bool := !Binary64.eq (msg.k 0) 0

/-- The request after a list of messages on a topic. -/
def cameraRequest (topic : String) (msgs : List SensorMsgs.CameraInfo) : Option TFRequest :=
  match getCameraNamespaceFromTopic topic with
  | .error _ => none
  | .ok entityPath =>
      ((msgs.filter calibrated).getLast?).map fun msg =>
        ⟨fixedFrameId, msg.header.frameId, entityPath, .translationAndRotation⟩

theorem cameraRequest_nil (topic : String) : cameraRequest topic [] = none := by
  unfold cameraRequest
  split <;> rfl

/-- The callback brings the request up to date, also when the camera model throws. -/
theorem tfRequest_cameraCallback {c : Converter} {stream : RecordingStream}
    (hstream : c.stream = some stream) {members : Members} {msgs : List SensorMsgs.CameraInfo}
    (h : members.tfRequest = cameraRequest c.topicName msgs) (msg : SensorMsgs.CameraInfo) :
    (CameraInfo.topicCallback world.fromCameraInfo c members msg).members.tfRequest =
      cameraRequest c.topicName (msgs ++ [msg]) := by
  unfold CameraInfo.topicCallback cameraRequest at *
  simp only [hstream]
  cases hspace : getCameraNamespaceFromTopic c.topicName with
  | error what =>
      rw [hspace] at h
      exact h
  | ok entityPath =>
      simp only [hspace] at h ⊢
      rw [List.filter_append, List.filter_singleton]
      by_cases hk : Binary64.eq (msg.k 0) 0
      · have hcalibrated : calibrated msg = false := by rw [calibrated, hk, Bool.not_true]
        rw [if_pos hk, hcalibrated, cond_false, List.append_nil]
        exact h
      · have hcalibrated : calibrated msg = true := by
          rw [calibrated, Bool.eq_false_iff.mpr hk, Bool.not_false]
        rw [if_neg hk, hcalibrated, cond_true, List.getLast?_concat]
        split <;> rfl

/-- A `CameraInfo` object does not react to messages of other types. -/
theorem topicCallback_other {c : Converter} (hcls : c.cls = .cameraInfo) (members : Members)
    {msg : Message} (hmsg : ∀ info, msg ≠ .cameraInfo info) :
    c.topicCallback world members msg = Effect.none members := by
  cases msg with
  | cameraInfo info => exact absurd rfl (hmsg info)
  | pointCloud2 msg => simp [Converter.topicCallback, hcls]
  | imu msg => simp [Converter.topicCallback, hcls]
  | image msg => simp [Converter.topicCallback, hcls]
  | string data => simp [Converter.topicCallback, hcls]

/-! ## What an object has received -/

/-- The construction of a number has succeeded. -/
def hasObject (node : Node) (id : Nat) : Bool :=
  match node.attempts[id]? with
  | some ⟨_, _, .ok _⟩ => true
  | _ => false

/-- The camera message that an event delivers to an object. -/
def delivery (id : Nat) (node : Node) : Event → List SensorMsgs.CameraInfo
  | .deliver i (.cameraInfo msg) => if i = id ∧ node.hasObject id then [msg] else []
  | _ => []

/-- The camera messages that an object has received in a run, in order. -/
def received (world : World) (stream : Option RecordingStream) (events : List Event)
    (id : Nat) : List SensorMsgs.CameraInfo :=
  Run.history (step world) (delivery id) (init true stream) events

theorem hasObject_iff {node : Node} {id : Nat} :
    node.hasObject id = true ↔ ∃ topic type c, node.attempts[id]? = some ⟨topic, type, .ok c⟩ := by
  unfold hasObject
  split
  · rename_i topic type c heq
    exact iff_of_true rfl ⟨topic, type, c, heq⟩
  · rename_i hno
    exact iff_of_false Bool.false_ne_true fun ⟨topic, type, c, heq⟩ => hno topic type c heq

/-- The requests of all `CameraInfo` objects are up to date with what they received. -/
structure Cameras (node : Node) (got : Nat → List SensorMsgs.CameraInfo) : Prop where
  fresh : ∀ i, node.hasObject i = false → node.members i = Members.initial ∧ got i = []
  request : ∀ i topic type c, node.attempts[i]? = some ⟨topic, type, .ok c⟩ →
    c.cls = .cameraInfo → (node.members i).tfRequest = cameraRequest c.topicName (got i)

theorem cameras_init (stream : Option RecordingStream) :
    Cameras (init true stream) fun _ => [] where
  fresh := fun _ _ => ⟨rfl, rfl⟩
  request := by simp [init]

/-- Constructions that are added have received nothing. -/
theorem Cameras.of_grown {node node' : Node} {got : Nat → List SensorMsgs.CameraInfo}
    (h : Cameras node got) (hgrown : node.attempts <+: node'.attempts)
    (hmembers : node'.members = node.members) : Cameras node' got := by
  constructor
  case fresh =>
    intro i hnone
    rw [hmembers]
    refine h.fresh i (Bool.eq_false_iff.mpr fun hobject => ?_)
    obtain ⟨topic, type, c, hat⟩ := hasObject_iff.mp hobject
    exact Bool.eq_false_iff.mp hnone
      (hasObject_iff.mpr ⟨topic, type, c, getElem?_of_grown hgrown hat⟩)
  case request =>
    intro i topic type c hat hcls
    rw [hmembers]
    cases hobject : node.hasObject i with
    | true =>
        obtain ⟨topic', type', c', hat'⟩ := hasObject_iff.mp hobject
        obtain ⟨_, rfl⟩ := object_unique (getElem?_of_grown hgrown hat') hat
        exact h.request i topic' type' c' hat' hcls
    | false =>
        obtain ⟨hinitial, hgot⟩ := h.fresh i hobject
        rw [hinitial, hgot, cameraRequest_nil]
        rfl

theorem delivery_of_ne {node : Node} {i id : Nat} (hne : id ≠ i) (msg : Message) :
    delivery id node (.deliver i msg) = [] := by
  unfold delivery
  split
  · rename_i heq
    obtain ⟨rfl, _⟩ := Event.deliver.inj heq
    exact if_neg fun hand => hne hand.1.symm
  · rfl

theorem delivery_of_not_hasObject {node : Node} {i : Nat} (hnone : node.hasObject i = false)
    (id : Nat) (msg : Message) : delivery id node (.deliver i msg) = [] := by
  by_cases hne : id = i
  · subst hne
    unfold delivery
    split
    · rename_i heq
      obtain ⟨rfl, _⟩ := Event.deliver.inj heq
      exact if_neg fun hand => Bool.eq_false_iff.mp hnone hand.2
    · rfl
  · exact delivery_of_ne hne msg

theorem deliver_of_not_hasObject {node : Node} {i : Nat} (hnone : node.hasObject i = false)
    (msg : Message) : node.deliver world i msg = node := by
  unfold deliver
  split
  · rename_i topic type c hat
    exact absurd (hasObject_iff.mpr ⟨topic, type, c, hat⟩) (Bool.eq_false_iff.mp hnone)
  · rfl

/-- The callback of a camera object takes its request along with what it received. -/
theorem tfRequest_topicCallback {node : Node} {c : Converter} {stream : RecordingStream}
    (hstream : c.stream = some stream) (hcls : c.cls = .cameraInfo)
    (hobject : node.hasObject c.id = true) {members : Members}
    {msgs : List SensorMsgs.CameraInfo}
    (h : members.tfRequest = cameraRequest c.topicName msgs) (msg : Message) :
    (c.topicCallback world members msg).members.tfRequest =
      cameraRequest c.topicName (msgs ++ delivery c.id node (.deliver c.id msg)) := by
  cases msg with
  | cameraInfo info =>
      rw [Converter.topicCallback, if_pos hcls, delivery, if_pos ⟨rfl, hobject⟩]
      exact tfRequest_cameraCallback hstream h info
  | pointCloud2 | imu | image | string =>
      rw [topicCallback_other hcls members (fun _ h => by cases h), delivery, List.append_nil]
      · exact h
      · nofun

/-- A delivery brings the object it goes to up to date, and no other. -/
theorem Cameras.deliver {node : Node} {got : Nat → List SensorMsgs.CameraInfo}
    (h : Cameras node got) (hobjects : Objects node) {stream : RecordingStream}
    (hstream : node.stream = some stream) (i : Nat) (msg : Message) :
    Cameras (node.deliver world i msg) fun id => got id ++ delivery id node (.deliver i msg) := by
  cases hobject : node.hasObject i with
  | false =>
      simp only [delivery_of_not_hasObject hobject, List.append_nil,
        deliver_of_not_hasObject hobject]
      exact h
  | true =>
      obtain ⟨topic, type, c, hat⟩ := hasObject_iff.mp hobject
      obtain ⟨rfl, _, _, hcstream⟩ := hobjects.numbered i topic type c hat
      have hdeliver : node.deliver world c.id msg =
          { node with
            members := Function.update node.members c.id
              (c.topicCallback world (node.members c.id) msg).members
            calls := node.calls ++ (c.topicCallback world (node.members c.id) msg).calls } := by
        rw [Node.deliver, hat]
      rw [hdeliver]
      constructor
      case fresh =>
        intro id hnone
        have hne : id ≠ c.id := by
          rintro rfl
          exact Bool.eq_false_iff.mp hnone hobject
        obtain ⟨hmembers, hgot⟩ := h.fresh id hnone
        refine ⟨(Function.update_of_ne hne _ _).trans hmembers, ?_⟩
        rw [hgot, delivery_of_ne hne, List.append_nil]
      case request =>
        intro id topic' type' c' hat' hcls
        by_cases hid : id = c.id
        · subst hid
          obtain ⟨_, rfl⟩ := object_unique hat hat'
          simp only [Function.update_self]
          exact tfRequest_topicCallback (hcstream.trans hstream) hcls hobject
            (h.request _ topic type _ hat hcls) msg
        · simp only [Function.update_of_ne hid, delivery_of_ne hid, List.append_nil]
          exact h.request id topic' type' c' hat' hcls

theorem Cameras.step {node : Node} {got : Nat → List SensorMsgs.CameraInfo}
    (h : Cameras node got) (hobjects : Objects node) {stream : RecordingStream}
    (hstream : node.stream = some stream) (event : Event) :
    Cameras (node.step world event) fun id => got id ++ delivery id node event := by
  cases event with
  | deliver i msg => exact h.deliver hobjects hstream i msg
  | updateSubscriptions m =>
      obtain ⟨made, subscriptions, heq, _⟩ := updateSubscriptions_frame world node m
      simp only [delivery, List.append_nil]
      refine h.of_grown (attempts_step world node (.updateSubscriptions m)) ?_
      rw [Node.step, heq]
  | onTimer =>
      simp only [delivery, List.append_nil]
      refine h.of_grown (attempts_step world node .onTimer) ?_
      rw [Node.step, onTimer_eq]

/-- The requests are up to date along every run. -/
theorem cameras_run (world : World) (stream : RecordingStream) (events : List Event) :
    Cameras (Run.run (step world) (init true (some stream)) events)
      (received world (some stream) events) := by
  induction events using List.reverseRecOn with
  | nil => exact cameras_init (some stream)
  | append_singleton events event ih =>
      have hstep := @Cameras.step world _ _ ih (objects_run world true (some stream) events)
        stream (fixed_run world true (some stream) events).2.1 event
      unfold received at hstep ⊢
      simp only [Run.history_concat, Run.run_append, Run.run_singleton]
      exact hstep

/-! ## The tick -/

/-- After every run of updates, deliveries and ticks of a node with a stream: the request of
each live camera is that of the last calibrated message it has received, and there is none
when it has received none or its topic has no namespace.  The next tick handles each request
of each live converter: it logs what the lookup returns, once and at the entity of the request,
and a lookup that throws has no effect on the other requests. -/
theorem onTimer_cameras (world : World) (stream : RecordingStream) (events : List Event) :
    (∀ topic converters c,
      (Run.run (step world) (init true (some stream)) events).subscriptions.lookup topic =
        some converters → c ∈ converters → c.cls = .cameraInfo →
      c.getTfRequests ((Run.run (step world) (init true (some stream)) events).members c.id) =
        (cameraRequest topic (received world (some stream) events c.id)).toList) ∧
    ∃ topics outcomes,
      Ticked world (Run.run (step world) (init true (some stream)) events)
        ((Run.run (step world) (init true (some stream)) events).onTimer world)
        topics outcomes := by
  have hobjects := objects_run world true (some stream) events
  obtain ⟨_, hstream, hbuffer⟩ := fixed_run world true (some stream) events
  constructor
  · intro topic converters c hlookup hmem hcls
    obtain ⟨type, hat⟩ := hobjects.live topic converters hlookup c hmem
    have hrequest := (cameras_run world stream events).request c.id topic type c hat hcls
    rw [(hobjects.numbered c.id topic type c hat).2.1] at hrequest
    rw [Converter.getTfRequests, hcls]
    exact congrArg Option.toList hrequest
  · exact ⟨_, ticked_onTimer hstream hbuffer⟩

end RerunViz.Node
