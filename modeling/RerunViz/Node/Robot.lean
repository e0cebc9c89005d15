import RerunViz.Node.Replay
import RerunViz.Node.Timer
import RerunViz.RobotDescription.Delivery

set_option autoImplicit false

/-!
# Robot descriptions and the timer

The requests of a `RobotDescription` converter are those of the last description that it
has received and whose model has a root: all requests before are dropped.  When that model
is a tree of supported joints, they are the layout of the whole robot.  The next tick
handles them one by one (`onTimer_robots`).
-/

namespace RerunViz.Node

open RobotDescription

variable {world : World}

/-- The model of the description has a root. -/
def hasRoot (world : World) (data : String) : Bool := (world.initString data).root.isSome

/-- The requests that a description leaves, whether or not its callback returns. -/
def requestsFor (world : World) (data : String) : List TFRequest :=
  match (world.initString data).root with
  | none => []
  | some root =>
      (urdfDepthFirstLink (world.initString data) world.stackDepth
        ("/" ++ (world.initString data).name) (some root)
        [rootRequest (world.initString data) root]).2

/-- The requests after a list of descriptions. -/
def robotRequests (world : World) (descriptions : List String) : List TFRequest :=
  match (descriptions.filter (hasRoot world)).getLast? with
  | none => []
  | some data => requestsFor world data

/-- The descriptions among the messages of an object. -/
def descriptions : List Message → List String
  | [] => []
  | .string data :: msgs => data :: descriptions msgs
  | _ :: msgs => descriptions msgs

theorem descriptions_append (msgs msgs' : List Message) :
    descriptions (msgs ++ msgs') = descriptions msgs ++ descriptions msgs' := by
  induction msgs with
  | nil => rfl
  | cons msg msgs ih =>
      cases msg with
      | string data => exact congrArg (data :: ·) ih
      | pointCloud2 | imu | image | cameraInfo => exact ih

section Object

variable {c : Converter} {stream : RecordingStream}

/-- A description with a root decides alone; one without leaves the requests. -/
theorem tfRequests_robotCallback (hstream : c.stream = some stream) (members : Members)
    (data : String) :
    (topicCallback world.initString world.stackDepth c members data).members.tfRequests =
      if hasRoot world data = true then requestsFor world data else members.tfRequests := by
  unfold hasRoot requestsFor
  cases hroot : (world.initString data).root with
  | none =>
      simp only [topicCallback, hstream, hroot]
      exact (if_neg Bool.false_ne_true).symm
  | some root =>
      rw [(topicCallback_of_root hstream hroot members).2, Option.isSome_some, if_pos rfl]

theorem robotRequests_concat (world : World) (before : List String) (data : String) :
    robotRequests world (before ++ [data]) =
      if hasRoot world data = true then requestsFor world data else robotRequests world before := by
  unfold robotRequests
  rw [List.filter_append, List.filter_singleton]
  cases hroot : hasRoot world data with
  | true => rw [cond_true, List.getLast?_concat, if_pos rfl]
  | false => rw [cond_false, List.append_nil, if_neg Bool.false_ne_true]

/-- A `RobotDescription` object does not react to messages of other types. -/
theorem topicCallback_not_string (hcls : c.cls = .robotDescription) (members : Members)
    {msg : Message} (hmsg : ∀ data, msg ≠ .string data) :
    c.topicCallback world members msg = Effect.none members := by
  cases msg with
  | string data => exact absurd rfl (hmsg data)
  | pointCloud2 msg => simp [Converter.topicCallback, hcls]
  | imu msg => simp [Converter.topicCallback, hcls]
  | image msg => simp [Converter.topicCallback, hcls]
  | cameraInfo msg => simp [Converter.topicCallback, hcls]

/-- On its own, a `RobotDescription` object has the requests of the descriptions that it has
received. -/
theorem tfRequests_replay (hstream : c.stream = some stream) (hcls : c.cls = .robotDescription)
    (msgs : List Message) :
    (replay world c msgs).members.tfRequests = robotRequests world (descriptions msgs) := by
  induction msgs using List.reverseRecOn with
  | nil => rfl
  | append_singleton msgs msg ih =>
      rw [replay_concat, descriptions_append, receive]
      cases msg with
      | string data =>
          have hlast : descriptions [.string data] = [data] := rfl
          rw [hlast, robotRequests_concat, ← ih, Converter.topicCallback, if_pos hcls]
          exact tfRequests_robotCallback hstream _ data
      | pointCloud2 | imu | image | cameraInfo =>
          rw [topicCallback_not_string hcls _ fun _ h => by cases h]
          exact ih.trans (congrArg (robotRequests world) (List.append_nil _).symm)

end Object

/-- The requests of a description whose model is a tree of supported joints. -/
theorem complete_requestsFor {data : String} {root : Urdf.Link}
    (htree : (world.initString data).IsTree root)
    (hsupported : ∀ joint ∈ (world.initString data).joints, joint.Supported)
    (hdepth : 2 * (world.initString data).joints.length + 1 ≤ world.stackDepth) :
    Complete (world.initString data) (requestsFor world data) := by
  have hroot : hasRoot world data = true := by
    rw [hasRoot, htree.root_eq]
    rfl
  obtain ⟨c, hstream⟩ : ∃ c : Converter, c.stream = some ⟨0⟩ :=
    ⟨⟨0, .robotDescription, "", some ⟨0⟩⟩, rfl⟩
  have hcomplete := (complete_of_supported hstream htree hdepth hsupported Members.initial).2
  rwa [tfRequests_robotCallback hstream, if_pos hroot] at hcomplete

/-- The requests of an object that is held are part of what a tick goes through. -/
theorem getTfRequests_infix {node : Node}
    {topics : List (Sigma fun _ : String => List Converter)}
    (hall : topics.Perm node.subscriptions.entries) {topic : String} {converters : List Converter}
    (hlookup : node.subscriptions.lookup topic = some converters) {c : Converter}
    (hmem : c ∈ converters) : c.getTfRequests (node.members c.id) <:+: requestsOf node topics := by
  have hentry : ⟨topic, converters⟩ ∈ topics :=
    hall.mem_iff.mpr (AList.mem_lookup_iff.mp hlookup)
  have hobject : c.getTfRequests (node.members c.id) <:+:
      converters.flatMap fun c => c.getTfRequests (node.members c.id) := by
    rw [List.flatMap_def]
    exact List.infix_of_mem_flatten (List.mem_map_of_mem hmem)
  have htopic : (converters.flatMap fun c => c.getTfRequests (node.members c.id)) <:+:
      requestsOf node topics := by
    rw [requestsOf, List.flatMap_def]
    exact List.infix_of_mem_flatten (List.mem_map_of_mem hentry)
  exact hobject.trans htopic

/-- After every run of a node with a stream, each live robot description converter has the
requests of the last description with a root that it has received since it was
constructed, and none when it has received none.  When the model of that description is a
tree of supported joints for which the stack suffices, they are the layout of the robot.
The next tick handles these requests in their order, each with a lookup of its own. -/
theorem onTimer_robots (world : World) (stream : RecordingStream) (events : List Event) :
    ∀ topic converters c,
      (Run.run (step world) (init true (some stream)) events).subscriptions.lookup topic =
        some converters → c ∈ converters → c.cls = .robotDescription →
      c.getTfRequests ((Run.run (step world) (init true (some stream)) events).members c.id) =
          robotRequests world (descriptions (messagesTo world (some stream) events c.id)) ∧
        (∀ data root,
          ((descriptions (messagesTo world (some stream) events c.id)).filter
            (hasRoot world)).getLast? = some data →
          (world.initString data).IsTree root →
          (∀ joint ∈ (world.initString data).joints, joint.Supported) →
          2 * (world.initString data).joints.length + 1 ≤ world.stackDepth →
          Complete (world.initString data) (c.getTfRequests
            ((Run.run (step world) (init true (some stream)) events).members c.id))) ∧
        ∃ topics outcomes,
          Ticked world (Run.run (step world) (init true (some stream)) events)
            ((Run.run (step world) (init true (some stream)) events).onTimer world)
            topics outcomes ∧
          c.getTfRequests
              ((Run.run (step world) (init true (some stream)) events).members c.id) <:+:
            requestsOf (Run.run (step world) (init true (some stream)) events) topics := by
  intro topic converters c hlookup hmem hcls
  have hobjects := objects_run world true (some stream) events
  obtain ⟨_, hstream, hbuffer⟩ := fixed_run world true (some stream) events
  obtain ⟨type, hat⟩ := hobjects.live topic converters hlookup c hmem
  have hcstream : c.stream = some stream :=
    (hobjects.numbered c.id topic type c hat).2.2.2.trans hstream
  have hrequests : c.getTfRequests
      ((Run.run (step world) (init true (some stream)) events).members c.id) =
        robotRequests world (descriptions (messagesTo world (some stream) events c.id)) := by
    rw [Converter.getTfRequests, hcls,
      ((replays_run world (some stream) events).object c.id topic type c hat).1]
    exact tfRequests_replay hcstream hcls _
  refine ⟨hrequests, fun data root hlast htree hsupported hdepth => ?_, ?_⟩
  · rw [hrequests, robotRequests, hlast]
    exact complete_requestsFor htree hsupported hdepth
  · obtain ⟨outcomes, hticked⟩ := @ticked_onTimer world _ stream hstream hbuffer
    exact ⟨_, outcomes, hticked, getTfRequests_infix hticked.all hlookup hmem⟩

/-- A world in which every description but the empty one is of the arm, and every transform is
found. -/
def worldWithArm : World :=
  { World.reliable with
    lookupTransform := fun _ parent child =>
      .ok ⟨⟨⟨0, 0⟩, parent⟩, child, ⟨⟨0, 0, 0⟩, ⟨0, 0, 0, 0x3FF0000000000000⟩⟩⟩
    initString := fun data => if data = "" then ⟨"", none, []⟩ else armModel
    stackDepth := 7 }

/-- An empty description after that of the arm leaves the requests of the arm, and the next tick
handles at least these four. -/
theorem onTimer_robots_arm :
    Complete armModel
      ((Converter.mk 0 .robotDescription "/robot_description" (some ⟨0⟩)).getTfRequests
        ((Run.run (step worldWithArm) (init true (some ⟨0⟩))
          [.updateSubscriptions (AList.singleton "/robot_description" ["std_msgs/msg/String"]),
            .deliver 0 (.string "<robot/>"), .deliver 0 (.string "")]).members 0)) ∧
      4 ≤ ((Run.run (step worldWithArm) (init true (some ⟨0⟩))
        [.updateSubscriptions (AList.singleton "/robot_description" ["std_msgs/msg/String"]),
          .deliver 0 (.string "<robot/>"), .deliver 0 (.string "")]).onTimer
            worldWithArm).handled.length := by
  obtain ⟨_, hcomplete, topics, outcomes, hticked, hamong⟩ := onTimer_robots worldWithArm ⟨0⟩
    [.updateSubscriptions (AList.singleton "/robot_description" ["std_msgs/msg/String"]),
      .deliver 0 (.string "<robot/>"), .deliver 0 (.string "")]
    "/robot_description" _ ⟨0, .robotDescription, "/robot_description", some ⟨0⟩⟩ rfl
    List.mem_cons_self rfl
  refine ⟨hcomplete "<robot/>" armBase rfl isTree_armModel (by decide) (by decide), ?_⟩
  have heach := hticked.each.length_eq
  rw [List.length_zipIdx] at heach
  rw [hticked.handled, List.length_append, List.length_zip, List.length_map, ← heach, Nat.min_self]
  exact (hamong.length_le).trans (Nat.le_add_left _ _)

end RerunViz.Node
