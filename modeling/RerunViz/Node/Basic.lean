import Mathlib.Data.List.AList
import Mathlib.Data.List.Sort
import Mathlib.Data.String.Basic
import RerunViz.Converter.Factory
import RerunViz.Lib.Run

set_option autoImplicit false

/-!
# `Node`

The node keeps a list of converters for each topic, reconciles it with the topics of the
graph (`updateSubscriptions`), and asks all of them for transform requests at every tick
of a timer (`onTimer`).  A `std::map` is an association list with distinct keys, in any
order; where the order of a loop over the topics matters, it is that of the keys
(`byTopic`).

Three fields are history: the constructions attempted so far, the handled requests, and
the calls that callbacks and the timer made on the stream.  The code reads none of them;
the first two also number the constructions and the lookups.
-/

namespace RerunViz

/-- One call of the factory. -/
structure Attempt where
  topic : String
  type : String
  result : Except RuntimeError Converter

/-- The attempt constructed a converter. -/
def Attempt.Succeeded (a : Attempt) : Prop := a.result.isOk = true

/-- What `handleTfRequest` came to. -/
inductive Handled where
  /-- the transform was logged at the entity of the request -/
  | logged (transform : Transform3D)
  /-- the lookup threw, and the timer caught it -/
  | warned (what : Exception)
  /-- there is no stream to log to -/
  | nullDereference

/-- The call that it made on the stream. -/
def Handled.calls (req : TFRequest) : Handled → List LogCall
  | .logged transform => [.log ⟨req.rerunEntityPath, .transform3D transform⟩]
  | .warned _ => []
  | .nullDereference => []

/-- The data members of `Node`. -/
structure Node where
  /-- the object is owned by a `std::shared_ptr` -/
  shared : Bool
  /-- `rec_` -/
  stream : Option RecordingStream
  /-- `tf_buffer_` is not null -/
  tfBuffer : Bool
  /-- `subscriptions_` -/
  subscriptions : AList (fun _ : String => List Converter)
  /-- the members of each object that was constructed -/
  members : Nat → Members
  attempts : List Attempt
  handled : List (TFRequest × Handled)
  calls : List LogCall

namespace Node

/-- The constructor, whose `rclcpp::Node` is not null. -/
def init (shared : Bool) (stream : Option RecordingStream) : Node where
  shared := shared
  stream := stream
  tfBuffer := true
  subscriptions := ∅
  members := fun _ => Members.initial
  attempts := []
  handled := []
  calls := []

/-! ## Observers -/

/-- `Node::getSubscriptions`: the map of topics to type names, built entry by entry. -/
def getSubscriptions (node : Node) : AList (fun _ : String => List String) :=
  node.subscriptions.entries.foldl
    (fun subscriptions entry =>
      subscriptions.insert entry.1 (entry.2.map Converter.getRosTypeName)) ∅

/-- `Node::getConverter` -/
def getConverter (node : Node) (topic type : String) : Option Converter :=
  match node.subscriptions.lookup topic with
  | none => none
  | some converters => converters.find? fun c => c.getRosTypeName = type

/-! ## `updateSubscriptions` -/

/-- Where a loop over the types of a topic stands. -/
structure Subscribing where
  attempts : List Attempt
  converters : List Converter

/-- Ask the factory for a converter; a `std::runtime_error` is caught. -/
def tryConverter (world : World) (stream : Option RecordingStream) (topic : String)
    (s : Subscribing) (type : String) : Subscribing :=
  let result := ConverterFactory.getConverterForRosTopic world s.attempts.length topic type stream
  { attempts := s.attempts ++ [⟨topic, type, result⟩]
    converters :=
      match result with
      | .ok converter => s.converters ++ [converter]
      | .error _ => s.converters }

/-- One of the converters reports the type. -/
def hasType (converters : List Converter) (type : String) : Bool :=
  converters.any fun c => c.getRosTypeName = type

/-- A loop over the types of a topic, which leaves out those that `skip` selects. -/
def subscribeLoop (world : World) (stream : Option RecordingStream) (topic : String)
    (skip : List Converter → String → Bool) (types : List String) (s : Subscribing) :
    Subscribing :=
  types.foldl (fun s type =>
    if skip s.converters type then s else tryConverter world stream topic s type) s

/-- The loop for a new topic: a construction for every entry of the type list. -/
def addForNewTopic (world : World) (stream : Option RecordingStream) (topic : String)
    (types : List String) (attempts : List Attempt) : Subscribing :=
  subscribeLoop world stream topic (fun _ _ => false) types ⟨attempts, []⟩

/-- The loop for a known topic: a construction for every entry whose type is not found
among the converters. -/
def addMissing (world : World) (stream : Option RecordingStream) (topic : String)
    (types : List String) (attempts : List Attempt) (existing : List Converter) :
    Subscribing :=
  subscribeLoop world stream topic hasType types ⟨attempts, existing⟩

/-- The erase loop for a known topic. -/
def eraseUnneeded (types : List String) : List Converter → List Converter
  | [] => []
  | c :: converters =>
      if types.any fun type => c.getRosTypeName = type then c :: eraseUnneeded types converters
      else eraseUnneeded types converters

/-- The second step of `updateSubscriptions`, for one topic. -/
def updateTopic (world : World) (node : Node) (entry : Sigma fun _ : String => List String) :
    Node :=
  match node.subscriptions.lookup entry.1 with
  | none =>
      let s := addForNewTopic world node.stream entry.1 entry.2 node.attempts
      { node with
        attempts := s.attempts
        subscriptions := node.subscriptions.insert entry.1 s.converters }
  | some existing =>
      let s := addMissing world node.stream entry.1 entry.2 node.attempts existing
      { node with
        attempts := s.attempts
        subscriptions :=
          node.subscriptions.insert entry.1 (eraseUnneeded entry.2 s.converters) }

/-- The first step of `updateSubscriptions`: drop the topics that are no longer present. -/
def removeTopics (node : Node) (topicNamesAndTypes : AList (fun _ : String => List String)) :
    Node :=
  let topicsToRemove := node.subscriptions.keys.filter fun topic => topic ∉ topicNamesAndTypes
  { node with
    subscriptions := topicsToRemove.foldl (fun subscriptions topic => subscriptions.erase topic)
      node.subscriptions }

/-- `Node::updateSubscriptions`.  A node that no `std::shared_ptr` owns logs an error and
returns. -/
def updateSubscriptions (world : World) (node : Node)
    (topicNamesAndTypes : AList (fun _ : String => List String)) : Node :=
  if node.shared then
    topicNamesAndTypes.entries.foldl (updateTopic world) (node.removeTopics topicNamesAndTypes)
  else node

/-! ## Deliveries and ticks -/

/-- Deliver a message to the object of the `i`-th construction, if that succeeded.  Nothing
here asks whether the object still exists: a process delivers to objects that it holds
(`NodeRunner.stepAlive`). -/
def deliver (world : World) (node : Node) (i : Nat) (msg : Message) : Node :=
  match node.attempts[i]? with
  | some ⟨_, _, .ok converter⟩ =>
      let effect := converter.topicCallback world (node.members converter.id) msg
      { node with
        members := Function.update node.members converter.id effect.members
        calls := node.calls ++ effect.calls }
  | _ => node

/-- `Node::handleTfRequest` as the timer sees it.  The lookup comes first, so that the
stream is only used when it has returned. -/
def handleTfRequest (world : World) (node : Node) (req : TFRequest) : Handled :=
  match world.lookupTransform node.handled.length req.rosParentFrameId req.rosChildFrameId with
  | .error what => .warned what
  | .ok tf =>
      let transform :=
        match req.tfType with
        | .rotationOnly => (convertTransformToRerun tf.transform).withTranslation ⟨0, 0, 0⟩
        | .translationAndRotation => convertTransformToRerun tf.transform
      match node.stream with
      | none => .nullDereference
      | some _ => .logged transform

/-- The topics in the order in which a loop over `subscriptions_` visits them. -/
def byTopic (node : Node) : List (Sigma fun _ : String => List Converter) :=
  node.subscriptions.entries.insertionSort fun entry entry' => entry.1 ≤ entry'.1

/-- The requests of all converters, in the order of the timer's loops. -/
def tfRequests (node : Node) : List TFRequest :=
  node.byTopic.flatMap fun entry =>
    entry.2.flatMap fun converter => converter.getTfRequests (node.members converter.id)

/-- One round of the timer's loops. -/
def handleRequest (world : World) (node : Node) (req : TFRequest) : Node :=
  let outcome := node.handleTfRequest world req
  { node with
    handled := node.handled ++ [(req, outcome)]
    calls := node.calls ++ outcome.calls req }

/-- `Node::on_timer` -/
def onTimer (world : World) (node : Node) : Node :=
  if node.tfBuffer then node.tfRequests.foldl (handleRequest world) node else node

/-! ## Runs -/

/-- What can happen to a node, in any order. -/
inductive Event where
  | updateSubscriptions (topicNamesAndTypes : AList (fun _ : String => List String))
  | deliver (i : Nat) (msg : Message)
  | onTimer

/-- The node after one event. -/
def step (world : World) (node : Node) : Event → Node
  | .updateSubscriptions topicNamesAndTypes => node.updateSubscriptions world topicNamesAndTypes
  | .deliver i msg => node.deliver world i msg
  | .onTimer => node.onTimer world

end Node

end RerunViz
