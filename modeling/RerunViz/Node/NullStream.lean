import RerunViz.Node.Subscriptions

set_option autoImplicit false

/-!
# A node without a stream

`handleTfRequest` uses the stream of the node without a check, while the node may have
none.  What makes this safe is spread over the classes: the factory hands on the node's
own stream, and every callback returns before it enters a request when it has none
(`topicCallback_of_stream_none`).  So no converter ever has a request, in any run
(`no_tfRequests_without_stream`).
-/

namespace RerunViz

/-- Without a stream no callback has an effect. -/
theorem Converter.topicCallback_of_stream_none (world : World) {c : Converter}
    (hstream : c.stream = none) (members : Members) (msg : Message) :
    c.topicCallback world members msg = Effect.none members := by
  cases msg with
  | pointCloud2 msg => simp [Converter.topicCallback, PointCloud2.topicCallback, hstream]
  | imu msg => simp [Converter.topicCallback, Imu.topicCallback, hstream]
  | image msg => simp [Converter.topicCallback, Image.topicCallback, hstream]
  | cameraInfo msg => simp [Converter.topicCallback, CameraInfo.topicCallback, hstream]
  | string data => simp [Converter.topicCallback, RobotDescription.topicCallback, hstream]

/-- A converter whose members are as constructed has no requests. -/
theorem Converter.getTfRequests_initial (c : Converter) :
    c.getTfRequests Members.initial = [] := by
  unfold Converter.getTfRequests
  cases c.cls <;> rfl

namespace Node

variable {world : World}

/-- Neither the node nor any of its converters has a stream, and nothing has come of any
callback or tick. -/
structure Idle (node : Node) : Prop where
  stream : node.stream = none
  attempts : ∀ a ∈ node.attempts, ∀ c, a.result = .ok c → c.stream = none
  members : ∀ i, node.members i = Members.initial
  handled : node.handled = []

theorem idle_init (shared : Bool) : Idle (init shared none) where
  stream := rfl
  attempts := by simp [init]
  members := fun _ => rfl
  handled := rfl

theorem Idle.updateSubscriptions {node : Node} (h : Idle node) (m : TopicMap) :
    Idle (node.updateSubscriptions world m) := by
  obtain ⟨made, subscriptions, heq, hfor, _⟩ := updateSubscriptions_frame world node m
  rw [heq]
  refine ⟨h.stream, ?_, h.members, h.handled⟩
  intro a ha c hc
  rcases List.mem_append.mp ha with hold | hnew
  · exact h.attempts a hold c hc
  · rw [(hfor a hnew).stream_eq c hc, h.stream]

theorem Idle.deliver {node : Node} (h : Idle node) (i : Nat) (msg : Message) :
    Idle (node.deliver world i msg) := by
  unfold Node.deliver
  split
  · rename_i topic type c hattempt
    have hstream : c.stream = none :=
      h.attempts _ (List.mem_of_getElem? hattempt) c rfl
    rw [Converter.topicCallback_of_stream_none world hstream]
    refine ⟨h.stream, h.attempts, ?_, h.handled⟩
    intro j
    have hupdate : Function.update node.members c.id (node.members c.id) j = node.members j := by
      rw [Function.update_eq_self]
    exact hupdate.trans (h.members j)
  · exact h

theorem Idle.tfRequests_eq {node : Node} (h : Idle node) : node.tfRequests = [] := by
  unfold tfRequests
  simp [h.members, Converter.getTfRequests_initial]

theorem Idle.onTimer {node : Node} (h : Idle node) : node.onTimer world = node := by
  unfold Node.onTimer
  rw [h.tfRequests_eq, List.foldl_nil, ite_self]

theorem Idle.step {node : Node} (h : Idle node) (event : Event) :
    Idle (node.step world event) := by
  cases event with
  | updateSubscriptions m => exact h.updateSubscriptions m
  | deliver i msg => exact h.deliver i msg
  | onTimer =>
      rw [Node.step, h.onTimer]
      exact h

/-- In every run of a node without a stream, every converter's requests are empty, and no
tick has entered `handleTfRequest`. -/
theorem no_tfRequests_without_stream (world : World) (shared : Bool) (events : List Event) :
    (∀ c : Converter,
      c.getTfRequests ((Run.run (step world) (init shared none) events).members c.id) = []) ∧
    (Run.run (step world) (init shared none) events).handled = [] := by
  have h : Idle (Run.run (step world) (init shared none) events) :=
    Run.run_keeps (fun _ event hidle => hidle.step event) (idle_init shared) events
  refine ⟨?_, h.handled⟩
  intro c
  rw [h.members]
  exact c.getTfRequests_initial

end Node

end RerunViz
