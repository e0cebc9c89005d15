import RerunViz.Lib.Schedule
import RerunViz.Node.Duplicates
import RerunViz.Node.Identity

set_option autoImplicit false

/-!
# `NodeRunner` and `main`

The process has one node.  A thread of its `NodeRunner` asks the graph for topics and
updates the node, the executor that `main` spins runs callbacks and the timer, and at the
end the runner's destructor stops the thread.  A step here is as much as one party does
before another can interfere: the two flags of `canGraphUpdateThreadRun` are read one after
the other, and a map that was asked for may be old when the update is made.

The mutex of the node makes an update one step; deliveries to the objects that it leaves
could as well have come before or after it (`Node.updateSubscriptions_interleaved`).  A
callback that is still running when its object is destroyed is left out.

There is no `try` in the thread, nor around a callback: an exception that gets so far ends
the process, and after undefined behaviour the model has nothing more to say
(`Process.fault`).
-/

namespace RerunViz.NodeRunner

/-- What the code outside this repository does in a run of the process. -/
structure Surroundings extends World where
  /-- what the thread's `n`-th call on the graph throws, if it throws -/
  graphError : Nat → Option Exception
  /-- what the `n`-th construction throws, if it is not a `std::runtime_error` -/
  constructionUncaught : Nat → Option Exception

/-- Nothing throws but the lookups. -/
def Surroundings.reliable : Surroundings where
  toWorld := World.reliable
  graphError := fun _ => none
  constructionUncaught := fun _ => none

/-- Where `NodeRunner::graphUpdateThread` stands. -/
inductive ThreadState where
  /-- in the condition of the loop: about to load `stop_graph_update_thread_` -/
  | loadStop
  /-- in the condition of the loop, with what was loaded: about to call `rclcpp::ok` -/
  | askOk (stopThread : Bool)
  /-- in `wait_for_graph_change`, which comes back on a change or after a second -/
  | waiting
  /-- behind the wait: about to load `stop_graph_update_thread_` -/
  | loadStopAgain
  | askOkAgain (stopThread : Bool)
  /-- about to call `get_topic_names_and_types` -/
  | query
  /-- about to call `updateSubscriptions` -/
  | update (topicNamesAndTypes : TopicMap)
  | finished

/-- Where `main` stands. -/
inductive MainState where
  /-- in `executor.spin`, which returns when `rclcpp::ok` does not hold -/
  | spinning
  /-- about to call `rclcpp::shutdown` -/
  | shutdown
  /-- in the destructor of the runner: about to set `stop_graph_update_thread_` -/
  | stopping
  /-- waiting for the thread -/
  | joining
  /-- the runner is destroyed -/
  | joined
  deriving DecidableEq

/-- The process: the node, what the graph would report, the flags, and its parties. -/
structure Process where
  node : Node
  /-- what `get_topic_names_and_types` would return -/
  topics : TopicMap
  /-- how many calls of the thread on the graph have returned -/
  graphCalls : Nat
  /-- `rclcpp::ok` -/
  ok : Bool
  /-- `stop_graph_update_thread_` -/
  stop : Bool
  thread : ThreadState
  main : MainState
  /-- the exception or the undefined behaviour that has ended the process -/
  fault : Option Fault

/-- What `main` has set up when the executor starts to spin; the node is owned by a
`std::shared_ptr` and has the stream. -/
def start (stream : RecordingStream) : Process where
  node := Node.init true (some stream)
  topics := ∅
  graphCalls := 0
  ok := true
  stop := false
  thread := .loadStop
  main := .spinning
  fault := none

/-- `NodeRunner::canGraphUpdateThreadRun`, on what it has read. -/
def canGraphUpdateThreadRun (ok stopThread : Bool) : Bool := ok && !stopThread

/-- The exception that an update lets through: its `catch` clauses are for
`std::runtime_error`.  Types that the factory does not know construct nothing. -/
def uncaught (env : Surroundings) (node : Node) (topicNamesAndTypes : TopicMap) :
    Option Exception :=
  let attempts := (node.updateSubscriptions env.toWorld topicNamesAndTypes).attempts
  let before := node.attempts.length
  ((attempts.drop before).zipIdx before).findSome? fun attempt =>
    if (ConverterFactory.classFor attempt.1.topic attempt.1.type).isSome then
      env.constructionUncaught attempt.2
    else none

/-- What the thread throws in its next step. -/
def threadThrows (env : Surroundings) (p : Process) : Option Exception :=
  match p.thread with
  | .waiting => env.graphError p.graphCalls
  | .query => env.graphError p.graphCalls
  | .update topicNamesAndTypes => uncaught env p.node topicNamesAndTypes
  | _ => none

/-- The next step of the thread, when it throws nothing. -/
def threadReturns (world : World) (p : Process) : Process :=
  match p.thread with
  | .loadStop => { p with thread := .askOk p.stop }
  | .askOk stopThread =>
      { p with
        thread := if canGraphUpdateThreadRun p.ok stopThread then .waiting else .finished }
  | .waiting => { p with graphCalls := p.graphCalls + 1, thread := .loadStopAgain }
  | .loadStopAgain => { p with thread := .askOkAgain p.stop }
  | .askOkAgain stopThread =>
      { p with thread := if canGraphUpdateThreadRun p.ok stopThread then .query else .finished }
  | .query => { p with graphCalls := p.graphCalls + 1, thread := .update p.topics }
  | .update topicNamesAndTypes =>
      { p with
        node := p.node.updateSubscriptions world topicNamesAndTypes
        thread := .loadStop }
  | .finished => p

/-- The next step of the thread. -/
def threadStep (env : Surroundings) (p : Process) : Process :=
  match threadThrows env p with
  | some what => { p with fault := some (.exception what) }
  | none => threadReturns env.toWorld p

/-- The next step of `main`, other than a callback that the executor runs.  The last one is
the join in `NodeRunner::stopAndJoinGraphUpdateThread`. -/
def mainStep (p : Process) : Process :=
  match p.main with
  | .spinning => if p.ok then p else { p with main := .shutdown }
  | .shutdown => { p with ok := false, main := .stopping }
  | .stopping => { p with stop := true, main := .joining }
  | .joining =>
      match p.thread with
      | .finished => { p with main := .joined }
      | _ => p
  | .joined => p

/-- How the callback of an object ends on a message. -/
def callbackEnded (world : World) (node : Node) (i : Nat) (msg : Message) : Except Fault Unit :=
  match node.attempts[i]? with
  | some ⟨_, _, .ok converter⟩ =>
      (converter.topicCallback world (node.members converter.id) msg).ended
  | _ => .ok ()

/-- What can happen next. -/
inductive Event where
  /-- other nodes change what the graph reports -/
  | graphChange (topics : TopicMap)
  /-- a signal ends `rclcpp::ok` -/
  | interrupt
  | thread
  | main
  /-- the executor runs the callback of an object on a message -/
  | deliver (i : Nat) (msg : Message)
  /-- the executor runs the timer -/
  | onTimer

/-- One event of a process that is alive.  A message reaches an object that is held: with the
object its subscription is gone. -/
def stepAlive (env : Surroundings) (p : Process) : Event → Process
  | .graphChange topics => { p with topics := topics }
  | .interrupt => { p with ok := false }
  | .thread => threadStep env p
  | .main => mainStep p
  | .deliver i msg =>
      if p.main = .spinning ∧ p.node.holds i = true then
        { p with
          node := p.node.deliver env.toWorld i msg
          fault :=
            match callbackEnded env.toWorld p.node i msg with
            | .ok () => none
            | .error fault => some fault }
      else p
  | .onTimer =>
      if p.main = .spinning then { p with node := p.node.onTimer env.toWorld } else p

/-- The process after one event; none comes after a fault. -/
def step (env : Surroundings) (p : Process) (event : Event) : Process :=
  match p.fault with
  | some _ => p
  | none => stepAlive env p event

/-- The process after a list of events. -/
def after (env : Surroundings) (stream : RecordingStream) (events : List Event) : Process :=
  Run.run (step env) (start stream) events

theorem after_concat (env : Surroundings) (stream : RecordingStream) (events : List Event)
    (event : Event) :
    after env stream (events ++ [event]) = step env (after env stream events) event := by
  rw [after, Run.run_append, Run.run_singleton]
  rfl

theorem after_append (env : Surroundings) (stream : RecordingStream) (events later : List Event) :
    after env stream (events ++ later) =
      Run.run (step env) (after env stream events) later :=
  Run.run_append _ _ _

/-! ## What an event can do -/

theorem step_of_fault (env : Surroundings) {p : Process} {fault : Fault} (h : p.fault = some fault)
    (event : Event) : step env p event = p := by
  rw [step, h]

theorem step_of_alive (env : Surroundings) {p : Process} (h : p.fault = none) (event : Event) :
    step env p event = stepAlive env p event := by
  rw [step, h]

theorem run_of_fault (env : Surroundings) {p : Process} {fault : Fault} (h : p.fault = some fault)
    (events : List Event) : Run.run (step env) p events = p := by
  induction events with
  | nil => rfl
  | cons event events ih => rw [Run.run_cons, step_of_fault env h, ih]

/-- The map that the thread has asked for and not yet used. -/
def pending (p : Process) : List TopicMap :=
  match p.thread with
  | .update topicNamesAndTypes => [topicNamesAndTypes]
  | _ => []

/-- The node events that an event consists of while the process is alive: one at most. -/
def nodeEventsAlive (env : Surroundings) (p : Process) : Event → List Node.Event
  | .thread =>
      match threadThrows env p with
      | some _ => []
      | none => (pending p).map .updateSubscriptions
  | .deliver i msg =>
      if p.main = .spinning ∧ p.node.holds i = true then [.deliver i msg] else []
  | .onTimer => if p.main = .spinning then [.onTimer] else []
  | .graphChange _ => []
  | .interrupt => []
  | .main => []

def nodeEvents (env : Surroundings) (p : Process) (event : Event) : List Node.Event :=
  match p.fault with
  | some _ => []
  | none => nodeEventsAlive env p event

theorem nodeEvents_of_fault (env : Surroundings) {p : Process} {fault : Fault}
    (h : p.fault = some fault) (event : Event) : nodeEvents env p event = [] := by
  rw [nodeEvents, h]

theorem nodeEvents_of_alive (env : Surroundings) {p : Process} (h : p.fault = none)
    (event : Event) : nodeEvents env p event = nodeEventsAlive env p event := by
  rw [nodeEvents, h]

theorem threadStep_of_throws {env : Surroundings} {p : Process} {what : Exception}
    (h : threadThrows env p = some what) :
    threadStep env p = { p with fault := some (.exception what) } := by
  rw [threadStep, h]

theorem threadStep_of_returns {env : Surroundings} {p : Process} (h : threadThrows env p = none) :
    threadStep env p = threadReturns env.toWorld p := by
  rw [threadStep, h]

/-- All that the thread does to the node are updates. -/
theorem node_threadReturns (world : World) (p : Process) :
    (threadReturns world p).node =
      Run.run (Node.step world) p.node ((pending p).map .updateSubscriptions) := by
  unfold threadReturns pending
  cases p.thread <;> rfl

/-- The thread leaves the flags alone, what the graph reports, and `main`. -/
theorem threadReturns_frame (world : World) (p : Process) :
    ∃ node graphCalls thread,
      threadReturns world p =
        { p with node := node, graphCalls := graphCalls, thread := thread } := by
  unfold threadReturns
  split <;> exact ⟨_, _, _, rfl⟩

theorem fault_threadReturns (world : World) (p : Process) :
    (threadReturns world p).fault = p.fault := by
  obtain ⟨node, graphCalls, thread, heq⟩ := threadReturns_frame world p
  rw [heq]

/-- `main` sets the two flags that stop the thread, and its own place. -/
theorem mainStep_frame (p : Process) :
    ∃ ok stop main, mainStep p = { p with ok := ok, stop := stop, main := main } := by
  unfold mainStep
  split
  · split <;> exact ⟨_, _, _, rfl⟩
  · exact ⟨_, _, _, rfl⟩
  · exact ⟨_, _, _, rfl⟩
  · split <;> exact ⟨_, _, _, rfl⟩
  · exact ⟨_, _, _, rfl⟩

/-- Everything an event does to the node. -/
theorem node_step (env : Surroundings) (p : Process) (event : Event) :
    (step env p event).node =
      Run.run (Node.step env.toWorld) p.node (nodeEvents env p event) := by
  cases hfault : p.fault with
  | some fault =>
      rw [step_of_fault env hfault, nodeEvents_of_fault env hfault]
      rfl
  | none =>
      rw [step_of_alive env hfault, nodeEvents_of_alive env hfault]
      cases event with
      | graphChange topics => rfl
      | interrupt => rfl
      | thread =>
          simp only [stepAlive, nodeEventsAlive]
          cases hthrows : threadThrows env p with
          | some what => rw [threadStep_of_throws hthrows, Run.run_nil]
          | none => rw [threadStep_of_returns hthrows, node_threadReturns]
      | main =>
          obtain ⟨ok, stop, main, heq⟩ := mainStep_frame p
          rw [stepAlive, heq]
          rfl
      | deliver i msg =>
          simp only [stepAlive, nodeEventsAlive]
          split <;> rfl
      | onTimer =>
          simp only [stepAlive, nodeEventsAlive]
          split <;> rfl

end RerunViz.NodeRunner
