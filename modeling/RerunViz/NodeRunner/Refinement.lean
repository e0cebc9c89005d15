import RerunViz.Node.Polling
import RerunViz.NodeRunner.Basic

set_option autoImplicit false

/-!
# The process runs the node

Whatever the schedule, what the parties of the process do to the node is a run of the node,
so that all that holds of runs of the node holds of the process.  Its updates are made with
the answers of the graph: each answer is used for one update, in the order of the
questions, and only the last can still be waiting for its update (`process_refines_node`).
-/

namespace RerunViz.NodeRunner

variable {env : Surroundings} {stream : RecordingStream}

/-- The run of the node that the process has made. -/
def nodeRun (env : Surroundings) (stream : RecordingStream) (events : List Event) :
    List Node.Event :=
  Run.history (step env) (nodeEvents env) (start stream) events

/-- What `get_topic_names_and_types` returns to the thread in an event. -/
def answered (env : Surroundings) (p : Process) : Event → List TopicMap
  | .thread =>
      match p.fault, p.thread, env.graphError p.graphCalls with
      | none, .query, none => [p.topics]
      | _, _, _ => []
  | _ => []

/-- The answers that the thread has got from the graph. -/
def answers (env : Surroundings) (stream : RecordingStream) (events : List Event) :
    List TopicMap :=
  Run.history (step env) (answered env) (start stream) events

theorem nodeRun_concat (env : Surroundings) (stream : RecordingStream) (events : List Event)
    (event : Event) :
    nodeRun env stream (events ++ [event]) =
      nodeRun env stream events ++ nodeEvents env (after env stream events) event :=
  Run.history_concat _ _ _ _

theorem answers_concat (env : Surroundings) (stream : RecordingStream) (events : List Event)
    (event : Event) :
    answers env stream (events ++ [event]) =
      answers env stream events ++ answered env (after env stream events) event :=
  Run.history_concat _ _ _ _

theorem node_after (env : Surroundings) (stream : RecordingStream) (events : List Event) :
    (after env stream events).node =
      Run.run (Node.step env.toWorld) (Node.init true (some stream))
        (nodeRun env stream events) :=
  Run.run_simulates (node_step env) (start stream) events

/-- The maps with which an event updates the node. -/
def updates (env : Surroundings) (p : Process) (event : Event) : List TopicMap :=
  (nodeEvents env p event).flatMap Node.Event.maps

theorem maps_map_update (maps : List TopicMap) :
    (maps.map Node.Event.updateSubscriptions).flatMap Node.Event.maps = maps := by
  rw [List.flatMap_map]
  exact List.flatMap_singleton' maps

/-- Only the thread updates the node, with the map that it has asked for. -/
theorem updates_cases (env : Surroundings) (p : Process) (event : Event) :
    updates env p event = [] ∨
      (event = .thread ∧ p.fault = none ∧ threadThrows env p = none ∧
        updates env p event = pending p) := by
  unfold updates
  cases hfault : p.fault with
  | some fault =>
      rw [nodeEvents_of_fault env hfault]
      exact Or.inl rfl
  | none =>
      rw [nodeEvents_of_alive env hfault]
      cases event with
      | graphChange topics | interrupt | main => exact Or.inl rfl
      | deliver i msg =>
          left
          rw [nodeEventsAlive]
          split <;> rfl
      | onTimer =>
          left
          rw [nodeEventsAlive]
          split <;> rfl
      | thread =>
          rw [nodeEventsAlive]
          cases hthrows : threadThrows env p with
          | some what => exact Or.inl rfl
          | none => exact Or.inr ⟨rfl, rfl, rfl, maps_map_update (pending p)⟩

theorem answered_of_fault (env : Surroundings) {p : Process} {fault : Fault}
    (h : p.fault = some fault) (event : Event) : answered env p event = [] := by
  cases event with
  | thread => rw [answered, h]
  | graphChange | interrupt | main | deliver | onTimer => rfl

theorem answered_of_throws {p : Process} {what : Exception}
    (h : threadThrows env p = some what) : answered env p .thread = [] := by
  rw [answered]
  split
  · rename_i _ hthread herror
    simp only [threadThrows, hthread, herror] at h
    cases h
  · rfl

/-- What the thread holds behind a step is what it has been told in that step. -/
theorem answered_of_returns (world : World) {p : Process} (halive : p.fault = none)
    (h : threadThrows env p = none) :
    answered env p .thread = pending (threadReturns world p) := by
  obtain ⟨node, topics, graphCalls, ok, stop, thread, main, fault⟩ := p
  obtain rfl : fault = none := halive
  cases thread with
  | query =>
      have herror : env.graphError graphCalls = none := h
      simp only [answered, herror]
      rfl
  | askOk stopThread | askOkAgain stopThread =>
      cases hrun : canGraphUpdateThreadRun ok stopThread with
      | true => simp [answered, threadReturns, pending, hrun]
      | false => simp [answered, threadReturns, pending, hrun]
  | loadStop | waiting | loadStopAgain | update | finished => rfl

/-- What is pending is used, and what is answered comes to be pending. -/
theorem updates_step (env : Surroundings) (p : Process) (event : Event) :
    updates env p event ++ pending (step env p event) = pending p ++ answered env p event := by
  cases hfault : p.fault with
  | some fault =>
      rw [updates, nodeEvents_of_fault env hfault, step_of_fault env hfault,
        answered_of_fault env hfault, List.append_nil]
      rfl
  | none =>
      rw [updates, nodeEvents_of_alive env hfault, step_of_alive env hfault]
      cases event with
      | graphChange topics | interrupt => exact (List.append_nil _).symm
      | main =>
          obtain ⟨ok, stop, main, heq⟩ := mainStep_frame p
          rw [stepAlive, heq]
          exact (List.append_nil _).symm
      | deliver i msg | onTimer =>
          rw [stepAlive, nodeEventsAlive]
          split <;> exact (List.append_nil _).symm
      | thread =>
          rw [stepAlive, nodeEventsAlive]
          cases hthrows : threadThrows env p with
          | some what =>
              rw [threadStep_of_throws hthrows, answered_of_throws hthrows, List.append_nil]
              rfl
          | none =>
              rw [threadStep_of_returns hthrows, answered_of_returns env.toWorld hfault hthrows]
              exact congrArg (· ++ _) (maps_map_update (pending p))

/-- In every schedule, the node has made a run of its own, and the maps of its updates are
the answers that the thread has got from the graph: each is used for one update, in the
order of the questions, and at most the last of them is not used yet. -/
theorem process_refines_node (env : Surroundings) (stream : RecordingStream)
    (events : List Event) :
    (after env stream events).node =
        Run.run (Node.step env.toWorld) (Node.init true (some stream))
          (nodeRun env stream events) ∧
      (nodeRun env stream events).flatMap Node.Event.maps ++ pending (after env stream events) =
        answers env stream events := by
  refine ⟨node_after env stream events, ?_⟩
  induction events using List.reverseRecOn with
  | nil => rfl
  | append_singleton events event ih =>
      have hstep := updates_step env (after env stream events) event
      rw [nodeRun_concat, answers_concat, after_concat, List.flatMap_append, List.append_assoc,
        ← ih, List.append_assoc, ← hstep]
      rfl

end RerunViz.NodeRunner
