import RerunViz.NodeRunner.Shutdown

set_option autoImplicit false

/-!
# Following the graph

The thread uses what the graph reported when it was asked, and the graph may have changed
since.  But every round asks again: when the graph stays as it is, two rounds at most take
the node to the topics that the graph reports, and they stay subscribed
(`process_converges`).
-/

namespace RerunViz.NodeRunner

variable {env : Surroundings} {stream : RecordingStream}

/-- Nothing has been done to stop the thread. -/
structure Running (p : Process) : Prop where
  ok : p.ok = true
  stop : p.stop = false
  fault : p.fault = none

/-- The thread leaves its loop only when a flag is up, and a flag that it has loaded is. -/
structure Coherent (p : Process) : Prop where
  loaded : p.thread = .askOk true ∨ p.thread = .askOkAgain true → p.stop = true
  finished : p.thread = .finished → Stopping p

theorem stopping_of_not_run {p : Process} {stopThread : Bool}
    (hloaded : stopThread = true → p.stop = true)
    (hrun : canGraphUpdateThreadRun p.ok stopThread = false) : Stopping p := by
  unfold canGraphUpdateThreadRun at hrun
  rw [Bool.and_eq_false_iff, Bool.not_eq_false'] at hrun
  exact hrun.imp_right hloaded

theorem Coherent.threadReturns {world : World} {p : Process} (h : Coherent p) :
    Coherent (threadReturns world p) := by
  obtain ⟨node, topics, graphCalls, ok, stop, thread, main, fault⟩ := p
  cases thread with
  | loadStop | loadStopAgain =>
      exact ⟨by simp [NodeRunner.threadReturns], fun heq => by cases heq⟩
  | askOk stopThread | askOkAgain stopThread =>
      cases hrun : canGraphUpdateThreadRun ok stopThread with
      | true =>
          rw [NodeRunner.threadReturns]
          simp only [hrun, if_true]
          exact ⟨by simp, fun heq => by cases heq⟩
      | false =>
          rw [NodeRunner.threadReturns]
          simp only [hrun, Bool.false_eq_true, if_false]
          refine ⟨by simp, fun _ => stopping_of_not_run ?_ hrun⟩
          rintro rfl
          exact h.loaded (by simp)
  | waiting | query | update =>
      exact ⟨by simp [NodeRunner.threadReturns], fun heq => by cases heq⟩
  | finished => exact h

theorem Coherent.step {p : Process} (h : Coherent p) (event : Event) :
    Coherent (step env p event) := by
  rcases step_thread_cases env p event with ⟨_, _, _, heq⟩ | ⟨hwaits, _⟩
  · rw [heq]
    exact h.threadReturns
  · constructor
    · rw [hwaits.thread]
      exact fun hloaded => hwaits.stop (h.loaded hloaded)
    · rw [hwaits.thread]
      intro hfinished
      rcases h.finished hfinished with hok | hstop
      · left
        rcases hwaits.ok with hsame | hfalse
        · exact hsame.trans hok
        · exact hfalse
      · exact Or.inr (hwaits.stop hstop)

/-- What is running has been running. -/
theorem running_of_step {p : Process} {event : Event} (h : Running (step env p event)) :
    Running p := by
  have halive : p.fault = none := by
    by_contra hsome
    obtain ⟨fault, heq⟩ := Option.ne_none_iff_exists'.mp hsome
    rw [step_of_fault env heq] at h
    exact hsome h.fault
  have hnot : ¬ Stopping p := by
    intro hstopping
    have hstopped : Stopping (step env p event) := stopping_step hstopping event
    rcases hstopped with hok | hstop
    · rw [h.ok] at hok
      cases hok
    · rw [h.stop] at hstop
      cases hstop
  rw [Stopping, not_or, Bool.not_eq_false, Bool.not_eq_true] at hnot
  exact ⟨hnot.1, hnot.2, halive⟩

/-! ## The way to the next update with a map -/

section Track

/-- The node has a property that an update with the map brings about, and no older map is
about to be used. -/
structure Tracks (S : Node → Prop) (m : TopicMap) (p : Process) : Prop where
  node : S p.node
  pending : ∀ m', p.thread = .update m' → m' = m

/-- The steps of the thread to the end of an update for which the graph is yet to be asked. -/
def stepsToUpdate : ThreadState → Nat
  | .update _ => 8
  | .loadStop => 7
  | .askOk _ => 6
  | .waiting => 5
  | .loadStopAgain => 4
  | .askOkAgain _ => 3
  | .query => 2
  | .finished => 0

open Classical in
/-- The steps of a running thread until the node has the property. -/
noncomputable def lag (S : Node → Prop) (m : TopicMap) (p : Process) : Nat :=
  if Running p ∧ ¬ Tracks S m p then
    if p.thread = .update m then 1 else stepsToUpdate p.thread
  else 0

variable {S N : Node → Prop} {m : TopicMap}

theorem lag_le_eight (S : Node → Prop) (m : TopicMap) (p : Process) : lag S m p ≤ 8 := by
  unfold lag
  split
  · split
    · omega
    · unfold stepsToUpdate
      split <;> omega
  · omega

theorem lag_of_tracks {p : Process} (h : Tracks S m p) : lag S m p = 0 :=
  if_neg fun hand => hand.2 h

theorem lag_of_not_running {p : Process} (h : ¬ Running p) : lag S m p = 0 :=
  if_neg fun hand => h hand.1

theorem lag_le_one {p : Process} (h : p.thread = .update m) : lag S m p ≤ 1 := by
  unfold lag
  rw [if_pos h]
  split
  · exact Nat.le_refl 1
  · exact Nat.zero_le 1

theorem lag_le_steps {p : Process} (h : p.thread ≠ .update m) :
    lag S m p ≤ stepsToUpdate p.thread := by
  unfold lag
  rw [if_neg h]
  split
  · exact Nat.le_refl _
  · exact Nat.zero_le _

/-- Where the thread is not about to make an update, a step takes it nearer to one. -/
theorem lag_of_progress {p p' : Process} (hrunning : Running p) (hnode : p'.node = p.node)
    (hthread : ∀ m', p.thread ≠ .update m')
    (hsteps : (p'.thread = .update m ∧ 2 ≤ stepsToUpdate p.thread) ∨
      (∀ m', p'.thread ≠ .update m') ∧ stepsToUpdate p'.thread < stepsToUpdate p.thread) :
    lag S m p' ≤ lag S m p - 1 := by
  by_cases htracks : Tracks S m p
  · have hafter : Tracks S m p' := by
      refine ⟨by rw [hnode]; exact htracks.node, fun m' heq => ?_⟩
      rcases hsteps with ⟨hupdate, _⟩ | ⟨hnone, _⟩
      · rw [hupdate] at heq
        exact (ThreadState.update.inj heq).symm
      · exact absurd heq (hnone m')
    rw [lag_of_tracks hafter]
    exact Nat.zero_le _
  · have hbefore : lag S m p = stepsToUpdate p.thread := by
      rw [lag, if_pos ⟨hrunning, htracks⟩, if_neg (hthread m)]
    rw [hbefore]
    rcases hsteps with ⟨hupdate, htwo⟩ | ⟨hnone, hless⟩
    · have hone : lag S m p' ≤ 1 := lag_le_one hupdate
      omega
    · have hle : lag S m p' ≤ stepsToUpdate p'.thread := lag_le_steps (hnone m)
      omega

/-- A step of a running thread. -/
theorem lag_threadReturns {world : World}
    (hupdate : ∀ node, N node → S (node.updateSubscriptions world m))
    {p : Process} (hnode : N p.node) (htopics : p.topics = m) (hcoherent : Coherent p)
    (hrunning : Running p) : lag S m (threadReturns world p) ≤ lag S m p - 1 := by
  obtain ⟨node, topics, graphCalls, ok, stop, thread, main, fault⟩ := p
  obtain ⟨rfl, rfl, rfl⟩ : ok = true ∧ stop = false ∧ fault = none :=
    ⟨hrunning.ok, hrunning.stop, hrunning.fault⟩
  obtain rfl : topics = m := htopics
  cases thread with
  | loadStop | waiting | loadStopAgain =>
      exact lag_of_progress hrunning rfl nofun (Or.inr ⟨nofun, Nat.le_refl _⟩)
  | query =>
      exact lag_of_progress hrunning rfl nofun (Or.inl ⟨rfl, Nat.le_refl _⟩)
  | askOk stopThread | askOkAgain stopThread =>
      cases stopThread with
      | true => cases hcoherent.loaded (by simp)
      | false => exact lag_of_progress hrunning rfl nofun (Or.inr ⟨nofun, Nat.le_refl _⟩)
  | finished =>
      rcases hcoherent.finished rfl with hok | hstop
      · cases hok
      · cases hstop
  | update m' =>
      by_cases hm : m' = topics
      · subst hm
        have hafter : Tracks S m' (threadReturns world
            ⟨node, m', graphCalls, true, false, .update m', main, none⟩) :=
          ⟨hupdate node hnode, nofun⟩
        rw [lag_of_tracks hafter]
        exact Nat.zero_le _
      · -- the map is stale: the round that follows asks again
        have hbefore :
            lag S topics ⟨node, topics, graphCalls, true, false, .update m', main, none⟩ = 8 := by
          rw [lag, if_pos ⟨hrunning, fun htracks => hm (htracks.pending m' rfl)⟩, if_neg]
          · rfl
          · exact fun heq => hm (ThreadState.update.inj heq)
        have hafter : lag S topics (threadReturns world
            ⟨node, topics, graphCalls, true, false, .update m', main, none⟩) ≤ 7 :=
          lag_le_steps nofun
        omega

/-- What keeps the thread on its way: a node that is kept, and a graph that stays. -/
structure OnTheWay (N : Node → Prop) (m : TopicMap) (p : Process) : Prop where
  coherent : Coherent p
  node : N p.node
  topics : p.topics = m

/-- The graph does not change. -/
def GraphStays : Event → Prop
  | .graphChange _ => False
  | _ => True

theorem topics_step (p : Process) {event : Event} (h : GraphStays event) :
    (step env p event).topics = p.topics := by
  cases hfault : p.fault with
  | some fault => rw [step_of_fault env hfault]
  | none =>
      rw [step_of_alive env hfault]
      cases event with
      | graphChange topics => cases h
      | interrupt => rfl
      | thread =>
          rw [stepAlive, threadStep]
          split
          · rfl
          · obtain ⟨node, graphCalls, thread, hframe⟩ := threadReturns_frame env.toWorld p
            rw [hframe]
      | main =>
          obtain ⟨ok, stop, main, hframe⟩ := mainStep_frame p
          rw [stepAlive, hframe]
      | deliver i msg =>
          rw [stepAlive]
          split <;> rfl
      | onTimer =>
          rw [stepAlive]
          split <;> rfl

theorem OnTheWay.step (hkept : ∀ node event, N node → N (Node.step env.toWorld node event))
    {p : Process} (h : OnTheWay N m p) {event : Event} (hevent : GraphStays event) :
    OnTheWay N m (step env p event) where
  coherent := h.coherent.step event
  node := by
    rw [node_step]
    exact Run.run_keeps hkept h.node _
  topics := (topics_step p hevent).trans h.topics

/-- The events that are not updates. -/
theorem node_step_other (hother : ∀ node event, (∀ m', event ≠ .updateSubscriptions m') →
      S node → S (Node.step env.toWorld node event))
    {p : Process} (h : S p.node) {event : Event}
    (hthread : event = .thread → (step env p event).fault.isSome = true) :
    S (step env p event).node := by
  cases hfault : p.fault with
  | some fault => rwa [step_of_fault env hfault]
  | none =>
      rw [node_step, nodeEvents_of_alive env hfault]
      cases event with
      | thread =>
          rw [nodeEventsAlive]
          cases hthrows : threadThrows env p with
          | some what => exact h
          | none =>
              have hdead := hthread rfl
              rw [step_of_alive env hfault, stepAlive, threadStep_of_returns hthrows,
                fault_threadReturns, hfault] at hdead
              cases hdead
      | graphChange | interrupt | main => exact h
      | deliver i msg =>
          rw [nodeEventsAlive]
          split
          · exact hother p.node (.deliver i msg) (fun _ heq => by cases heq) h
          · exact h
      | onTimer =>
          rw [nodeEventsAlive]
          split
          · exact hother p.node .onTimer (fun _ heq => by cases heq) h
          · exact h

theorem lag_step (hupdate : ∀ node, N node → S (node.updateSubscriptions env.toWorld m))
    (hother : ∀ node event, (∀ m', event ≠ .updateSubscriptions m') →
      S node → S (Node.step env.toWorld node event))
    {p : Process} (h : OnTheWay N m p) (event : Event) :
    lag S m (step env p event) ≤ lag S m p - if isThread event then 1 else 0 := by
  by_cases hrunning : Running (step env p event)
  · have hbefore := running_of_step hrunning
    rcases step_thread_cases env p event with ⟨rfl, _, _, heq⟩ | ⟨hwaits, hthread⟩
    · rw [heq]
      exact lag_threadReturns hupdate h.node h.topics h.coherent hbefore
    · have hnot : event ≠ .thread := by
        intro heq
        have hsome := hthread heq
        rw [hrunning.fault] at hsome
        cases hsome
      have hown : isThread event = false := by
        cases event with
        | thread => exact absurd rfl hnot
        | graphChange | interrupt | main | deliver | onTimer => rfl
      rw [hown]
      by_cases htracks : Tracks S m p
      · have hafter : Tracks S m (step env p event) := by
          refine ⟨node_step_other hother htracks.node hthread, ?_⟩
          rw [hwaits.thread]
          exact htracks.pending
        rw [lag_of_tracks hafter]
        exact Nat.zero_le _
      · unfold lag
        rw [hwaits.thread, if_pos (And.intro hbefore htracks)]
        split
        · exact Nat.le_refl _
        · exact Nat.zero_le _
  · rw [lag_of_not_running hrunning]
    exact Nat.zero_le _

/-- When the graph stays, and eight steps of the thread find it running, the node has what an
update with the map brings about. -/
theorem node_of_tracked (hkept : ∀ node event, N node → N (Node.step env.toWorld node event))
    (hupdate : ∀ node, N node → S (node.updateSubscriptions env.toWorld m))
    (hother : ∀ node event, (∀ m', event ≠ .updateSubscriptions m') →
      S node → S (Node.step env.toWorld node event))
    {p : Process} (h : OnTheWay N m p) {later : List Event}
    (hlater : ∀ event ∈ later, GraphStays event) (hcount : 8 ≤ later.countP isThread)
    (hrunning : Running (Run.run (step env) p later)) :
    S (Run.run (step env) p later).node := by
  have hkeep : ∀ (p : Process) (event : Event), OnTheWay N m p → GraphStays event →
      OnTheWay N m (step env p event) := fun _ event h hevent => h.step hkept hevent
  have hdown : ∀ (p : Process) (event : Event), OnTheWay N m p → GraphStays event →
      lag S m (step env p event) ≤ lag S m p - if isThread event then 1 else 0 :=
    fun _ event h _ => lag_step hupdate hother h event
  have hleft := Run.measure_run_le hkeep hdown h hlater
  have height := lag_le_eight S m p
  by_contra hnot
  have hpositive : 0 < lag S m (Run.run (step env) p later) := by
    rw [lag, if_pos ⟨hrunning, fun htracks => hnot htracks.node⟩]
    split
    · exact Nat.one_pos
    · have hstep : ∀ (p : Process) (event : Event), Coherent p → Coherent (step env p event) :=
        fun _ event h => h.step event
      have hcoherent := Run.run_keeps hstep h.coherent later
      unfold stepsToUpdate
      split
      · omega
      · omega
      · omega
      · omega
      · omega
      · omega
      · omega
      · rename_i hfinished
        rcases hcoherent.finished hfinished with hok | hstop
        · rw [hrunning.ok] at hok
          cases hok
        · rw [hrunning.stop] at hstop
          cases hstop
  omega

end Track

/-! ## What the node is subscribed to -/

/-- The topics are those of the map, and what is listed is a supported type of the map. -/
structure InSync (node : Node) (m : TopicMap) : Prop where
  topics : ∀ topic, topic ∈ node.getSubscriptions ↔ topic ∈ m
  listed : ∀ topic type, node.Lists topic type →
    ∃ types, m.lookup topic = some types ∧ type ∈ types ∧ supported topic type = true

theorem coherent_start (stream : RecordingStream) : Coherent (start stream) :=
  ⟨nofun, nofun⟩

theorem coherent_after (env : Surroundings) (stream : RecordingStream) (events : List Event) :
    Coherent (after env stream events) := by
  have hstep : ∀ (p : Process) (event : Event), Coherent p → Coherent (step env p event) :=
    fun _ event h => h.step event
  exact Run.run_keeps hstep (coherent_start stream) events

variable {world : World}

/-- What an update with the map brings about in the node of a process: the node is in sync,
and settled if constructions have ceased to throw. -/
structure Follows (world : World) (n : Nat) (m : TopicMap) (node : Node) : Prop where
  sync : InSync node m
  settled : world.ReliableFrom n → Node.Settled node m

/-- A node that a process can have, after a number of constructions. -/
structure Had (world : World) (stream : RecordingStream) (n : Nat) (node : Node) : Prop where
  run : ∃ events, node = Run.run (Node.step world) (Node.init true (some stream)) events
  attempts : n ≤ node.attempts.length

theorem Had.step {n : Nat} {node : Node} (h : Had world stream n node) (event : Node.Event) :
    Had world stream n (Node.step world node event) where
  run := by
    obtain ⟨events, rfl⟩ := h.run
    exact ⟨events ++ [event], by rw [Run.run_append, Run.run_singleton]⟩
  attempts := h.attempts.trans (Node.attempts_step world node event).length_le

theorem Had.follows {n : Nat} {node : Node} (h : Had world stream n node) (m : TopicMap) :
    Follows world n m (node.updateSubscriptions world m) := by
  obtain ⟨events, rfl⟩ := h.run
  have hshared := (Node.fixed_run world true (some stream) events).1
  obtain ⟨_, _, _, hlists⟩ := Node.lists_updateSubscriptions_iff world hshared m
  constructor
  · refine ⟨Node.mem_updateSubscriptions_iff hshared m, fun topic type hlisted => ?_⟩
    obtain ⟨types, htypes, htype, _⟩ := (hlists topic type).mp hlisted
    have hsupported : supported topic type = true := by
      apply @Node.supported_of_lists_run world (some stream)
        (events ++ [.updateSubscriptions m]) topic type
      rw [Run.run_append]
      exact hlisted
    exact ⟨types, htypes, htype, hsupported⟩
  · exact fun hreliable => Node.settled_updateSubscriptions fun i hi =>
      hreliable i (h.attempts.trans hi)

theorem Follows.of_subscriptions {n : Nat} {m : TopicMap} {node node' : Node}
    (h : Follows world n m node) (heq : node'.subscriptions = node.subscriptions) :
    Follows world n m node' := by
  have hlists : ∀ topic type, node'.Lists topic type ↔ node.Lists topic type := by
    intro topic type
    rw [Node.lists_iff, Node.lists_iff, heq]
  have htopics : ∀ topic, topic ∈ node'.getSubscriptions ↔ topic ∈ node.getSubscriptions := by
    intro topic
    rw [Node.mem_getSubscriptions_iff, Node.mem_getSubscriptions_iff, heq]
  constructor
  · exact ⟨fun topic => (htopics topic).trans (h.sync.topics topic),
      fun topic type hlisted => h.sync.listed topic type ((hlists topic type).mp hlisted)⟩
  · intro hreliable
    have hsettled := h.settled hreliable
    exact ⟨fun topic => (htopics topic).trans (hsettled.topics topic),
      fun topic type => (hlists topic type).trans (hsettled.listed topic type)⟩

theorem Follows.other {n : Nat} {m : TopicMap} {node : Node} (h : Follows world n m node)
    {event : Node.Event} (hevent : ∀ m', event ≠ .updateSubscriptions m') :
    Follows world n m (Node.step world node event) := by
  cases event with
  | updateSubscriptions m' => exact absurd rfl (hevent m')
  | deliver i msg =>
      obtain ⟨members, calls, heq⟩ := Node.deliver_frame world node i msg
      apply h.of_subscriptions
      rw [Node.step, heq]
  | onTimer =>
      apply h.of_subscriptions
      rw [Node.step, Node.onTimer_eq]

/-- In every schedule: when the graph stays as it is, and the thread makes eight steps or
more and has not been told to stop, then the topics of the node are those of the graph, and
only supported types of the graph are subscribed.  All of them are, if constructions do not
throw any more.  It does not matter where the thread stood, with how old a map, or what the
executor runs meanwhile. -/
theorem process_converges (env : Surroundings) (stream : RecordingStream)
    (events later : List Event) (hlater : ∀ event ∈ later, GraphStays event)
    (hcount : 8 ≤ later.countP isThread)
    (hrunning : Running (after env stream (events ++ later))) :
    InSync (after env stream (events ++ later)).node (after env stream events).topics ∧
      (env.toWorld.ReliableFrom (after env stream events).node.attempts.length →
        Node.Settled (after env stream (events ++ later)).node
          (after env stream events).topics) := by
  have hway : OnTheWay (Had env.toWorld stream (after env stream events).node.attempts.length)
      (after env stream events).topics (after env stream events) :=
    ⟨coherent_after env stream events, ⟨⟨_, node_after env stream events⟩, Nat.le_refl _⟩, rfl⟩
  rw [after_append] at hrunning ⊢
  have hfollows := node_of_tracked (fun _ event h => h.step event)
    (fun _ h => h.follows (after env stream events).topics)
    (fun _ _ hevent h => h.other hevent) hway hlater hcount hrunning
  exact ⟨hfollows.sync, hfollows.settled⟩

/-- The graph gets a topic while the thread is about to use an old map. -/
def staleEvents : List Event :=
  List.replicate 6 .thread ++
    [.graphChange (AList.singleton "/points" ["sensor_msgs/msg/PointCloud2"])]

/-- The thread finds the topic in the round after the one with the old map. -/
theorem process_converges_stale :
    Node.Settled
      (after Surroundings.reliable ⟨0⟩ (staleEvents ++ List.replicate 8 .thread)).node
      (after Surroundings.reliable ⟨0⟩ staleEvents).topics :=
  (process_converges Surroundings.reliable ⟨0⟩ staleEvents (List.replicate 8 .thread)
    (by simp [GraphStays]) (by decide)
    ⟨rfl, rfl, rfl⟩).2 fun _ _ => rfl

end RerunViz.NodeRunner
