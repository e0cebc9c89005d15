import RerunViz.Node.Atomic

set_option autoImplicit false

/-!
# Objects on their own

Converters share the node, the stream and the topics.  Yet what an object holds and what it
logs is a function of the messages it has received since it was constructed: it could be
replayed on its own (`objects_replay`).  Other objects, updates and ticks have no part in
it.  What else is on the stream, the timer has put there for the requests it has handled.
-/

namespace RerunViz.Node

variable {world : World}

/-- What an object holds, and the calls it has made on the stream. -/
structure Replayed where
  members : Members
  calls : List LogCall

/-- An object receives a message. -/
def receive (world : World) (c : Converter) (s : Replayed) (msg : Message) : Replayed :=
  let effect := c.topicCallback world s.members msg
  ⟨effect.members, s.calls ++ effect.calls⟩

/-- An object on its own, after a list of messages. -/
def replay (world : World) (c : Converter) (msgs : List Message) : Replayed :=
  Run.run (receive world c) ⟨Members.initial, []⟩ msgs

theorem replay_concat (world : World) (c : Converter) (msgs : List Message) (msg : Message) :
    replay world c (msgs ++ [msg]) = receive world c (replay world c msgs) msg := by
  rw [replay, Run.run_append, Run.run_singleton]
  rfl

/-- The message that an event delivers to an object. -/
def messageTo (id : Nat) (node : Node) : Event → List Message
  | .deliver i msg => if i = id ∧ node.hasObject id = true then [msg] else []
  | _ => []

/-- The messages that an object has received in a run, in order. -/
def messagesTo (world : World) (stream : Option RecordingStream) (events : List Event)
    (id : Nat) : List Message :=
  Run.history (step world) (messageTo id) (init true stream) events

/-- What makes calls on the stream. -/
inductive Source where
  | object (id : Nat)
  | timer
  deriving DecidableEq

theorem object_ne_timer (id : Nat) : Source.object id ≠ .timer := nofun

/-- The calls that an event makes on the stream, each with its source.  Those of a tick are made
for the requests that it handles. -/
def callsBy (world : World) (node : Node) : Event → List (Source × LogCall)
  | .deliver i msg =>
      match node.attempts[i]? with
      | some ⟨_, _, .ok converter⟩ =>
          (converter.topicCallback world (node.members converter.id) msg).calls.map
            (.object i, ·)
      | _ => []
  | .onTimer =>
      (loggedFor ((node.onTimer world).handled.drop node.handled.length)).map (.timer, ·)
  | .updateSubscriptions _ => []

/-- The calls of a run, each with its source. -/
def allCalls (world : World) (stream : Option RecordingStream) (events : List Event) :
    List (Source × LogCall) :=
  Run.history (step world) (callsBy world) (init true stream) events

/-- The calls of one source. -/
def callsFrom (source : Source) (log : List (Source × LogCall)) : List LogCall :=
  (log.filter fun entry => entry.1 = source).map Prod.snd

theorem callsFrom_append (source : Source) (log log' : List (Source × LogCall)) :
    callsFrom source (log ++ log') = callsFrom source log ++ callsFrom source log' := by
  rw [callsFrom, List.filter_append, List.map_append]
  rfl

theorem callsFrom_map_self (source : Source) (calls : List LogCall) :
    callsFrom source (calls.map (source, ·)) = calls := by
  rw [callsFrom, List.filter_map, List.map_map]
  simp [Function.comp_def]

theorem callsFrom_map_other {source source' : Source} (hne : source ≠ source')
    (calls : List LogCall) : callsFrom source (calls.map (source', ·)) = [] := by
  rw [callsFrom, List.filter_map]
  simp [Function.comp_def, Ne.symm hne]

theorem map_snd_map (source : Source) (calls : List LogCall) :
    (calls.map (source, ·)).map Prod.snd = calls := by
  rw [List.map_map]
  exact List.map_id _

/-- Every object stands where its messages lead it. -/
structure Replays (world : World) (node : Node) (got : Nat → List Message)
    (log : List (Source × LogCall)) : Prop where
  calls : node.calls = log.map Prod.snd
  timer : callsFrom .timer log = loggedFor node.handled
  fresh : ∀ i, node.hasObject i = false →
    node.members i = Members.initial ∧ got i = [] ∧ callsFrom (.object i) log = []
  object : ∀ i topic type c, node.attempts[i]? = some ⟨topic, type, .ok c⟩ →
    node.members i = (replay world c (got i)).members ∧
      callsFrom (.object i) log = (replay world c (got i)).calls

theorem replays_init (world : World) (stream : Option RecordingStream) :
    Replays world (init true stream) (fun _ => []) [] where
  calls := rfl
  timer := rfl
  fresh := fun _ _ => ⟨rfl, rfl, rfl⟩
  object := by simp [init]

/-- Constructions that are added have received nothing. -/
theorem Replays.of_grown {node node' : Node} {got : Nat → List Message}
    {log : List (Source × LogCall)} (h : Replays world node got log)
    (hgrown : node.attempts <+: node'.attempts) (hmembers : node'.members = node.members)
    (hcalls : node'.calls = node.calls) (hhandled : node'.handled = node.handled) :
    Replays world node' got log := by
  constructor
  case calls => exact hcalls.trans h.calls
  case timer => rw [hhandled, h.timer]
  case fresh =>
    intro i hnone
    rw [hmembers]
    refine h.fresh i (Bool.eq_false_iff.mpr fun hobject => ?_)
    obtain ⟨topic, type, c, hat⟩ := hasObject_iff.mp hobject
    exact Bool.eq_false_iff.mp hnone
      (hasObject_iff.mpr ⟨topic, type, c, getElem?_of_grown hgrown hat⟩)
  case object =>
    intro i topic type c hat
    rw [hmembers]
    cases hobject : node.hasObject i with
    | true =>
        obtain ⟨topic', type', c', hat'⟩ := hasObject_iff.mp hobject
        obtain ⟨_, rfl⟩ := object_unique (getElem?_of_grown hgrown hat') hat
        exact h.object i topic' type' c' hat'
    | false =>
        obtain ⟨hinitial, hgot, hlog⟩ := h.fresh i hobject
        rw [hinitial, hgot, hlog]
        exact ⟨rfl, rfl⟩

theorem messageTo_of_ne {node : Node} {i id : Nat} (hne : id ≠ i) (msg : Message) :
    messageTo id node (.deliver i msg) = [] :=
  if_neg fun hand => hne hand.1.symm

theorem messageTo_self {node : Node} {i : Nat} (hobject : node.hasObject i = true)
    (msg : Message) : messageTo i node (.deliver i msg) = [msg] :=
  if_pos ⟨rfl, hobject⟩

theorem callsBy_of_object (world : World) {node : Node} {i : Nat} {topic type : String}
    {c : Converter} (hat : node.attempts[i]? = some ⟨topic, type, .ok c⟩) (msg : Message) :
    callsBy world node (.deliver i msg) =
      (c.topicCallback world (node.members c.id) msg).calls.map (.object i, ·) := by
  rw [callsBy, hat]

theorem callsBy_of_not_hasObject (world : World) {node : Node} {i : Nat}
    (hnone : node.hasObject i = false) (msg : Message) :
    callsBy world node (.deliver i msg) = [] := by
  rw [callsBy]
  split
  · rename_i topic type c hat
    rw [hasObject_iff.mpr ⟨topic, type, c, hat⟩] at hnone
    cases hnone
  · rfl

/-- No object, no effect. -/
theorem Replays.deliver_nowhere {node : Node} {got : Nat → List Message}
    {log : List (Source × LogCall)} (h : Replays world node got log) {i : Nat}
    (hnone : node.hasObject i = false) (msg : Message) :
    Replays world (node.deliver world i msg)
      (fun id => got id ++ messageTo id node (.deliver i msg))
      (log ++ callsBy world node (.deliver i msg)) := by
  have hmessage : ∀ id, messageTo id node (.deliver i msg) = [] := by
    intro id
    refine if_neg fun hand => ?_
    obtain ⟨rfl, hobject⟩ := hand
    rw [hnone] at hobject
    cases hobject
  simp only [hmessage, callsBy_of_not_hasObject world hnone, List.append_nil,
    deliver_of_not_hasObject hnone]
  exact h

/-- A delivery takes the object it goes to one message further, and no other. -/
theorem Replays.deliver {node : Node} {got : Nat → List Message} {log : List (Source × LogCall)}
    (h : Replays world node got log) (hobjects : Objects node) (i : Nat) (msg : Message) :
    Replays world (node.deliver world i msg)
      (fun id => got id ++ messageTo id node (.deliver i msg))
      (log ++ callsBy world node (.deliver i msg)) := by
  cases hobject : node.hasObject i with
  | false => exact h.deliver_nowhere hobject msg
  | true =>
      obtain ⟨topic, type, c, hat⟩ := hasObject_iff.mp hobject
      obtain ⟨rfl, _, _, _⟩ := hobjects.numbered i topic type c hat
      rw [deliver_of_hasObject world hat, callsBy_of_object world hat]
      constructor
      case calls => rw [List.map_append, map_snd_map, h.calls]
      case timer =>
        rw [callsFrom_append, callsFrom_map_other (object_ne_timer c.id).symm, List.append_nil]
        exact h.timer
      case fresh =>
        intro id hnone
        have hne : id ≠ c.id := by
          rintro rfl
          exact Bool.eq_false_iff.mp hnone hobject
        obtain ⟨hmembers, hgot, hlog⟩ := h.fresh id hnone
        refine ⟨(Function.update_of_ne hne _ _).trans hmembers, ?_, ?_⟩
        · rw [hgot, messageTo_of_ne hne, List.append_nil]
        · rw [callsFrom_append, hlog, callsFrom_map_other fun heq => hne (Source.object.inj heq),
            List.append_nil]
      case object =>
        intro id topic' type' c' hat'
        rw [callsFrom_append]
        by_cases hid : id = c.id
        · subst hid
          obtain ⟨_, rfl⟩ := object_unique hat hat'
          obtain ⟨hmembers, hlog⟩ := h.object c.id topic type c hat
          rw [messageTo_self hobject, replay_concat, receive, ← hmembers, callsFrom_map_self, hlog]
          exact ⟨Function.update_self _ _ _, rfl⟩
        · rw [messageTo_of_ne hid, List.append_nil,
            callsFrom_map_other fun heq => hid (Source.object.inj heq), List.append_nil]
          obtain ⟨hmembers, hlog⟩ := h.object id topic' type' c' hat'
          exact ⟨(Function.update_of_ne hid _ _).trans hmembers, hlog⟩

/-- A tick adds what the timer logs, and nothing to any object. -/
theorem Replays.onTimer {node : Node} {got : Nat → List Message} {log : List (Source × LogCall)}
    (h : Replays world node got log) :
    Replays world (node.onTimer world) got (log ++ callsBy world node .onTimer) := by
  obtain ⟨new, heq⟩ := node.onTimer_frame world
  have hcalls : callsBy world node .onTimer = (loggedFor new).map (.timer, ·) := by
    rw [callsBy, heq, List.drop_left]
  rw [hcalls, heq]
  constructor
  case calls => rw [List.map_append, map_snd_map, h.calls]
  case timer => rw [callsFrom_append, callsFrom_map_self, h.timer, loggedFor_append]
  case fresh =>
    intro i hnone
    obtain ⟨hinitial, hgot, hlog⟩ := h.fresh i hnone
    refine ⟨hinitial, hgot, ?_⟩
    rw [callsFrom_append, hlog, callsFrom_map_other (object_ne_timer i), List.append_nil]
  case object =>
    intro i topic type c hat
    rw [callsFrom_append, callsFrom_map_other (object_ne_timer i), List.append_nil]
    exact h.object i topic type c hat

theorem Replays.step {node : Node} {got : Nat → List Message} {log : List (Source × LogCall)}
    (h : Replays world node got log) (hobjects : Objects node) (event : Event) :
    Replays world (node.step world event) (fun id => got id ++ messageTo id node event)
      (log ++ callsBy world node event) := by
  cases event with
  | deliver i msg => exact h.deliver hobjects i msg
  | updateSubscriptions m =>
      obtain ⟨made, subscriptions, heq, _⟩ := updateSubscriptions_frame world node m
      simp only [messageTo, callsBy, List.append_nil]
      refine h.of_grown (attempts_step world node (.updateSubscriptions m)) ?_ ?_ ?_
      · rw [Node.step, heq]
      · rw [Node.step, heq]
      · rw [Node.step, heq]
  | onTimer =>
      simp only [messageTo, List.append_nil]
      exact h.onTimer

theorem replays_run (world : World) (stream : Option RecordingStream) (events : List Event) :
    Replays world (Run.run (step world) (init true stream) events)
      (messagesTo world stream events) (allCalls world stream events) := by
  induction events using List.reverseRecOn with
  | nil => exact replays_init world stream
  | append_singleton events event ih =>
      have hstep := ih.step (objects_run world true stream events) event
      unfold messagesTo allCalls at hstep ⊢
      simp only [Run.history_concat, Run.run_append, Run.run_singleton]
      exact hstep

/-- After every run of updates, deliveries and ticks, every object that was constructed, held
or not, has the members to which the messages it received lead it on its own, and has
made the calls that they lead to on their own.  The calls on the stream are those of the
objects and those of the timer, and the latter are the calls for the handled requests. -/
theorem objects_replay (world : World) (stream : Option RecordingStream) (events : List Event) :
    (Run.run (step world) (init true stream) events).calls =
        (allCalls world stream events).map Prod.snd ∧
      callsFrom .timer (allCalls world stream events) =
        loggedFor (Run.run (step world) (init true stream) events).handled ∧
      (∀ id, (Run.run (step world) (init true stream) events).hasObject id = false →
        callsFrom (.object id) (allCalls world stream events) = []) ∧
      ∀ id topic type c,
        (Run.run (step world) (init true stream) events).attempts[id]? =
          some ⟨topic, type, .ok c⟩ →
        (Run.run (step world) (init true stream) events).members id =
            (replay world c (messagesTo world stream events id)).members ∧
          callsFrom (.object id) (allCalls world stream events) =
            (replay world c (messagesTo world stream events id)).calls := by
  have h := replays_run world stream events
  exact ⟨h.calls, h.timer, fun id hnone => (h.fresh id hnone).2.2, h.object⟩

end RerunViz.Node
