import RerunViz.Lib.Schedule
import RerunViz.Node.Camera
import RerunViz.Node.Duplicates
import RerunViz.Node.Identity

set_option autoImplicit false

/-!
# Updates next to callbacks

The mutex of the node keeps updates, ticks and getters apart, but no callback takes it, so
that messages arrive while an update is half done: at objects that it is about to drop, and
at objects that it has constructed and not yet entered.  Here `updateSubscriptions` is taken
apart into the steps that a callback can fall between.  Wherever the messages fall, the node
ends as if those for the old objects had come first, then the whole update, and then the
messages for the new objects; all that can differ is the order in which different objects
have made their calls (`updateSubscriptions_interleaved`).
-/

namespace RerunViz.Node

variable {world : World}

/-- An update in progress. -/
structure Updating where
  node : Node
  /-- the topic of the current round was found in `subscriptions_` -/
  known : Bool
  /-- the converters of the current round -/
  converters : List Converter

/-- The object of a number exists: a list of the node or the current round has it. -/
def Updating.holds (s : Updating) (id : Nat) : Bool :=
  s.node.holds id || s.converters.any fun converter => converter.id = id

/-- What happens while an update is in progress. -/
inductive UpdateStep where
  /-- drop a topic that is no longer present -/
  | erase (topic : String)
  /-- begin the round of a topic -/
  | enter (topic : String)
  /-- go on to a type of the topic -/
  | construct (topic type : String)
  /-- end the round: erase what is not needed, all at once, and keep the rest -/
  | leave (topic : String) (types : List String)
  /-- a message arrives -/
  | deliver (i : Nat) (msg : Message)

namespace UpdateStep

/-- The step is one of the update itself. -/
def ofUpdate : UpdateStep → Bool
  | .deliver _ _ => false
  | _ => true

/-- A message arrives only at an object that exists, because the subscription is destroyed with
its object. -/
def possible (s : Updating) : UpdateStep → Bool
  | .deliver i _ => s.holds i
  | _ => true

end UpdateStep

/-- A step that is possible. -/
def act (world : World) (s : Updating) : UpdateStep → Updating
  | .erase topic =>
      { s with node := { s.node with subscriptions := s.node.subscriptions.erase topic } }
  | .enter topic =>
      match s.node.subscriptions.lookup topic with
      | none => { s with known := false, converters := [] }
      | some existing => { s with known := true, converters := existing }
  | .construct topic type =>
      if s.known && hasType s.converters type then s
      else
        let r := tryConverter world s.node.stream topic ⟨s.node.attempts, s.converters⟩ type
        { s with node := { s.node with attempts := r.attempts }, converters := r.converters }
  | .leave topic types =>
      let kept := if s.known then eraseUnneeded types s.converters else s.converters
      { s with
        node := { s.node with subscriptions := s.node.subscriptions.insert topic kept }
        converters := [] }
  | .deliver i msg => { s with node := s.node.deliver world i msg }

def updateStep (world : World) (s : Updating) (op : UpdateStep) : Updating :=
  if op.possible s then act world s op else s

/-- The round of a topic. -/
def round (entry : Sigma fun _ : String => List String) : List UpdateStep :=
  .enter entry.1 :: (entry.2.map (.construct entry.1) ++ [.leave entry.1 entry.2])

/-- The steps of an update. -/
def updateProgram (node : Node) (m : TopicMap) : List UpdateStep :=
  if node.shared then
    (node.subscriptions.keys.filter fun topic => topic ∉ m).map .erase ++ m.entries.flatMap round
  else []

/-! ## The steps make up the update -/

/-- The types of a topic, one after the other, are the loop over them. -/
theorem run_construct (world : World) (topic : String) (types : List String) (s : Updating) :
    Run.run (act world) s (types.map (.construct topic)) =
      { s with
        node := { s.node with
          attempts := (subscribeLoop world s.node.stream topic
            (fun converters type => s.known && hasType converters type) types
            ⟨s.node.attempts, s.converters⟩).attempts }
        converters := (subscribeLoop world s.node.stream topic
            (fun converters type => s.known && hasType converters type) types
            ⟨s.node.attempts, s.converters⟩).converters } := by
  induction types generalizing s with
  | nil => rfl
  | cons type types ih =>
      rw [List.map_cons, Run.run_cons, act, subscribeLoop, List.foldl_cons]
      by_cases hskip : (s.known && hasType s.converters type) = true
      · rw [if_pos hskip, if_pos hskip, ih]
        rfl
      · rw [if_neg hskip, if_neg hskip, ih]
        rfl

theorem run_round (world : World) (entry : Sigma fun _ : String => List String) (s : Updating) :
    (Run.run (act world) s (round entry)).node = updateTopic world s.node entry := by
  rw [round, Run.run_cons, Run.run_append, Run.run_singleton, updateTopic]
  cases hlookup : s.node.subscriptions.lookup entry.1 with
  | none =>
      rw [act, hlookup, run_construct]
      rfl
  | some existing =>
      rw [act, hlookup, run_construct]
      rfl

theorem run_rounds (world : World) (entries : List (Sigma fun _ : String => List String))
    (s : Updating) :
    (Run.run (act world) s (entries.flatMap round)).node =
      entries.foldl (updateTopic world) s.node := by
  induction entries generalizing s with
  | nil => rfl
  | cons entry entries ih =>
      rw [List.flatMap_cons, Run.run_append, ih, run_round, List.foldl_cons]

theorem run_erase (world : World) (topics : List String) (s : Updating) :
    (Run.run (act world) s (topics.map .erase)).node =
      { s.node with
        subscriptions := topics.foldl (fun subscriptions topic => subscriptions.erase topic)
          s.node.subscriptions } := by
  induction topics generalizing s with
  | nil => rfl
  | cons topic topics ih =>
      rw [List.map_cons, Run.run_cons, ih]
      rfl

/-- The steps of an update, with nothing between them, are the update. -/
theorem run_updateProgram (world : World) (node : Node) (m : TopicMap) :
    (Run.run (act world) ⟨node, false, []⟩ (node.updateProgram m)).node =
      node.updateSubscriptions world m := by
  unfold updateProgram updateSubscriptions
  split
  · rw [Run.run_append, run_rounds, run_erase]
    rfl
  · rfl

/-! ## Messages behind the update -/

/-- A delivery to an object that has been constructed. -/
theorem deliver_of_hasObject (world : World) {node : Node} {i : Nat} {topic type : String}
    {c : Converter} (hat : node.attempts[i]? = some ⟨topic, type, .ok c⟩) (msg : Message) :
    node.deliver world i msg =
      { node with
        members := Function.update node.members c.id
          (c.topicCallback world (node.members c.id) msg).members
        calls := node.calls ++ (c.topicCallback world (node.members c.id) msg).calls } := by
  rw [deliver, hat]

/-- A delivery does not depend on what is subscribed, nor on later constructions. -/
theorem deliver_frame_eq (world : World) {node : Node} {i : Nat}
    (hobject : node.hasObject i = true) (msg : Message)
    (subscriptions : AList (fun _ : String => List Converter))
    {attempts : List Attempt} (hgrown : node.attempts <+: attempts) :
    ({ node with subscriptions := subscriptions, attempts := attempts } : Node).deliver
        world i msg =
      { node.deliver world i msg with subscriptions := subscriptions, attempts := attempts } := by
  obtain ⟨topic, type, c, hat⟩ := hasObject_iff.mp hobject
  rw [deliver_of_hasObject world hat, deliver_of_hasObject world (getElem?_of_grown hgrown hat)]

theorem hasObject_of_grown {node node' : Node} (hgrown : node.attempts <+: node'.attempts) {i : Nat}
    (hobject : node.hasObject i = true) : node'.hasObject i = true := by
  obtain ⟨topic, type, c, hat⟩ := hasObject_iff.mp hobject
  exact hasObject_iff.mpr ⟨topic, type, c, getElem?_of_grown hgrown hat⟩

/-- No step forgets a construction. -/
theorem attempts_act (world : World) (s : Updating) (op : UpdateStep) :
    s.node.attempts <+: (act world s op).node.attempts := by
  cases op with
  | erase topic => exact List.prefix_refl _
  | enter topic =>
      rw [act]
      split <;> exact List.prefix_refl _
  | construct topic type =>
      rw [act]
      split
      · exact List.prefix_refl _
      · exact List.prefix_append _ _
  | leave topic types => exact List.prefix_refl _
  | deliver i msg =>
      obtain ⟨members, calls, heq⟩ := deliver_frame world s.node i msg
      rw [act, heq]

/-- A message at an object that has been constructed and a step of the update can be
swapped. -/
theorem act_deliver_comm (s : Updating) {op : UpdateStep} (hop : op.ofUpdate = true)
    {i : Nat} (hobject : s.node.hasObject i = true) (msg : Message) :
    act world (act world s (.deliver i msg)) op =
      act world (act world s op) (.deliver i msg) := by
  obtain ⟨topic', type', c, hat⟩ := hasObject_iff.mp hobject
  have hdeliver := deliver_of_hasObject world hat msg
  cases op with
  | erase topic =>
      have hframe := deliver_frame_eq world hobject msg (s.node.subscriptions.erase topic)
        (List.prefix_refl s.node.attempts)
      simp only [act, hframe, hdeliver]
  | enter topic =>
      simp only [act, hdeliver]
      cases hlookup : s.node.subscriptions.lookup topic with
      | none => rw [hdeliver]
      | some existing => rw [hdeliver]
  | construct topic type =>
      simp only [act, hdeliver]
      split
      · rw [hdeliver]
      · have hgrown : s.node.attempts <+: (tryConverter world s.node.stream topic
            ⟨s.node.attempts, s.converters⟩ type).attempts := List.prefix_append _ _
        have hframe := deliver_frame_eq world hobject msg s.node.subscriptions hgrown
        simp only [hframe, hdeliver]
  | leave topic types =>
      have hframe := deliver_frame_eq world hobject msg (s.node.subscriptions.insert topic
        (if s.known then eraseUnneeded types s.converters else s.converters))
        (List.prefix_refl s.node.attempts)
      simp only [act, hframe, hdeliver]
  | deliver i' msg' => cases hop

/-- The messages of some steps, each with the object that it is for. -/
def arrival : UpdateStep → Option (Nat × Message)
  | .deliver i msg => some (i, msg)
  | _ => none

def arrivals (steps : List UpdateStep) : List (Nat × Message) := steps.filterMap arrival

/-- A list of messages, delivered one after the other. -/
def deliverAll (world : World) (node : Node) (messages : List (Nat × Message)) : Node :=
  Run.run (fun node d => node.deliver world d.1 d.2) node messages

/-- The messages alone are deliveries to the node. -/
theorem run_arrivals (world : World) (steps : List UpdateStep) (s : Updating) :
    Run.run (act world) s (steps.filter fun op => !op.ofUpdate) =
      { s with node := deliverAll world s.node (arrivals steps) } := by
  induction steps generalizing s with
  | nil => rfl
  | cons op steps ih =>
      rw [List.filter_cons]
      cases op with
      | deliver i msg => exact ih _
      | erase topic | enter topic | construct topic type | leave topic types => exact ih s

/-- A message arrives at an object that has been constructed. -/
def AtObject (s : Updating) : UpdateStep → Prop
  | .deliver i _ => s.node.hasObject i = true
  | _ => True

theorem act_congr (world : World) (s s' : Updating) (op : UpdateStep) (h : s = s') :
    act world s op = act world s' op :=
  congrArg (act world · op) h

theorem act_comm (s : Updating) (op op' : UpdateStep) (hop : op.ofUpdate = true)
    (hop' : op'.ofUpdate = false) (hat : AtObject s op') :
    act world (act world s op') op = act world (act world s op) op' := by
  cases op' with
  | deliver i msg => exact act_deliver_comm s hop hat msg
  | erase topic | enter topic | construct topic type | leave topic types => cases hop'

theorem atObject_act (s : Updating) (op op' : UpdateStep) (_ : op.ofUpdate = true)
    (hop' : op'.ofUpdate = false) (hat : AtObject s op') : AtObject (act world s op) op' := by
  cases op' with
  | deliver i msg => exact hasObject_of_grown (attempts_act world s op) hat
  | erase topic | enter topic | construct topic type | leave topic types => cases hop'

/-- Messages at objects that have been constructed can wait until the update is over. -/
theorem run_act_eq (world : World) (node : Node) (m : TopicMap) {steps : List UpdateStep}
    (hupdate : steps.filter UpdateStep.ofUpdate = node.updateProgram m)
    (hobjects : Run.Meets (act world) AtObject ⟨node, false, []⟩ steps) :
    (Run.run (act world) ⟨node, false, []⟩ steps).node =
      deliverAll world (node.updateSubscriptions world m) (arrivals steps) := by
  have hmeets : Run.Meets (act world)
      (fun s op => op.ofUpdate = false → AtObject s op) ⟨node, false, []⟩ steps :=
    Run.meets_imp hobjects fun _ _ hat _ => hat
  rw [Run.run_first_rest eq_equivalence (act_congr world) act_comm atObject_act hmeets,
    run_arrivals, hupdate, run_updateProgram]

/-! ## Messages before the update -/

theorem deliverAll_frame (world : World) (node : Node) (messages : List (Nat × Message)) :
    ∃ members calls, deliverAll world node messages =
      { node with members := members, calls := calls } := by
  have hstep : ∀ (node' : Node) (d : Nat × Message),
      (∃ members calls, node' = { node with members := members, calls := calls }) →
      ∃ members calls, node'.deliver world d.1 d.2 =
        { node with members := members, calls := calls } := by
    rintro _ d ⟨members, calls, rfl⟩
    obtain ⟨members', calls', heq⟩ :=
      deliver_frame world { node with members := members, calls := calls } d.1 d.2
    exact ⟨members', calls', heq⟩
  exact Run.run_keeps hstep ⟨node.members, node.calls, rfl⟩ messages

theorem ofUpdate_updateProgram {node : Node} {m : TopicMap} {op : UpdateStep}
    (h : op ∈ node.updateProgram m) : op.ofUpdate = true := by
  unfold updateProgram round at h
  split at h
  · rcases List.mem_append.mp h with herase | hround
    · obtain ⟨topic, _, rfl⟩ := List.mem_map.mp herase
      rfl
    · obtain ⟨entry, _, hop⟩ := List.mem_flatMap.mp hround
      rcases List.mem_cons.mp hop with rfl | hop
      · rfl
      · rcases List.mem_append.mp hop with hconstruct | hleave
        · obtain ⟨type, _, rfl⟩ := List.mem_map.mp hconstruct
          rfl
        · obtain rfl := List.mem_singleton.mp hleave
          rfl
  · cases h

/-- A message at an object that was there before makes no difference to an update. -/
theorem deliver_updateSubscriptions (world : World) {node : Node} (m : TopicMap) {i : Nat}
    (hobject : node.hasObject i = true) (msg : Message) :
    (node.deliver world i msg).updateSubscriptions world m =
      (node.updateSubscriptions world m).deliver world i msg := by
  have hat : AtObject ⟨node, false, []⟩ (.deliver i msg) := hobject
  have hswapped := Run.run_step_comm eq_equivalence (act_congr world) act_comm atObject_act rfl hat
    fun op (hop : op ∈ node.updateProgram m) => ofUpdate_updateProgram hop
  have hprogram : (node.deliver world i msg).updateProgram m = node.updateProgram m := by
    obtain ⟨members, calls, heq⟩ := deliver_frame world node i msg
    rw [heq]
    rfl
  rw [← run_updateProgram world node m, ← run_updateProgram, hprogram]
  exact congrArg Updating.node hswapped

theorem deliverAll_updateSubscriptions (world : World) {node : Node} (m : TopicMap)
    {messages : List (Nat × Message)} (h : ∀ d ∈ messages, node.hasObject d.1 = true) :
    (deliverAll world node messages).updateSubscriptions world m =
      deliverAll world (node.updateSubscriptions world m) messages := by
  induction messages generalizing node with
  | nil => rfl
  | cons d messages ih =>
      have hrest : ∀ d' ∈ messages, (node.deliver world d.1 d.2).hasObject d'.1 = true :=
        fun d' hmem => hasObject_of_grown (attempts_step world node (.deliver d.1 d.2))
          (h d' (List.mem_cons_of_mem d hmem))
      rw [deliverAll, Run.run_cons, deliverAll, Run.run_cons,
        ← deliver_updateSubscriptions world m (h d List.mem_cons_self)]
      exact ih hrest

/-! ## Messages at different objects -/

/-- The nodes differ at most in the order of the calls on the stream. -/
structure SameUpToOrder (node node' : Node) : Prop where
  others : node = { node' with calls := node.calls }
  calls : node.calls.Perm node'.calls

theorem equivalence_sameUpToOrder : Equivalence SameUpToOrder where
  refl := fun _ => ⟨rfl, .refl _⟩
  symm := by
    rintro node node' ⟨hothers, hcalls⟩
    exact ⟨by rw [hothers], hcalls.symm⟩
  trans := by
    rintro node node' node'' ⟨hothers, hcalls⟩ ⟨hothers', hcalls'⟩
    refine ⟨?_, hcalls.trans hcalls'⟩
    rw [hothers, hothers']

theorem SameUpToOrder.deliver {node node' : Node} (h : SameUpToOrder node node') (i : Nat)
    (msg : Message) : SameUpToOrder (node.deliver world i msg) (node'.deliver world i msg) := by
  obtain ⟨hothers, hcalls⟩ := h
  generalize node.calls = calls at hothers hcalls
  subst hothers
  unfold Node.deliver
  dsimp only
  split
  · exact ⟨rfl, hcalls.append_right _⟩
  · exact ⟨rfl, hcalls⟩

theorem hasObject_deliver (world : World) (node : Node) (i id : Nat) (msg : Message) :
    (node.deliver world i msg).hasObject id = node.hasObject id := by
  obtain ⟨members, calls, heq⟩ := deliver_frame world node i msg
  rw [heq]
  rfl

/-- Two objects do not notice who gets a message first. -/
theorem deliver_comm {node : Node} (h : Objects node) {i j : Nat} (hne : i ≠ j)
    (msg msg' : Message) :
    SameUpToOrder ((node.deliver world i msg).deliver world j msg')
      ((node.deliver world j msg').deliver world i msg) := by
  cases hi : node.hasObject i with
  | false =>
      rw [deliver_of_not_hasObject hi,
        deliver_of_not_hasObject ((hasObject_deliver world node j i msg').trans hi)]
      exact equivalence_sameUpToOrder.refl _
  | true =>
      cases hj : node.hasObject j with
      | false =>
          rw [deliver_of_not_hasObject hj,
            deliver_of_not_hasObject ((hasObject_deliver world node i j msg).trans hj)]
          exact equivalence_sameUpToOrder.refl _
      | true =>
          obtain ⟨topic, type, c, hat⟩ := hasObject_iff.mp hi
          obtain ⟨topic', type', c', hat'⟩ := hasObject_iff.mp hj
          obtain ⟨hid, _⟩ := h.numbered i topic type c hat
          obtain ⟨hid', _⟩ := h.numbered j topic' type' c' hat'
          have hother : c.id ≠ c'.id := by rwa [hid, hid']
          have hnext : ∀ members calls, ({ node with members, calls } : Node).attempts =
              node.attempts := fun _ _ => rfl
          rw [deliver_of_hasObject world hat, deliver_of_hasObject world hat',
            deliver_of_hasObject world ((congrArg (·[j]?) (hnext _ _)).trans hat'),
            deliver_of_hasObject world ((congrArg (·[i]?) (hnext _ _)).trans hat)]
          simp only [Function.update_of_ne hother, Function.update_of_ne hother.symm]
          refine ⟨by rw [Function.update_comm hother], ?_⟩
          rw [List.append_assoc, List.append_assoc]
          exact List.perm_append_comm.append_left _

/-- The messages for some of the objects can come first. -/
theorem deliverAll_partition {node : Node} (h : Objects node) (old : Nat → Bool)
    (messages : List (Nat × Message)) :
    SameUpToOrder (deliverAll world node messages)
      (deliverAll world (deliverAll world node (messages.filter fun d => old d.1))
        (messages.filter fun d => !old d.1)) := by
  have hcomm : ∀ (node : Node) (d d' : Nat × Message), old d.1 = true → old d'.1 = false →
      Objects node → SameUpToOrder ((node.deliver world d'.1 d'.2).deliver world d.1 d.2)
        ((node.deliver world d.1 d.2).deliver world d'.1 d'.2) := by
    intro node d d' hold hnew hobjects
    refine deliver_comm hobjects (fun heq => ?_) _ _
    rw [heq, hold] at hnew
    cases hnew
  have hstep : ∀ (node : Node) (d : Nat × Message), Objects node →
      Objects (node.deliver world d.1 d.2) := fun _ d hobjects => hobjects.step (.deliver d.1 d.2)
  have hmeets : Run.Meets (fun (node : Node) (d : Nat × Message) => node.deliver world d.1 d.2)
      (fun node d => old d.1 = false → Objects node) node messages :=
    Run.meets_of_keeps hstep (fun _ d hobjects (_ : old d.1 = false) => hobjects) h messages
  exact Run.run_first_rest equivalence_sameUpToOrder
    (fun _ _ d hsame => hsame.deliver d.1 d.2) hcomm (fun node d _ _ _ => hstep node d) hmeets

/-! ## What exists during an update -/

theorem Updating.holds_iff {s : Updating} {id : Nat} :
    s.holds id = true ↔ s.node.Holds id ∨ ∃ c ∈ s.converters, c.id = id := by
  rw [Updating.holds, Bool.or_eq_true, Node.holds_iff, List.any_eq_true]
  simp only [decide_eq_true_eq]

/-- What exists during an update of a node was held before it, or is constructed by it. -/
structure Tracked (node : Node) (s : Updating) : Prop where
  object : ∀ id, s.holds id = true → s.node.hasObject id = true
  old : ∀ id, id < node.attempts.length → s.holds id = true → node.Holds id
  grown : node.attempts <+: s.node.attempts

theorem hasObject_of_holds {node : Node} (h : Objects node) {id : Nat} (hholds : node.Holds id) :
    node.hasObject id = true := by
  obtain ⟨topic, converters, c, hlookup, hmem, rfl⟩ := hholds
  obtain ⟨type, hat⟩ := h.live topic converters hlookup c hmem
  exact hasObject_iff.mpr ⟨topic, type, c, hat⟩

theorem tracked_start {node : Node} (h : Objects node) (known : Bool) :
    Tracked node ⟨node, known, []⟩ := by
  have hheld : ∀ id, (⟨node, known, []⟩ : Updating).holds id = true → node.Holds id := by
    intro id hholds
    rcases Updating.holds_iff.mp hholds with hholds | ⟨c, hmem, _⟩
    · exact hholds
    · cases hmem
  exact ⟨fun id hholds => hasObject_of_holds h (hheld id hholds), fun id _ => hheld id,
    List.prefix_refl _⟩

/-- A step that constructs nothing only makes objects go. -/
theorem Tracked.of_fewer {node : Node} {s s' : Updating} (h : Tracked node s)
    (hfewer : ∀ id, s'.holds id = true → s.holds id = true)
    (hattempts : s'.node.attempts = s.node.attempts) : Tracked node s' where
  object := fun id hholds =>
    hasObject_of_grown (by rw [hattempts]) (h.object id (hfewer id hholds))
  old := fun id hid hholds => h.old id hid (hfewer id hholds)
  grown := by
    rw [hattempts]
    exact h.grown

/-- A converter that is there after a construction was there before, or is the new object. -/
theorem mem_tryConverter {stream : Option RecordingStream} {topic type : String} {s : Subscribing}
    {c : Converter} (h : c ∈ (tryConverter world stream topic s type).converters) :
    c ∈ s.converters ∨ (c.id = s.attempts.length ∧
      (tryConverter world stream topic s type).attempts[c.id]? = some ⟨topic, type, .ok c⟩) := by
  simp only [tryConverter] at h ⊢
  split at h
  · rename_i converter hresult
    refine (List.mem_append.mp h).imp_right fun hnew => ?_
    obtain rfl := List.mem_singleton.mp hnew
    have hid := (of_constructed hresult).2.2.2
    exact ⟨hid, by rw [hid, List.getElem?_concat_length, hresult]⟩
  · exact Or.inl h

theorem Tracked.construct {node : Node} {s : Updating} (h : Tracked node s)
    (topic type : String) : Tracked node (act world s (.construct topic type)) := by
  rw [act]
  split
  · exact h
  · have hgrown : s.node.attempts <+: (tryConverter world s.node.stream topic
        ⟨s.node.attempts, s.converters⟩ type).attempts := List.prefix_append _ _
    constructor
    case object =>
      intro id hholds
      rcases Updating.holds_iff.mp hholds with hheld | ⟨c, hmem, rfl⟩
      · exact hasObject_of_grown hgrown (h.object id (Updating.holds_iff.mpr (Or.inl hheld)))
      · rcases mem_tryConverter hmem with hold | ⟨_, hat⟩
        · exact hasObject_of_grown hgrown
            (h.object c.id (Updating.holds_iff.mpr (Or.inr ⟨c, hold, rfl⟩)))
        · exact hasObject_iff.mpr ⟨topic, type, c, hat⟩
    case old =>
      intro id hid hholds
      rcases Updating.holds_iff.mp hholds with hheld | ⟨c, hmem, rfl⟩
      · exact h.old id hid (Updating.holds_iff.mpr (Or.inl hheld))
      · rcases mem_tryConverter hmem with hold | ⟨hnew, _⟩
        · exact h.old c.id hid (Updating.holds_iff.mpr (Or.inr ⟨c, hold, rfl⟩))
        · rw [hnew] at hid
          exact absurd hid (Nat.not_lt.mpr h.grown.length_le)
    case grown => exact h.grown.trans hgrown

theorem Tracked.act {node : Node} {s : Updating} (h : Tracked node s) (op : UpdateStep) :
    Tracked node (act world s op) := by
  cases op with
  | construct topic type => exact h.construct topic type
  | erase topic =>
      refine h.of_fewer (fun id hholds => ?_) rfl
      rw [Updating.holds_iff] at hholds ⊢
      refine hholds.imp_left ?_
      rintro ⟨topic', converters, c, hlookup, hmem⟩
      exact ⟨topic', converters, c, (Assoc.lookup_erase_eq_some_iff.mp hlookup).2, hmem⟩
  | enter topic =>
      rw [Node.act]
      split
      · refine h.of_fewer (fun id hholds => ?_) rfl
        rw [Updating.holds_iff] at hholds ⊢
        refine Or.inl (hholds.resolve_right ?_)
        rintro ⟨c, hmem, _⟩
        cases hmem
      · rename_i existing hlookup
        refine h.of_fewer (fun id hholds => ?_) rfl
        rw [Updating.holds_iff] at hholds ⊢
        left
        rcases hholds with hheld | ⟨c, hmem, hid⟩
        · exact hheld
        · exact ⟨topic, existing, c, hlookup, hmem, hid⟩
  | leave topic types =>
      refine h.of_fewer (fun id hholds => ?_) rfl
      rw [Updating.holds_iff] at hholds ⊢
      rcases hholds with ⟨topic', converters, c, hlookup, hmem, hid⟩ | ⟨c, hmem, _⟩
      · rcases Assoc.lookup_insert_eq_some_iff.mp hlookup with ⟨rfl, rfl⟩ | ⟨_, hold⟩
        · refine Or.inr ⟨c, ?_, hid⟩
          split at hmem
          · rw [eraseUnneeded_eq_filter] at hmem
            exact (List.mem_filter.mp hmem).1
          · exact hmem
        · exact Or.inl ⟨topic', converters, c, hold, hmem, hid⟩
      · cases hmem
  | deliver i msg =>
      obtain ⟨members, calls, heq⟩ := deliver_frame world s.node i msg
      refine h.of_fewer (fun id hholds => ?_) ?_
      · rw [Node.act, heq] at hholds
        exact hholds
      · rw [Node.act, heq]

/-! ## The whole run -/

/-- The steps of a run that were possible. -/
def happened (world : World) (s : Updating) (steps : List UpdateStep) : List UpdateStep :=
  Run.history (updateStep world) (fun s op => if op.possible s then [op] else []) s steps

theorem updateStep_eq (world : World) (s : Updating) (op : UpdateStep) :
    updateStep world s op = Run.run (act world) s (if op.possible s then [op] else []) := by
  unfold updateStep
  split <;> rfl

theorem filter_happened (world : World) (s : Updating) (steps : List UpdateStep) :
    (happened world s steps).filter UpdateStep.ofUpdate = steps.filter UpdateStep.ofUpdate := by
  unfold happened
  induction steps generalizing s with
  | nil => rfl
  | cons op steps ih =>
      rw [Run.history, List.filter_append, ih]
      cases op with
      | deliver i msg =>
          have hnone : (if UpdateStep.possible s (.deliver i msg) then
              [UpdateStep.deliver i msg] else []).filter UpdateStep.ofUpdate = [] := by
            split <;> rfl
          rw [hnone]
          rfl
      | erase topic | enter topic | construct topic type | leave topic types => rfl

/-- Every message was for an object that has been constructed and still is at the end, and an
old one was held before the update. -/
theorem Tracked.arrivals {node : Node} {s : Updating} (h : Tracked node s)
    {steps : List UpdateStep}
    (hpossible : Run.Meets (Node.act world) (fun s op => op.possible s = true) s steps) :
    Run.Meets (Node.act world) AtObject s steps ∧
      ∀ d ∈ Node.arrivals steps, (d.1 < node.attempts.length → node.Holds d.1) ∧
        (Run.run (Node.act world) s steps).node.hasObject d.1 = true := by
  induction steps generalizing s with
  | nil => exact ⟨trivial, fun d hd => by cases hd⟩
  | cons op steps ih =>
      obtain ⟨hop, hrest⟩ := hpossible
      obtain ⟨hmeets, hlater⟩ := ih (h.act op) hrest
      cases op with
      | deliver i msg =>
          have hobject : s.node.hasObject i = true := h.object i hop
          refine ⟨⟨hobject, hmeets⟩, List.forall_mem_cons.mpr ⟨⟨fun hi => h.old i hi hop, ?_⟩,
            hlater⟩⟩
          have hstep : ∀ (s' : Updating) (op : UpdateStep),
              s.node.attempts <+: s'.node.attempts →
              s.node.attempts <+: (Node.act world s' op).node.attempts :=
            fun s' op hgrown => hgrown.trans (attempts_act world s' op)
          exact hasObject_of_grown
            (Run.run_keeps hstep (List.prefix_refl _) (.deliver i msg :: steps)) hobject
      | erase topic | enter topic | construct topic type | leave topic types =>
          exact ⟨⟨trivial, hmeets⟩, hlater⟩

/-- A message goes to an object that is held. -/
def ToHeld (node : Node) : Event → Prop
  | .deliver i _ => node.Holds i
  | .updateSubscriptions _ => True
  | .onTimer => True

/-- The messages for the objects that were there before an update, the update, and the messages
for the objects that it constructs. -/
def inSequence (node : Node) (m : TopicMap) (messages : List (Nat × Message)) : List Event :=
  (messages.filter fun d => d.1 < node.attempts.length).map (fun d => .deliver d.1 d.2) ++
    .updateSubscriptions m ::
      (messages.filter fun d => !decide (d.1 < node.attempts.length)).map
        fun d => .deliver d.1 d.2

theorem run_deliveries (world : World) (node : Node) (messages : List (Nat × Message)) :
    Run.run (step world) node (messages.map fun d => .deliver d.1 d.2) =
      deliverAll world node messages :=
  List.foldl_map

theorem toHeld_deliveries {node : Node} {messages : List (Nat × Message)}
    (h : ∀ d ∈ messages, node.Holds d.1) :
    Run.Meets (step world) ToHeld node (messages.map fun d => .deliver d.1 d.2) := by
  induction messages generalizing node with
  | nil => trivial
  | cons d messages ih =>
      refine ⟨h d List.mem_cons_self, ih fun d' hmem => ?_⟩
      obtain ⟨members, calls, heq⟩ := deliver_frame world node d.1 d.2
      rw [step, heq]
      exact h d' (List.mem_cons_of_mem d hmem)

/-- After every run, and however messages fall between the steps of an update: the node ends, up
to the order of the calls that different objects have made, as after a run in which the
messages for the objects that were there before come first, then the whole update, and then
the messages for the objects that it has constructed; and in that run every message is for
an object that is held when it arrives. -/
theorem updateSubscriptions_interleaved (world : World) (shared : Bool)
    (stream : Option RecordingStream) (events : List Event) {node : Node}
    (hnode : Run.run (step world) (init shared stream) events = node) (m : TopicMap)
    (steps : List UpdateStep) (hupdate : steps.filter UpdateStep.ofUpdate = node.updateProgram m) :
    SameUpToOrder (Run.run (updateStep world) ⟨node, false, []⟩ steps).node
        (Run.run (step world) node
          (inSequence node m (arrivals (happened world ⟨node, false, []⟩ steps)))) ∧
      Run.Meets (step world) ToHeld node
        (inSequence node m (arrivals (happened world ⟨node, false, []⟩ steps))) := by
  have hobjects : Objects node := hnode ▸ objects_run world shared stream events
  have hrun : Run.run (updateStep world) ⟨node, false, []⟩ steps =
      Run.run (act world) ⟨node, false, []⟩ (happened world ⟨node, false, []⟩ steps) :=
    @Run.run_simulates _ _ _ _ (updateStep world) (act world) id _ (updateStep_eq world) _ steps
  have hpossible : Run.Meets (act world) (fun s op => op.possible s = true) ⟨node, false, []⟩
      (happened world ⟨node, false, []⟩ steps) := by
    refine @Run.meets_simulates _ _ _ _ (updateStep world) (act world) _ id _
      (updateStep_eq world) (fun s op => ?_) _ steps
    split
    · rename_i hop
      exact ⟨hop, trivial⟩
    · trivial
  obtain ⟨hmeets, harrived⟩ := (tracked_start hobjects false).arrivals hpossible
  rw [← filter_happened world ⟨node, false, []⟩ steps] at hupdate
  have hlast := run_act_eq world node m hupdate hmeets
  rw [hrun]
  generalize happened world ⟨node, false, []⟩ steps = possible at *
  have hold : ∀ d ∈ (arrivals possible).filter fun d => decide (d.1 < node.attempts.length),
      node.Holds d.1 := by
    intro d hd
    obtain ⟨hmem, hlt⟩ := List.mem_filter.mp hd
    exact (harrived d hmem).1 (of_decide_eq_true hlt)
  have hswapped := deliverAll_updateSubscriptions world m
    fun d hd => hasObject_of_holds hobjects (hold d hd)
  constructor
  · rw [hlast, inSequence, Run.run_append, Run.run_cons, run_deliveries, run_deliveries, step,
      hswapped]
    exact deliverAll_partition (hobjects.updateSubscriptions m)
      (fun i => decide (i < node.attempts.length)) _
  · rw [inSequence, Run.meets_append, run_deliveries]
    refine ⟨toHeld_deliveries hold, trivial, toHeld_deliveries fun d hd => ?_⟩
    obtain ⟨hmem, hnew⟩ := List.mem_filter.mp hd
    have hobject := (harrived d hmem).2
    obtain ⟨members, calls, hframe⟩ :=
      deliverAll_frame world (node.updateSubscriptions world m) (arrivals possible)
    rw [hlast, hframe] at hobject
    obtain ⟨topic, type, c, hat⟩ := hasObject_iff.mp hobject
    have hholds := holds_of_new hobjects (by simpa using hnew) hat
    rw [step, hswapped]
    obtain ⟨members', calls', hframe'⟩ := deliverAll_frame world (node.updateSubscriptions world m)
      ((arrivals possible).filter fun d => decide (d.1 < node.attempts.length))
    rw [hframe']
    exact hholds

/-- A grey pixel. -/
def pixel (value : UInt8) : Message := .image ⟨1, 1, "mono8", 0, 1, [value]⟩

/-- An image topic is replaced by another one.  A message comes before the old object is
dropped, one when it is gone, and one when the new object is not yet entered. -/
theorem updateSubscriptions_interleaved_images :
    (Run.run (updateStep World.reliable)
      ⟨Run.run (step World.reliable) (init true (some ⟨0⟩))
        [.updateSubscriptions (AList.singleton "/a" ["sensor_msgs/msg/Image"])], false, []⟩
      [.deliver 0 (pixel 7), .erase "/a", .deliver 0 (pixel 8), .enter "/b",
        .construct "/b" "sensor_msgs/msg/Image", .deliver 1 (pixel 9),
        .leave "/b" ["sensor_msgs/msg/Image"]]).node.calls.Perm
      [.log ⟨"/a/Image", .image ⟨[7], 1, 1, .grayscale8⟩⟩,
        .log ⟨"/b/Image", .image ⟨[9], 1, 1, .grayscale8⟩⟩] :=
  (updateSubscriptions_interleaved World.reliable true (some ⟨0⟩)
    [.updateSubscriptions (AList.singleton "/a" ["sensor_msgs/msg/Image"])] rfl
    (AList.singleton "/b" ["sensor_msgs/msg/Image"])
    [.deliver 0 (pixel 7), .erase "/a", .deliver 0 (pixel 8), .enter "/b",
      .construct "/b" "sensor_msgs/msg/Image", .deliver 1 (pixel 9),
      .leave "/b" ["sensor_msgs/msg/Image"]] rfl).1.calls

end RerunViz.Node
