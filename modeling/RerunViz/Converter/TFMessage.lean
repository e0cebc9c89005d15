import RerunViz.TFGraph.Log

set_option autoImplicit false

/-!
# `TFMessage`

The converter of transform messages keeps one graph for all messages it gets.  The factory
does not construct it.  A message is worked off transform by transform: one that would
close a cycle is skipped with a warning, and an exception ends the callback.
-/

namespace RerunViz

/-- `tf2_msgs::msg::TFMessage`. -/
structure Tf2Msgs.TFMessage where
  transforms : List TransformStamped

namespace TFMessage

open TFGraph

variable {Time : Type}

/-- Where the loop of the callback stands when it ends: the graph, the transforms it warned
about, and whether an exception ended it. -/
structure Processed (Time : Type) where
  graph : TFGraph Time
  warned : List TransformStamped
  ended : Except Exception Unit

/-- The loop over the transforms of a message. -/
def processTransforms (rosTime : Stamp → Except Exception Time) :
    TFGraph Time → List TransformStamped → Processed Time
  | g, [] => ⟨g, [], .ok ()⟩
  | g, tfStamped :: rest =>
      match g.addTransform rosTime tfStamped with
      | (.error e, g') => ⟨g', [], .error e⟩
      | (.ok false, g') =>
          let r := processTransforms rosTime g' rest
          { r with warned := tfStamped :: r.warned }
      | (.ok true, g') => processTransforms rosTime g' rest

/-- What a callback leaves behind: the loop's outcome, and what was logged.  `none` would be
a walk to the root that does not return. -/
structure Delivered (Time : Type) extends Processed Time where
  records : Option (List (Record Transform3D))

/-- `TFMessage::topic_callback` on the graph of the object; `order` is the iteration order
of `transforms_`.  The statistics only reach a debug line. -/
def topicCallback (rosTime : Stamp → Except Exception Time)
    (order : TFGraph Time → List (Sigma fun _ : String => TransformData Time))
    (stream : Option RecordingStream) (g : TFGraph Time) (msg : Tf2Msgs.TFMessage) :
    Delivered Time :=
  match stream with
  | none => ⟨⟨g, [], .ok ()⟩, some []⟩
  | some _ =>
      let r := processTransforms rosTime g msg.transforms
      match r.ended with
      | .error _ => ⟨r, some []⟩
      | .ok () => ⟨r, r.graph.logToRerun (order r.graph) stream⟩

theorem topicCallback_toProcessed (rosTime : Stamp → Except Exception Time)
    (order : TFGraph Time → List (Sigma fun _ : String => TransformData Time))
    (stream : RecordingStream) (g : TFGraph Time) (msg : Tf2Msgs.TFMessage) :
    (topicCallback rosTime order (some stream) g msg).toProcessed =
      processTransforms rosTime g msg.transforms := by
  unfold topicCallback
  dsimp only
  split <;> rfl

/-- A transform that closes a cycle is warned about and changes nothing; any other enters its
edge, and ends the loop if its stamp is not accepted. -/
theorem processTransforms_cons (rosTime : Stamp → Except Exception Time) (g : TFGraph Time)
    (tf : TransformStamped) (rest : List TransformStamped) :
    (g.wouldCreateCycle tf.header.frameId tf.childFrameId = true ∧
        processTransforms rosTime g (tf :: rest) =
          { processTransforms rosTime g rest with
            warned := tf :: (processTransforms rosTime g rest).warned }) ∨
      (g.wouldCreateCycle tf.header.frameId tf.childFrameId = false ∧
        ∃ e, rosTime tf.header.stamp = .error e ∧
          processTransforms rosTime g (tf :: rest) = ⟨g.add rosTime tf, [], .error e⟩) ∨
      (g.wouldCreateCycle tf.header.frameId tf.childFrameId = false ∧
        (rosTime tf.header.stamp).isOk = true ∧
          processTransforms rosTime g (tf :: rest) =
            processTransforms rosTime (g.add rosTime tf) rest) := by
  rcases addTransform_cases rosTime g tf with
    ⟨hcyc, heq⟩ | ⟨hcyc, e, htime, heq⟩ | ⟨hcyc, time, htime, heq⟩
  · refine Or.inl ⟨hcyc, ?_⟩
    rw [processTransforms, heq]
  · refine Or.inr (Or.inl ⟨hcyc, e, htime, ?_⟩)
    rw [processTransforms, TFGraph.add, heq]
  · refine Or.inr (Or.inr ⟨hcyc, by rw [htime]; rfl, ?_⟩)
    rw [processTransforms, TFGraph.add, heq]

section OneTransform

variable {rosTime : Stamp → Except Exception Time} {g : TFGraph Time} {tf : TransformStamped}

theorem processTransforms_reject
    (hcyc : g.wouldCreateCycle tf.header.frameId tf.childFrameId = true)
    (rest : List TransformStamped) :
    processTransforms rosTime g (tf :: rest) =
      { processTransforms rosTime g rest with
        warned := tf :: (processTransforms rosTime g rest).warned } := by
  rcases processTransforms_cons rosTime g tf rest with ⟨_, heq⟩ | ⟨hfalse, _⟩ | ⟨hfalse, _⟩
  · exact heq
  · rw [hcyc] at hfalse
    cases hfalse
  · rw [hcyc] at hfalse
    cases hfalse

theorem processTransforms_throw
    (hcyc : g.wouldCreateCycle tf.header.frameId tf.childFrameId = false) {e : Exception}
    (htime : rosTime tf.header.stamp = .error e) (rest : List TransformStamped) :
    processTransforms rosTime g (tf :: rest) = ⟨g.add rosTime tf, [], .error e⟩ := by
  rcases processTransforms_cons rosTime g tf rest with
    ⟨htrue, _⟩ | ⟨_, e', htime', heq⟩ | ⟨_, hok, _⟩
  · rw [hcyc] at htrue
    cases htrue
  · rw [heq, ← Except.error.inj (htime.symm.trans htime')]
  · rw [htime] at hok
    cases hok

theorem processTransforms_enter
    (hcyc : g.wouldCreateCycle tf.header.frameId tf.childFrameId = false)
    (hok : (rosTime tf.header.stamp).isOk = true) (rest : List TransformStamped) :
    processTransforms rosTime g (tf :: rest) =
      processTransforms rosTime (g.add rosTime tf) rest := by
  rcases processTransforms_cons rosTime g tf rest with
    ⟨htrue, _⟩ | ⟨_, e, htime, _⟩ | ⟨_, _, heq⟩
  · rw [hcyc] at htrue
    cases htrue
  · rw [htime] at hok
    cases hok
  · exact heq

end OneTransform

end TFMessage

end RerunViz
