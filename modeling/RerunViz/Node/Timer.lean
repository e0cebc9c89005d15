import Mathlib.Data.List.Forall2
import RerunViz.Node.Objects

set_option autoImplicit false

/-!
# The tick of the timer

A tick goes through the topics in the order of their names and through the converters of
each, and handles their requests one after the other.  Every request has a lookup of its
own: what that returns is logged, what it throws is only warned about, and the requests
behind it are handled all the same (`ticked_onTimer`).
-/

namespace RerunViz.Node

variable {world : World}

/-- What is logged for a request when the lookup has returned a transform: its rotation, with
its translation unless only the rotation was asked for. -/
structure Shows (req : TFRequest) (tf : TransformStamped) (transform : Transform3D) : Prop where
  translation : req.tfType = .translationAndRotation →
    transform.translation = some ⟨staticCastFloat tf.transform.translation.x,
      staticCastFloat tf.transform.translation.y, staticCastFloat tf.transform.translation.z⟩
  rotation_only : req.tfType = .rotationOnly → transform.translation = some ⟨0, 0, 0⟩
  quaternion : transform.quaternion = some ⟨staticCastFloat tf.transform.rotation.x,
    staticCastFloat tf.transform.rotation.y, staticCastFloat tf.transform.rotation.z,
    staticCastFloat tf.transform.rotation.w⟩
  relation : transform.relation = some .parentFromChild
  axisLength : transform.axisLength = none

/-- What comes of a request, by the outcome of its lookup: how it was handled, and the calls
on the stream. -/
inductive ComesOf (req : TFRequest) :
    Except Exception TransformStamped → Handled → List LogCall → Prop
  | logged {tf : TransformStamped} {transform : Transform3D} (h : Shows req tf transform) :
      ComesOf req (.ok tf) (.logged transform)
        [.log ⟨req.rerunEntityPath, .transform3D transform⟩]
  | warned (what : Exception) : ComesOf req (.error what) (.warned what) []

/-- The requests of the converters of some topics. -/
def requestsOf (node : Node) (topics : List (Sigma fun _ : String => List Converter)) :
    List TFRequest :=
  topics.flatMap fun entry =>
    entry.2.flatMap fun converter => converter.getTfRequests (node.members converter.id)

/-- What a tick does to a node: the requests of all topics, by name, are handled once each,
with what their lookups give. -/
structure Ticked (world : World) (node node' : Node)
    (topics : List (Sigma fun _ : String => List Converter))
    (outcomes : List (Handled × List LogCall)) : Prop where
  all : topics.Perm node.subscriptions.entries
  by_name : topics.Pairwise fun entry entry' => entry.1 < entry'.1
  each : List.Forall₂
    (fun request outcome => ComesOf request.1
      (world.lookupTransform request.2 request.1.rosParentFrameId request.1.rosChildFrameId)
      outcome.1 outcome.2)
    ((requestsOf node topics).zipIdx node.handled.length) outcomes
  handled : node'.handled =
    node.handled ++ (requestsOf node topics).zip (outcomes.map Prod.fst)
  calls : node'.calls = node.calls ++ outcomes.flatMap Prod.snd

/-! ## One request -/

theorem shows_translationAndRotation {req : TFRequest} (h : req.tfType = .translationAndRotation)
    (tf : TransformStamped) : Shows req tf (convertTransformToRerun tf.transform) where
  translation := fun _ => rfl
  rotation_only := fun hrotation => by rw [h] at hrotation; cases hrotation
  quaternion := rfl
  relation := rfl
  axisLength := rfl

theorem shows_rotationOnly {req : TFRequest} (h : req.tfType = .rotationOnly)
    (tf : TransformStamped) :
    Shows req tf ((convertTransformToRerun tf.transform).withTranslation ⟨0, 0, 0⟩) where
  translation := fun hboth => by rw [h] at hboth; cases hboth
  rotation_only := fun _ => rfl
  quaternion := rfl
  relation := rfl
  axisLength := rfl

theorem comesOf_handleTfRequest {node : Node} {stream : RecordingStream}
    (hstream : node.stream = some stream) (req : TFRequest) :
    ComesOf req
      (world.lookupTransform node.handled.length req.rosParentFrameId req.rosChildFrameId)
      (node.handleTfRequest world req) ((node.handleTfRequest world req).calls req) := by
  unfold handleTfRequest
  cases world.lookupTransform node.handled.length req.rosParentFrameId req.rosChildFrameId with
  | error what => exact .warned what
  | ok tf =>
      simp only [hstream]
      cases htype : req.tfType with
      | translationAndRotation => exact .logged (shows_translationAndRotation htype tf)
      | rotationOnly => exact .logged (shows_rotationOnly htype tf)

/-! ## All requests -/

/-- The rounds of the timer: each request is the next lookup. -/
theorem foldl_handleRequest {stream : RecordingStream} (requests : List TFRequest) {node : Node}
    (hstream : node.stream = some stream) :
    ∃ outcomes : List (Handled × List LogCall),
      List.Forall₂
        (fun request outcome => ComesOf request.1
          (world.lookupTransform request.2 request.1.rosParentFrameId request.1.rosChildFrameId)
          outcome.1 outcome.2)
        (requests.zipIdx node.handled.length) outcomes ∧
      (requests.foldl (handleRequest world) node).handled =
        node.handled ++ requests.zip (outcomes.map Prod.fst) ∧
      (requests.foldl (handleRequest world) node).calls =
        node.calls ++ outcomes.flatMap Prod.snd := by
  induction requests generalizing node with
  | nil => exact ⟨[], .nil, (List.append_nil _).symm, (List.append_nil _).symm⟩
  | cons req requests ih =>
      have hnext : (node.handleRequest world req).stream = some stream := hstream
      obtain ⟨outcomes, heach, hhandled, hcalls⟩ := ih hnext
      refine ⟨(node.handleTfRequest world req, (node.handleTfRequest world req).calls req) ::
        outcomes, ?_, ?_, ?_⟩
      · rw [List.zipIdx_cons]
        refine .cons (comesOf_handleTfRequest hstream req) ?_
        have hlength : (node.handleRequest world req).handled.length = node.handled.length + 1 :=
          List.length_append
        rw [← hlength]
        exact heach
      · rw [List.foldl_cons, hhandled, List.map_cons, List.zip_cons_cons]
        exact List.append_assoc _ _ _
      · rw [List.foldl_cons, hcalls, List.flatMap_cons]
        exact List.append_assoc _ _ _

theorem perm_byTopic (node : Node) : node.byTopic.Perm node.subscriptions.entries :=
  List.perm_insertionSort _ _

/-- No topic is visited twice, so that the order by name is strict. -/
theorem pairwise_byTopic (node : Node) :
    node.byTopic.Pairwise fun entry entry' => entry.1 < entry'.1 := by
  have hle : node.byTopic.Pairwise fun entry entry' => entry.1 ≤ entry'.1 := by
    have htotal : Std.Total fun entry entry' : Sigma fun _ : String => List Converter =>
        entry.1 ≤ entry'.1 := ⟨fun entry entry' => le_total entry.1 entry'.1⟩
    have htrans : IsTrans _ fun entry entry' : Sigma fun _ : String => List Converter =>
        entry.1 ≤ entry'.1 := ⟨fun _ _ _ => le_trans⟩
    exact List.pairwise_insertionSort _ _
  have hne : node.byTopic.Pairwise fun entry entry' => entry.1 ≠ entry'.1 :=
    ((List.perm_nodupKeys node.perm_byTopic).mpr node.subscriptions.nodupKeys).pairwise_ne
  exact (hle.and hne).imp fun h => lt_of_le_of_ne h.1 h.2

/-- Every tick of a node with a stream. -/
theorem ticked_onTimer {node : Node} {stream : RecordingStream}
    (hstream : node.stream = some stream) (hbuffer : node.tfBuffer = true) :
    ∃ outcomes, Ticked world node (node.onTimer world) node.byTopic outcomes := by
  obtain ⟨outcomes, heach, hhandled, hcalls⟩ :=
    @foldl_handleRequest world stream node.tfRequests node hstream
  rw [onTimer, if_pos hbuffer]
  exact ⟨outcomes, node.perm_byTopic, node.pairwise_byTopic, heach, hhandled, hcalls⟩

end RerunViz.Node
