import RerunViz.Node.Replay
import RerunViz.Utils.Namespace

set_option autoImplicit false

/-!
# Who writes where

A converter makes its entity paths from the name of its topic, without asking which other
paths there are.  Topic names are arbitrary, and one may well contain the suffixes that
converters add.  Even so, among the objects the path of a point cloud, an image or a
component of an IMU belongs to one topic and one class alone; and the images of a camera
lie below the entity of its pinhole (`entities_owned`).  The timer writes where the
requests say, which may be anywhere.
-/

namespace RerunViz.Node

open Components

variable {world : World}

/-! ## The calls of a class -/

/-- What the classes add to their topics. -/
def entitySuffixes : ConverterClass → List String
  | .pointCloud2 => ["/PointCloud2"]
  | .imu =>
      ["/Imu/angular_velocity/x", "/Imu/angular_velocity/y", "/Imu/angular_velocity/z",
        "/Imu/linear_acceleration/x", "/Imu/linear_acceleration/y", "/Imu/linear_acceleration/z",
        "/Imu/orientation"]
  | .image => ["/Image", "/DepthImage"]
  | .cameraInfo => []
  | .robotDescription => []

/-- A call that an object can make: data below its topic, the pinhole of its camera, or a file
for its robot. -/
inductive CallOf (c : Converter) : LogCall → Prop
  | data {suffix : String} (archetype : Archetype) (h : suffix ∈ entitySuffixes c.cls) :
      CallOf c (.log ⟨c.topicName ++ suffix, archetype⟩)
  | pinhole {ns : String} (pinhole : Pinhole) (hcls : c.cls = .cameraInfo)
      (hns : getCameraNamespaceFromTopic c.topicName = .ok ns) :
      CallOf c (.log ⟨ns, .pinhole pinhole⟩)
  | file (contents : String) (hcls : c.cls = .robotDescription) :
      CallOf c (.logFileFromContents "robot.urdf" contents (c.topicName ++ "/RobotDescription"))

section Callbacks

variable {c : Converter} {members : Members} {call : LogCall}

theorem callOf_append {c : Converter} (base : String) {suffix : String} (archetype : Archetype)
    (h : base ++ suffix ∈ entitySuffixes c.cls) :
    CallOf c (.log ⟨c.topicName ++ base ++ suffix, archetype⟩) := by
  rw [String.append_assoc]
  exact .data archetype h

theorem callOf_imu (hcls : c.cls = .imu) {msg : SensorMsgs.Imu}
    (h : call ∈ (Imu.topicCallback c members msg).calls) : CallOf c call := by
  unfold Imu.topicCallback at h
  split at h
  · cases h
  · have hvector : ∀ base (v : Vector3),
        (∀ axis ∈ ["/x", "/y", "/z"], base ++ axis ∈ entitySuffixes c.cls) →
        call ∈ Imu.logVector (c.topicName ++ base) v → CallOf c call := by
      intro base v hbase hmem
      simp only [Imu.logVector, List.mem_cons, List.not_mem_nil, or_false] at hmem
      rcases hmem with rfl | rfl | rfl
      · exact callOf_append base _ (hbase "/x" (by simp))
      · exact callOf_append base _ (hbase "/y" (by simp))
      · exact callOf_append base _ (hbase "/z" (by simp))
    rcases List.mem_append.mp h with hvectors | horientation
    · rcases List.mem_append.mp hvectors with hmem | hmem
      · split at hmem
        · apply hvector "/Imu/angular_velocity" _ _ hmem
          rw [hcls]
          decide
        · cases hmem
      · split at hmem
        · apply hvector "/Imu/linear_acceleration" _ _ hmem
          rw [hcls]
          decide
        · cases hmem
    · split at horientation
      · obtain rfl := List.mem_singleton.mp horientation
        exact .data _ (by rw [hcls]; decide)
      · cases horientation

theorem callOf_image (hcls : c.cls = .image) {msg : SensorMsgs.Image}
    (h : call ∈ (Image.topicCallback c members msg).calls) : CallOf c call := by
  unfold Image.topicCallback at h
  split at h
  · cases h
  · split at h
    · cases h
    · rename_i suffix archetype harchetype
      obtain rfl := List.mem_singleton.mp h
      have hsuffix : suffix = "/Image" ∨ suffix = "/DepthImage" := by
        unfold Image.archetypeFor at harchetype
        grind
      refine .data archetype ?_
      rw [hcls]
      rcases hsuffix with rfl | rfl <;> decide

theorem callOf_pointCloud2 (hcls : c.cls = .pointCloud2) {msg : SensorMsgs.PointCloud2}
    (h : call ∈ (PointCloud2.topicCallback c members msg).calls) : CallOf c call := by
  unfold PointCloud2.topicCallback at h
  split at h
  · cases h
  · split at h
    · cases h
    · obtain rfl := List.mem_singleton.mp h
      exact .data _ (by rw [hcls]; decide)

theorem callOf_cameraInfo (hcls : c.cls = .cameraInfo) {msg : SensorMsgs.CameraInfo}
    (h : call ∈ (CameraInfo.topicCallback world.fromCameraInfo c members msg).calls) :
    CallOf c call := by
  unfold CameraInfo.topicCallback at h
  split at h
  · cases h
  · split at h
    · cases h
    · rename_i hns
      split at h
      · cases h
      · split at h
        · cases h
        · obtain rfl := List.mem_singleton.mp h
          exact .pinhole _ hcls hns

theorem callOf_robotDescription (hcls : c.cls = .robotDescription) {data : String}
    (h : call ∈ (RobotDescription.topicCallback world.initString world.stackDepth c members
      data).calls) : CallOf c call := by
  unfold RobotDescription.topicCallback at h
  split at h
  · cases h
  · dsimp only at h
    split at h
    · cases h
    · split at h
      · cases h
      · obtain rfl := List.mem_singleton.mp h
        exact .file _ hcls

/-- Whatever the message, an object makes calls of its own only. -/
theorem callOf_topicCallback {msg : Message}
    (h : call ∈ (c.topicCallback world members msg).calls) : CallOf c call := by
  cases msg with
  | pointCloud2 msg =>
      rw [Converter.topicCallback] at h
      split at h
      · rename_i hcls
        exact callOf_pointCloud2 hcls h
      · cases h
  | imu msg =>
      rw [Converter.topicCallback] at h
      split at h
      · rename_i hcls
        exact callOf_imu hcls h
      · cases h
  | image msg =>
      rw [Converter.topicCallback] at h
      split at h
      · rename_i hcls
        exact callOf_image hcls h
      · cases h
  | cameraInfo msg =>
      rw [Converter.topicCallback] at h
      split at h
      · rename_i hcls
        exact callOf_cameraInfo hcls h
      · cases h
  | string data =>
      rw [Converter.topicCallback] at h
      split at h
      · rename_i hcls
        exact callOf_robotDescription hcls h
      · cases h

end Callbacks

/-! ## The calls of a run -/

/-- Where a call comes from: an object that makes calls of this kind, or a request that the timer
has handled. -/
inductive MadeBy (node : Node) : Source × LogCall → Prop
  | object {id : Nat} {topic type : String} {c : Converter} {call : LogCall}
      (hat : node.attempts[id]? = some ⟨topic, type, .ok c⟩) (h : CallOf c call) :
      MadeBy node (.object id, call)
  | timer {req : TFRequest} {transform : Transform3D}
      (h : (req, Handled.logged transform) ∈ node.handled) :
      MadeBy node (.timer, .log ⟨req.rerunEntityPath, .transform3D transform⟩)

/-- The calls for handled requests. -/
theorem mem_loggedFor {handled : List (TFRequest × Handled)} {call : LogCall}
    (h : call ∈ loggedFor handled) : ∃ req transform, (req, Handled.logged transform) ∈ handled ∧
      call = .log ⟨req.rerunEntityPath, .transform3D transform⟩ := by
  obtain ⟨⟨req, outcome⟩, hmem, hcall⟩ := List.mem_flatMap.mp h
  cases outcome with
  | logged transform => exact ⟨req, transform, hmem, List.mem_singleton.mp hcall⟩
  | warned what => cases hcall
  | nullDereference => cases hcall

/-- The objects of a run make calls of their own. -/
theorem callOf_callsBy {node : Node} {event : Event} {id : Nat} {call : LogCall}
    (h : (.object id, call) ∈ callsBy world node event) :
    ∃ topic type c, node.attempts[id]? = some ⟨topic, type, .ok c⟩ ∧ CallOf c call := by
  cases event with
  | updateSubscriptions m => cases h
  | onTimer =>
      obtain ⟨_, _, heq⟩ := List.mem_map.mp h
      exact absurd (congrArg Prod.fst heq).symm (object_ne_timer id)
  | deliver i msg =>
      cases hobject : node.hasObject i with
      | false =>
          rw [callsBy_of_not_hasObject world hobject] at h
          cases h
      | true =>
          obtain ⟨topic, type, c, hat⟩ := hasObject_iff.mp hobject
          rw [callsBy_of_object world hat] at h
          obtain ⟨call', hcall, heq⟩ := List.mem_map.mp h
          obtain ⟨hid, rfl⟩ := Prod.mk.inj heq
          obtain rfl := Source.object.inj hid
          exact ⟨topic, type, c, hat, callOf_topicCallback hcall⟩

theorem callOf_allCalls {stream : Option RecordingStream} {events : List Event} {id : Nat}
    {call : LogCall} (h : (.object id, call) ∈ allCalls world stream events) :
    ∃ topic type c,
      (Run.run (step world) (init true stream) events).attempts[id]? =
        some ⟨topic, type, .ok c⟩ ∧ CallOf c call := by
  induction events using List.reverseRecOn with
  | nil => cases h
  | append_singleton events event ih =>
      have hgrown := attempts_step world (Run.run (step world) (init true stream) events) event
      unfold allCalls at h ih
      rw [Run.history_concat] at h
      rw [Run.run_append, Run.run_singleton]
      have hbefore : ∃ topic type c,
          (Run.run (step world) (init true stream) events).attempts[id]? =
            some ⟨topic, type, .ok c⟩ ∧ CallOf c call :=
        (List.mem_append.mp h).elim ih callOf_callsBy
      obtain ⟨topic, type, c, hat, hcall⟩ := hbefore
      exact ⟨topic, type, c, getElem?_of_grown hgrown hat, hcall⟩

/-- Every call of a run is one of the object that has made it, or of the timer. -/
theorem madeBy_allCalls {stream : Option RecordingStream} {events : List Event}
    {entry : Source × LogCall} (h : entry ∈ allCalls world stream events) :
    MadeBy (Run.run (step world) (init true stream) events) entry := by
  obtain ⟨source, call⟩ := entry
  cases source with
  | object id =>
      obtain ⟨topic, type, c, hat, hcall⟩ := callOf_allCalls h
      exact .object hat hcall
  | timer =>
      have hmem : call ∈ callsFrom .timer (allCalls world stream events) :=
        List.mem_map.mpr ⟨(.timer, call), List.mem_filter.mpr ⟨h, decide_eq_true rfl⟩, rfl⟩
      rw [(replays_run world stream events).timer] at hmem
      obtain ⟨req, transform, hhandled, rfl⟩ := mem_loggedFor hmem
      exact .timer hhandled

/-! ## Paths and their owners -/

/-- Every suffix that a class adds. -/
def allSuffixes : List String :=
  entitySuffixes .pointCloud2 ++ entitySuffixes .imu ++ entitySuffixes .image

theorem mem_allSuffixes {cls : ConverterClass} {suffix : String}
    (h : suffix ∈ entitySuffixes cls) : suffix ∈ allSuffixes := by
  unfold allSuffixes
  cases cls with
  | pointCloud2 => exact List.mem_append_left _ (List.mem_append_left _ h)
  | imu => exact List.mem_append_left _ (List.mem_append_right _ h)
  | image => exact List.mem_append_right _ h
  | cameraInfo => cases h
  | robotDescription => cases h

/-- No suffix ends in another. -/
theorem suffix_free : ∀ suffix ∈ allSuffixes, ∀ suffix' ∈ allSuffixes,
    suffix.toList <:+ suffix'.toList → suffix = suffix' := by
  decide

/-- No suffix belongs to two classes. -/
theorem class_of_suffix {cls cls' : ConverterClass} {suffix : String}
    (h : suffix ∈ entitySuffixes cls) (h' : suffix ∈ entitySuffixes cls') : cls = cls' := by
  have hdisjoint : ∀ cls ∈ [ConverterClass.pointCloud2, .imu, .image, .cameraInfo,
      .robotDescription], ∀ cls' ∈ [ConverterClass.pointCloud2, .imu, .image, .cameraInfo,
      .robotDescription], ∀ suffix ∈ entitySuffixes cls, suffix ∈ entitySuffixes cls' →
        cls = cls' := by
    decide
  exact hdisjoint cls (by cases cls <;> simp) cls' (by cases cls' <;> simp) suffix h h'

/-- A path determines the topic and the suffix that it is made of, even where the topic contains
suffixes itself. -/
theorem path_injective {topic topic' suffix suffix' : String} (hs : suffix ∈ allSuffixes)
    (hs' : suffix' ∈ allSuffixes) (h : topic ++ suffix = topic' ++ suffix') :
    topic = topic' ∧ suffix = suffix' := by
  have hlist : topic.toList ++ suffix.toList = topic'.toList ++ suffix'.toList := by
    rw [← String.toList_append, h, String.toList_append]
  have hends : suffix.toList <:+ topic'.toList ++ suffix'.toList := ⟨topic.toList, hlist⟩
  have hsame : suffix = suffix' := by
    rcases List.suffix_or_suffix_of_suffix hends (List.suffix_append _ _) with hin | hin
    · exact suffix_free suffix hs suffix' hs' hin
    · exact (suffix_free suffix' hs' suffix hs hin).symm
  subst hsame
  exact ⟨String.toList_inj.mp (List.append_cancel_right hlist), rfl⟩

/-- What is below a topic is in the namespace of its camera. -/
theorem isInNamespace_below {topic ns : String} (suffix : String)
    (hns : getCameraNamespaceFromTopic topic = .ok ns) (hnamed : Named ns) :
    isInNamespace (topic ++ suffix) ns = some true := by
  obtain ⟨rest, hrest⟩ := toList_of_getCameraNamespaceFromTopic hns
  obtain ⟨answer, hanswer, hiff⟩ := exists_isInNamespace (topic ++ suffix) hnamed
  rw [hanswer, hiff.mpr]
  rw [String.toList_append, hrest, List.append_assoc]
  exact within_append ns.toList _

/-- Two objects that log data to one entity have the topic and the class in common. -/
theorem CallOf.same_topic {c c' : Converter} {path : String} {archetype archetype' : Archetype}
    (h : CallOf c (.log ⟨path, archetype⟩)) (h' : CallOf c' (.log ⟨path, archetype'⟩))
    (hcls : c.cls ≠ .cameraInfo) (hcls' : c'.cls ≠ .cameraInfo) :
    c.topicName = c'.topicName ∧ c.cls = c'.cls := by
  generalize hpath : path = path' at h'
  cases h with
  | pinhole _ hcamera _ => exact absurd hcamera hcls
  | @data suffix _ hsuffix =>
      cases h' with
      | pinhole _ hcamera _ => exact absurd hcamera hcls'
      | @data suffix' _ hsuffix' =>
          obtain ⟨htopic, rfl⟩ :=
            path_injective (mem_allSuffixes hsuffix) (mem_allSuffixes hsuffix') hpath
          exact ⟨htopic, class_of_suffix hsuffix hsuffix'⟩

/-- What an object on the topic of a camera logs is at the entity of the camera or below it. -/
theorem CallOf.in_camera {c : Converter} {path ns : String} {archetype : Archetype}
    (h : CallOf c (.log ⟨path, archetype⟩))
    (hns : getCameraNamespaceFromTopic c.topicName = .ok ns) (hnamed : Named ns) :
    if c.cls = .cameraInfo then path = ns else isInNamespace path ns = some true := by
  cases h with
  | pinhole _ hcamera hns' =>
      rw [if_pos hcamera]
      exact Except.ok.inj (hns'.symm.trans hns)
  | @data suffix _ hsuffix =>
      rw [if_neg]
      · exact isInNamespace_below suffix hns hnamed
      · intro hcamera
        rw [hcamera] at hsuffix
        cases hsuffix

/-- After every run of updates, deliveries and ticks: every call was made by an object, at an
entity of its own, or for a request that the timer has handled, at the entity of the request.
Two records of data that objects have made at one entity come from objects of one topic and
one class.  In the namespace of a camera, the pinhole is at the entity of the namespace, and
all data of the objects there is below it. -/
theorem entities_owned (world : World) (stream : Option RecordingStream) (events : List Event) :
    (∀ entry ∈ allCalls world stream events,
      MadeBy (Run.run (step world) (init true stream) events) entry) ∧
    (∀ i j topic topic' type type' c c' path archetype archetype',
      (Run.run (step world) (init true stream) events).attempts[i]? =
        some ⟨topic, type, .ok c⟩ →
      (Run.run (step world) (init true stream) events).attempts[j]? =
        some ⟨topic', type', .ok c'⟩ →
      c.cls ≠ .cameraInfo → c'.cls ≠ .cameraInfo →
      (.object i, LogCall.log ⟨path, archetype⟩) ∈ allCalls world stream events →
      (.object j, LogCall.log ⟨path, archetype'⟩) ∈ allCalls world stream events →
      topic = topic' ∧ type = type') ∧
    ∀ i topic type c path archetype ns,
      (Run.run (step world) (init true stream) events).attempts[i]? =
        some ⟨topic, type, .ok c⟩ →
      (.object i, LogCall.log ⟨path, archetype⟩) ∈ allCalls world stream events →
      getCameraNamespaceFromTopic topic = .ok ns → Named ns →
      if c.cls = .cameraInfo then path = ns else isInNamespace path ns = some true := by
  have hnumbered := (objects_run world true stream events).numbered
  have hcall : ∀ i topic type c call,
      (Run.run (step world) (init true stream) events).attempts[i]? =
        some ⟨topic, type, .ok c⟩ →
      (.object i, call) ∈ allCalls world stream events → CallOf c call := by
    intro i topic type c call hat hmem
    obtain ⟨topic', type', c', hat', hcall⟩ := callOf_allCalls hmem
    obtain ⟨_, rfl⟩ := object_unique hat hat'
    exact hcall
  refine ⟨fun entry hmem => madeBy_allCalls hmem, ?_, ?_⟩
  · intro i j topic topic' type type' c c' path archetype archetype' hat hat' hcls hcls' hmem hmem'
    obtain ⟨_, htopic, htype, _⟩ := hnumbered i topic type c hat
    obtain ⟨_, htopic', htype', _⟩ := hnumbered j topic' type' c' hat'
    obtain ⟨hsame, hclass⟩ := (hcall i topic type c _ hat hmem).same_topic
      (hcall j topic' type' c' _ hat' hmem') hcls hcls'
    rw [← htopic, ← htopic', ← htype, ← htype', Converter.getRosTypeName,
      Converter.getRosTypeName, hclass]
    exact ⟨hsame, rfl⟩
  · intro i topic type c path archetype ns hat hmem hns hnamed
    obtain ⟨_, rfl, _, _⟩ := hnumbered i topic type c hat
    exact (hcall i c.topicName type c _ hat hmem).in_camera hns hnamed

end RerunViz.Node
