import RerunViz.Converter.CameraInfo
import RerunViz.Converter.RobotDescription
import RerunViz.Converter.Sensor

set_option autoImplicit false

/-!
# The factory, and deliveries to what it made

Constructors subscribe to the topic, which may fail: whether the `n`-th construction of a
run throws is a parameter, like everything else the code gets from outside (`World`).  An
exception of a type that nothing catches is a matter of the process
(`NodeRunner.Surroundings`).
-/

namespace RerunViz

/-- What the code outside this repository does in a run. -/
structure World where
  /-- the `std::runtime_error` that the `n`-th construction throws, if it throws one -/
  constructionError : Nat → Option RuntimeError
  /-- what the `n`-th `tf2_ros::Buffer::lookupTransform` returns or throws -/
  lookupTransform : Nat → String → String → Except Exception TransformStamped
  fromCameraInfo : SensorMsgs.CameraInfo → Except Exception CameraInfo.PinholeCameraModel
  initString : String → Urdf.Model
  stackDepth : Nat

namespace ConverterFactory

/-- The class that is constructed for a topic and a message type. -/
def classFor (topic msgType : String) : Option ConverterClass :=
  if msgType = "std_msgs/msg/String" ∧ containsSubstring topic "robot_description" then
    some .robotDescription
  else if msgType = "sensor_msgs/msg/PointCloud2" then some .pointCloud2
  else if msgType = "sensor_msgs/msg/Imu" then some .imu
  else if msgType = "sensor_msgs/msg/Image" then some .image
  else if msgType = "sensor_msgs/msg/CameraInfo" then some .cameraInfo
  else none

/-- `ConverterFactory::getConverterForRosTopic`, as the `n`-th construction of the run. -/
def getConverterForRosTopic (world : World) (n : Nat) (topic msgType : String)
    (stream : Option RecordingStream) : Except RuntimeError Converter :=
  match classFor topic msgType with
  | none => .error ⟨"Unsupported ROS message type: " ++ msgType⟩
  | some cls =>
      match world.constructionError n with
      | some error => .error error
      | none => .ok ⟨n, cls, topic, stream⟩

/-- The class constructed for a type reports that type. -/
theorem rosTypeName_of_classFor {topic msgType : String} {cls : ConverterClass}
    (h : classFor topic msgType = some cls) : cls.rosTypeName = msgType := by
  unfold classFor at h
  grind [ConverterClass.rosTypeName]

end ConverterFactory

/-- A message on a subscribed topic. -/
inductive Message where
  | pointCloud2 (msg : SensorMsgs.PointCloud2)
  | imu (msg : SensorMsgs.Imu)
  | image (msg : SensorMsgs.Image)
  | cameraInfo (msg : SensorMsgs.CameraInfo)
  | string (data : String)

/-- The callback of the object's class.  A subscription delivers messages of its own type
only; any other message has no effect. -/
def Converter.topicCallback (world : World) (c : Converter) (members : Members) :
    Message → Effect
  | .pointCloud2 msg =>
      if c.cls = .pointCloud2 then PointCloud2.topicCallback c members msg
      else Effect.none members
  | .imu msg =>
      if c.cls = .imu then Imu.topicCallback c members msg else Effect.none members
  | .image msg =>
      if c.cls = .image then Image.topicCallback c members msg else Effect.none members
  | .cameraInfo msg =>
      if c.cls = .cameraInfo then
        CameraInfo.topicCallback world.fromCameraInfo c members msg
      else Effect.none members
  | .string data =>
      if c.cls = .robotDescription then
        RobotDescription.topicCallback world.initString world.stackDepth c members data
      else Effect.none members

end RerunViz
