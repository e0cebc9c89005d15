import RerunViz.Rerun

set_option autoImplicit false

/-!
# Converters and their transform requests

`Converter` is the interface of the converter classes.  An object is a handle with the
members that the constructor fixes; the members that callbacks change are kept apart
(`Members`), so that a handle held in two places is one object.
-/

namespace RerunViz

/-- `TFRequestType` -/
inductive TFRequestType where
  | translationAndRotation
  | rotationOnly
  deriving DecidableEq

/-- `TFRequest` -/
structure TFRequest where
  rosParentFrameId : String
  rosChildFrameId : String
  rerunEntityPath : String
  tfType : TFRequestType
  deriving DecidableEq

/-- `Node::getFixedFrameId` -/
def fixedFrameId : String := "loomo_odom"

/-- The classes that the factory constructs. -/
inductive ConverterClass where
  | pointCloud2
  | imu
  | image
  | cameraInfo
  | robotDescription
  deriving DecidableEq

/-- `getRosTypeName` of each class. -/
def ConverterClass.rosTypeName : ConverterClass → String
  | .pointCloud2 => "sensor_msgs/msg/PointCloud2"
  | .imu => "sensor_msgs/msg/Imu"
  | .image => "sensor_msgs/msg/Image"
  | .cameraInfo => "sensor_msgs/msg/CameraInfo"
  | .robotDescription => "std_msgs/msg/String"

/-- A `std::shared_ptr<Converter>`: which object it is, and what its constructor was
given. -/
structure Converter where
  id : Nat
  cls : ConverterClass
  topicName : String
  stream : Option RecordingStream
  deriving DecidableEq

/-- `Converter::getRosTypeName` -/
def Converter.getRosTypeName (c : Converter) : String := c.cls.rosTypeName

/-- The members that callbacks change: `CameraInfo::tf_request_` and
`RobotDescription::tf_requests_`. -/
structure Members where
  tfRequest : Option TFRequest
  tfRequests : List TFRequest
  deriving DecidableEq

/-- The members of an object just constructed. -/
def Members.initial : Members := ⟨none, []⟩

/-- `Converter::getTfRequests`: overridden by two classes, empty in the others. -/
def Converter.getTfRequests (c : Converter) (members : Members) : List TFRequest :=
  match c.cls with
  | .cameraInfo => members.tfRequest.toList
  | .robotDescription => members.tfRequests
  | .pointCloud2 => []
  | .imu => []
  | .image => []

/-- How a callback can end other than by returning.  All but an exception are undefined
behaviour: the model stops there and says nothing about what the code then does. -/
inductive Fault where
  /-- an exception leaves the callback -/
  | exception (what : Exception)
  /-- a null pointer is dereferenced -/
  | nullDereference
  /-- a read beyond the end of a buffer -/
  | outOfBounds
  /-- the recursion exceeds the stack -/
  | stackOverflow
  deriving DecidableEq

/-- What a callback leaves behind: the members, the calls it made on the stream, and how
it ended.  After undefined behaviour only the last of these means anything. -/
structure Effect where
  members : Members
  calls : List LogCall
  ended : Except Fault Unit

/-- A callback that returns without having done anything. -/
def Effect.none (members : Members) : Effect := ⟨members, [], .ok ()⟩

end RerunViz
