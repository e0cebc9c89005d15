import RerunViz.Msg

set_option autoImplicit false

/-!
# Messages of the subscribed topics

The fields are those that the converters read, those that say how a payload is laid out,
and for `CameraInfo` all that the camera model is built from.  Payloads are lists of bytes.
-/

namespace RerunViz.SensorMsgs

/-- The index `0` of a matrix of nine entries rests on this instance in every module. -/
instance neZero_nine : NeZero 9 := ⟨by decide⟩

/-- `sensor_msgs::msg::RegionOfInterest`. -/
structure RegionOfInterest where
  xOffset : UInt32
  yOffset : UInt32
  height : UInt32
  width : UInt32
  doRectify : Bool

/-- `sensor_msgs::msg::CameraInfo`. -/
structure CameraInfo where
  header : Header
  height : UInt32
  width : UInt32
  distortionModel : String
  d : List Binary64
  k : Fin 9 → Binary64
  r : Fin 9 → Binary64
  p : Fin 12 → Binary64
  binningX : UInt32
  binningY : UInt32
  roi : RegionOfInterest

/-- `sensor_msgs::msg::Image`. -/
structure Image where
  height : UInt32
  width : UInt32
  encoding : String
  isBigendian : UInt8
  step : UInt32
  data : List UInt8

/-- `sensor_msgs::msg::Imu`. -/
structure Imu where
  orientation : Quaternion
  orientationCovariance : Fin 9 → Binary64
  angularVelocity : Vector3
  angularVelocityCovariance : Fin 9 → Binary64
  linearAcceleration : Vector3
  linearAccelerationCovariance : Fin 9 → Binary64

/-- `sensor_msgs::msg::PointField`. -/
structure PointField where
  name : String
  offset : UInt32
  datatype : UInt8
  count : UInt32

/-- `sensor_msgs::msg::PointCloud2`. -/
structure PointCloud2 where
  height : UInt32
  width : UInt32
  fields : List PointField
  isBigendian : Bool
  pointStep : UInt32
  rowStep : UInt32
  data : List UInt8

end RerunViz.SensorMsgs
