import RerunViz.Converter.Basic
import RerunViz.SensorMsg
import RerunViz.Utils

set_option autoImplicit false

/-!
# `PointCloud2`, `Imu` and `Image`

The callbacks of these classes are `const`: they hand data to the stream and change no
member.
-/

namespace RerunViz

/-! ## `Imu` -/

namespace Imu

/-- The calls for the three components of a vector. -/
def logVector (entity : String) (v : Vector3) : List LogCall :=
  [.log ⟨entity ++ "/x", .scalars v.x⟩, .log ⟨entity ++ "/y", .scalars v.y⟩,
    .log ⟨entity ++ "/z", .scalars v.z⟩]

/-- A covariance whose first entry is `-1` marks an element that the sensor does not
provide. -/
def provided (covariance : Fin 9 → Binary64) : Bool :=
  Binary64.gt (covariance 0) 0xBFF0000000000000

/-- `Imu::topic_callback` -/
def topicCallback (c : Converter) (members : Members) (msg : SensorMsgs.Imu) : Effect :=
  match c.stream with
  | none => Effect.none members
  | some _ =>
      let angularVelocity :=
        if provided msg.angularVelocityCovariance then
          logVector (c.topicName ++ "/Imu/angular_velocity") msg.angularVelocity
        else []
      let linearAcceleration :=
        if provided msg.linearAccelerationCovariance then
          logVector (c.topicName ++ "/Imu/linear_acceleration") msg.linearAcceleration
        else []
      let orientation :=
        if provided msg.orientationCovariance then
          [LogCall.log ⟨c.topicName ++ "/Imu/orientation", .transform3D
            (Transform3D.empty |>.withAxisLength 0x3F800000
              |>.withQuaternion (Rotation.fromXyzw msg.orientation))⟩]
        else []
      ⟨members, angularVelocity ++ linearAcceleration ++ orientation, .ok ()⟩

end Imu

/-! ## `Image` -/

namespace Image

/-- What is logged for an encoding, under which suffix of the topic; nothing for an
encoding that is not supported. -/
def archetypeFor (topicName : String) (msg : SensorMsgs.Image) :
    Option (String × Archetype) :=
  if msg.encoding = "rgb8" then
    some ("/Image", .image ⟨msg.data, msg.width, msg.height, .rgb24⟩)
  else if msg.encoding = "rgba8" then
    some ("/Image", .image ⟨msg.data, msg.width, msg.height, .rgba32⟩)
  else if msg.encoding = "mono8" then
    some ("/Image", .image ⟨msg.data, msg.width, msg.height, .grayscale8⟩)
  else if msg.encoding = "16UC1" then
    if containsSubstring topicName "depth" then
      some ("/DepthImage", .depthImage ⟨msg.data, msg.width, msg.height, 0x447A0000, .viridis⟩)
    else some ("/Image", .image ⟨msg.data, msg.width, msg.height, .l16⟩)
  else none

/-- What becomes of the call: a depth image is read from its pointer, two bytes for every
pixel, however many there are behind it. -/
def readByStream : Archetype → Except Fault Unit
  | .depthImage image =>
      if 2 * (image.width.toNat * image.height.toNat) ≤ image.memory.length then .ok ()
      else .error .outOfBounds
  | _ => .ok ()

/-- `Image::topic_callback` -/
def topicCallback (c : Converter) (members : Members) (msg : SensorMsgs.Image) : Effect :=
  match c.stream with
  | none => Effect.none members
  | some _ =>
      match archetypeFor c.topicName msg with
      | none => Effect.none members
      | some (suffix, archetype) =>
          ⟨members, [.log ⟨c.topicName ++ suffix, archetype⟩], readByStream archetype⟩

end Image

/-! ## `PointCloud2` -/

namespace PointCloud2

/-- `sensor_msgs::PointCloud2ConstIterator`, constructed for a field: its offset, or the
exception for a field that the message does not have. -/
def fieldOffset (msg : SensorMsgs.PointCloud2) (name : String) : Except Exception Nat :=
  match msg.fields.find? fun field => field.name = name with
  | none => .error ("Field " ++ name ++ " does not exist")
  | some field => .ok field.offset.toNat

/-- The `float` at a byte index, least significant byte first; nothing when a byte lies
beyond the end. -/
def readFloat (data : List UInt8) (index : Nat) : Option Binary32 := do
  let b₀ ← data[index]?
  let b₁ ← data[index + 1]?
  let b₂ ← data[index + 2]?
  let b₃ ← data[index + 3]?
  return BitVec.ofNat 32
    (b₀.toNat + b₁.toNat * 2 ^ 8 + b₂.toNat * 2 ^ 16 + b₃.toNat * 2 ^ 24)

/-- The number of points: the product is taken in 32 bits. -/
def pointCount (msg : SensorMsgs.PointCloud2) : Nat := (msg.height * msg.width).toNat

/-- The position read at the `i`-th step of the three iterators. -/
def readPosition (msg : SensorMsgs.PointCloud2) (offsetX offsetY offsetZ i : Nat) :
    Option Position3D := do
  let x ← readFloat msg.data (offsetX + i * msg.pointStep.toNat)
  let y ← readFloat msg.data (offsetY + i * msg.pointStep.toNat)
  let z ← readFloat msg.data (offsetZ + i * msg.pointStep.toNat)
  return ⟨x, y, z⟩

/-- `PointCloud2::toRerunType`.  A read beyond the data is undefined behaviour, which the code
does not check for. -/
def toRerunType (msg : SensorMsgs.PointCloud2) : Except Fault (List Position3D) :=
  match fieldOffset msg "x", fieldOffset msg "y", fieldOffset msg "z" with
  | .ok offsetX, .ok offsetY, .ok offsetZ =>
      match (List.range (pointCount msg)).mapM (readPosition msg offsetX offsetY offsetZ) with
      | some positions => .ok positions
      | none => .error .outOfBounds
  | .error what, _, _ => .error (.exception what)
  | _, .error what, _ => .error (.exception what)
  | _, _, .error what => .error (.exception what)

/-- `PointCloud2::topic_callback` -/
def topicCallback (c : Converter) (members : Members) (msg : SensorMsgs.PointCloud2) :
    Effect :=
  match c.stream with
  | none => Effect.none members
  | some _ =>
      match toRerunType msg with
      | .error fault => ⟨members, [], .error fault⟩
      | .ok positions =>
          ⟨members, [.log ⟨c.topicName ++ "/PointCloud2", .points3D positions⟩], .ok ()⟩

end PointCloud2

end RerunViz
