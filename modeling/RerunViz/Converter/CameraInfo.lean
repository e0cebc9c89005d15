import RerunViz.Converter.Basic
import RerunViz.SensorMsg
import RerunViz.Utils

set_option autoImplicit false

/-!
# `CameraInfo`

The camera model is `image_geometry::PinholeCameraModel`, which is not part of this code:
what it makes of a message is a parameter, and it may throw.
-/

namespace RerunViz.CameraInfo

/-- What the callback asks a `PinholeCameraModel` for, after `fromCameraInfo`.  The flag
that this returns only selects a log line. -/
structure PinholeCameraModel where
  fullIntrinsicMatrix : Fin 3 → Fin 3 → Binary64
  fx : Binary64
  fy : Binary64

/-- The matrix in column-major order. -/
def intrinsicsMatrix (model : PinholeCameraModel) : List Binary32 :=
  [0, 1, 2].flatMap fun column => [0, 1, 2].map fun row =>
    staticCastFloat (model.fullIntrinsicMatrix row column)

/-- The archetype for a topic: a depth camera is told by its name. -/
def pinholeFor (topicName : String) (msg : SensorMsgs.CameraInfo)
    (model : PinholeCameraModel) : Pinhole :=
  let resolution := (uint32ToFloat msg.width, uint32ToFloat msg.height)
  if containsSubstring topicName "depth" then
    { source := .focalLength (staticCastFloat model.fx) (staticCastFloat model.fy)
      resolution := resolution
      cameraXyz := none
      imagePlaneDistance := 0x3F800000 }
  else
    { source := .mat3x3 (intrinsicsMatrix model)
      resolution := resolution
      cameraXyz := some .rdf
      imagePlaneDistance := 0x3F800000 }

/-- `CameraInfo::topic_callback`.  The request is entered before the camera model is
built, and stays when that throws; the callback catches what is thrown. -/
def topicCallback (fromCameraInfo : SensorMsgs.CameraInfo → Except Exception PinholeCameraModel)
    (c : Converter) (members : Members) (msg : SensorMsgs.CameraInfo) : Effect :=
  match c.stream with
  | none => Effect.none members
  | some _ =>
      match getCameraNamespaceFromTopic c.topicName with
      | .error _ => Effect.none members
      | .ok entityPath =>
          if Binary64.eq (msg.k 0) 0 then Effect.none members
          else
            let members := { members with
              tfRequest := some ⟨fixedFrameId, msg.header.frameId, entityPath,
                .translationAndRotation⟩ }
            match fromCameraInfo msg with
            | .error _ => Effect.none members
            | .ok model =>
                ⟨members, [.log ⟨entityPath, .pinhole (pinholeFor c.topicName msg model)⟩],
                  .ok ()⟩

end RerunViz.CameraInfo
