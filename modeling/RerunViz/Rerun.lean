import RerunViz.Msg

set_option autoImplicit false

/-!
# What is handed to a recording stream

A call of `RecordingStream::log` is a `Record`: an entity path and an archetype with the
components the code has set.  `toRecord` conversions of the library itself are not part
of this code.
-/

namespace RerunViz

/-- A non-null `std::shared_ptr<rerun::RecordingStream>`. -/
structure RecordingStream where
  id : Nat
  deriving DecidableEq

/-- `rerun::datatypes::Vec3D`. -/
structure Vec3D where
  x : Binary32
  y : Binary32
  z : Binary32
  deriving DecidableEq

/-- `rerun::datatypes::Quaternion`. -/
structure Rotation where
  x : Binary32
  y : Binary32
  z : Binary32
  w : Binary32
  deriving DecidableEq

/-- `rerun::components::TransformRelation`. -/
inductive TransformRelation where
  | parentFromChild
  | childFromParent
  deriving DecidableEq

/-- `rerun::Transform3D`, with the components that the code sets. -/
structure Transform3D where
  translation : Option Vec3D
  quaternion : Option Rotation
  relation : Option TransformRelation
  axisLength : Option Binary32
  deriving DecidableEq

namespace Transform3D

/-- `rerun::Transform3D()` -/
def empty : Transform3D := ⟨none, none, none, none⟩

/-- `rerun::Transform3D::from_translation` -/
def fromTranslation (v : Vec3D) : Transform3D := { empty with translation := some v }

def withTranslation (t : Transform3D) (v : Vec3D) : Transform3D :=
  { t with translation := some v }

def withQuaternion (t : Transform3D) (q : Rotation) : Transform3D :=
  { t with quaternion := some q }

def withRelation (t : Transform3D) (r : TransformRelation) : Transform3D :=
  { t with relation := some r }

def withAxisLength (t : Transform3D) (l : Binary32) : Transform3D :=
  { t with axisLength := some l }

end Transform3D

/-- The translation of a transform, narrowed component by component. -/
def Vec3D.ofVector3 (v : Vector3) : Vec3D :=
  ⟨staticCastFloat v.x, staticCastFloat v.y, staticCastFloat v.z⟩

/-- `rerun::datatypes::Quaternion::from_xyzw`, whose arguments are narrowed. -/
def Rotation.fromXyzw (q : Quaternion) : Rotation :=
  ⟨staticCastFloat q.x, staticCastFloat q.y, staticCastFloat q.z, staticCastFloat q.w⟩

/-- `rerun::components::Position3D`. -/
abbrev Position3D := Vec3D

/-- How the samples of an image buffer are laid out. -/
inductive ImageFormat where
  | rgb24
  | rgba32
  | grayscale8
  /-- colour model `L` with channel type `U16` -/
  | l16
  deriving DecidableEq

/-- `rerun::Image`: the buffer is taken as tightly packed rows. -/
structure RerunImage where
  buffer : List UInt8
  width : UInt32
  height : UInt32
  format : ImageFormat
  deriving DecidableEq

/-- `rerun::components::Colormap`. -/
inductive Colormap where
  | viridis
  deriving DecidableEq

/-- `rerun::DepthImage`, from a pointer to 16-bit samples; `memory` is what the pointer
leads to. -/
structure DepthImage where
  memory : List UInt8
  width : UInt32
  height : UInt32
  meter : Binary32
  colormap : Colormap
  deriving DecidableEq

/-- Where a pinhole archetype has its projection from. -/
inductive PinholeSource where
  /-- `PinholeProjection::from_mat3x3`, in column-major order -/
  | mat3x3 (entries : List Binary32)
  /-- `Pinhole::from_focal_length_and_resolution` -/
  | focalLength (fx fy : Binary32)
  deriving DecidableEq

/-- `rerun::components::ViewCoordinates`. -/
inductive ViewCoordinates where
  | rdf
  deriving DecidableEq

/-- `rerun::Pinhole`. -/
structure Pinhole where
  source : PinholeSource
  resolution : Binary32 × Binary32
  cameraXyz : Option ViewCoordinates
  imagePlaneDistance : Binary32
  deriving DecidableEq

/-- The archetypes that the converters log. -/
inductive Archetype where
  | transform3D (transform : Transform3D)
  | points3D (positions : List Position3D)
  | scalars (value : Binary64)
  | image (image : RerunImage)
  | depthImage (image : DepthImage)
  | pinhole (pinhole : Pinhole)
  deriving DecidableEq

/-- One call of `RecordingStream::log`. -/
structure Record (α : Type) where
  entityPath : String
  archetype : α
  deriving DecidableEq

/-- One call of a member function of the stream. -/
inductive LogCall where
  | log (record : Record Archetype)
  | logFileFromContents (path contents entityPathPrefix : String)
  deriving DecidableEq

end RerunViz
