import RerunViz.Lib.Separator
import RerunViz.Rerun

set_option autoImplicit false

/-!
# Helpers on topic names and transforms
-/

namespace RerunViz

/-- `s.find(sub) != std::string::npos` -/
def containsSubstring (s sub : String) : Bool :=
  (Separator.find sub.toList s.toList).isSome

/-- `isCameraTopic`; the name of the topic is not looked at. -/
def isCameraTopic (_topicName : String) (topicTypes : List String) : Bool :=
  let cameraTypes := ["sensor_msgs/msg/Image", "sensor_msgs/msg/CameraInfo"]
  topicTypes.any fun type => cameraTypes.contains type

/-- `find_last_of` of one character. -/
def findLastOf (c : Char) : List Char → Option Nat
  | [] => none
  | x :: xs =>
      match findLastOf c xs with
      | some i => some (i + 1)
      | none => if x = c then some 0 else none

/-- `getCameraNamespaceFromTopic`: what precedes the last slash. -/
def getCameraNamespaceFromTopic (topicName : String) : Except Exception String :=
  match findLastOf '/' topicName.toList with
  | none => .error ("Cannot determine camera namespace from topic: " ++ topicName)
  | some 0 => .error ("Cannot determine camera namespace from topic: " ++ topicName)
  | some (i + 1) => .ok (String.ofList (topicName.toList.take (i + 1)))

example : (getCameraNamespaceFromTopic "/camera1/image_raw").toOption = some "/camera1" := by
  decide

/-- `isInNamespace` on characters, with the namespace read from its back; nothing where
`ns.back()` is called on an empty string. -/
def isInNamespaceBack (topic : List Char) : List Char → Option Bool
  | [] => none
  | back :: rest =>
      if back = '/' then isInNamespaceBack topic rest
      else
        let ns := (back :: rest).reverse
        -- the source asks for the global namespace only after it has read `ns.back()`
        if ns = [] ∨ ns = ['/'] then some true
        else if topic = ns then some true
        else if topic.length ≤ ns.length then some false
        else if topic.take ns.length = ns then some (topic[ns.length]? = some '/')
        else some false

/-- `isInNamespace` -/
def isInNamespace (topic ns : String) : Option Bool :=
  isInNamespaceBack topic.toList ns.toList.reverse

example : isInNamespace "/camera/image_raw" "/camera/" = some true := by decide

/-- `convertTransformToRerun` -/
def convertTransformToRerun (tf : Transform) : Transform3D :=
  Transform3D.fromTranslation (Vec3D.ofVector3 tf.translation)
    |>.withQuaternion (Rotation.fromXyzw tf.rotation)
    |>.withRelation .parentFromChild

end RerunViz
