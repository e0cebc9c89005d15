import RerunViz.Converter.Basic

set_option autoImplicit false

/-!
# `RobotDescription`

The URDF parser is not part of this code: `Urdf.Model` is what the callback asks a parsed
model for, and parsing is a parameter.  The recursion over links and joints keeps no
record of what it has visited; its depth is bounded by the stack.
-/

namespace RerunViz

namespace Urdf

/-- `urdf::Joint::type` -/
inductive JointType where
  | unknown
  | revolute
  | continuous
  | prismatic
  | floating
  | planar
  | fixed
  deriving DecidableEq

/-- `urdf::Joint` -/
structure Joint where
  name : String
  type : JointType
  parentLinkName : String
  childLinkName : String
  deriving DecidableEq

/-- `urdf::Link` -/
structure Link where
  name : String
  childJoints : List Joint
  deriving DecidableEq

/-- `urdf::Model`, after `initString`; the root is null when the string was rejected. -/
structure Model where
  name : String
  root : Option Link
  links : List Link

/-- `urdf::Model::getLink`, null when there is no link of the name. -/
def Model.getLink (model : Model) (name : String) : Option Link :=
  model.links.find? fun link => link.name = name

end Urdf

namespace RobotDescription

/-- The loop over the child joints of a link: it ends at the first that does not return. -/
def forJoints (visit : Urdf.Joint → List TFRequest → Except Fault Unit × List TFRequest) :
    List Urdf.Joint → List TFRequest → Except Fault Unit × List TFRequest
  | [], requests => (.ok (), requests)
  | joint :: joints, requests =>
      match visit joint requests with
      | (.error fault, requests) => (.error fault, requests)
      | (.ok (), requests) => forJoints visit joints requests

/-- What the joint overload throws for joints that are neither continuous nor revolute. -/
def unsupportedJoint : Exception :=
  "Unsupported joint type in URDF: only CONTINUOUS and REVOLUTE are supported"

mutual

/-- `RobotDescription::urdfDepthFirst` on a joint, with the depth that the stack allows. -/
def urdfDepthFirstJoint (model : Urdf.Model) : Nat → String → Urdf.Joint → List TFRequest →
    Except Fault Unit × List TFRequest
  | 0, _, _, requests => (.error .stackOverflow, requests)
  | depth + 1, root, joint, requests =>
      let root := root ++ "/" ++ joint.name
      if joint.type ≠ .continuous ∧ joint.type ≠ .revolute then
        (.error (.exception unsupportedJoint), requests)
      else
        let rerunEntity := root ++ "/" ++ joint.childLinkName
        let requests := requests ++
          [⟨joint.parentLinkName, joint.childLinkName, rerunEntity, .rotationOnly⟩]
        urdfDepthFirstLink model depth root (model.getLink joint.childLinkName) requests

/-- `RobotDescription::urdfDepthFirst` on a link, which may be null. -/
def urdfDepthFirstLink (model : Urdf.Model) : Nat → String → Option Urdf.Link →
    List TFRequest → Except Fault Unit × List TFRequest
  | 0, _, _, requests => (.error .stackOverflow, requests)
  | _ + 1, _, none, requests => (.error .nullDereference, requests)
  | depth + 1, root, some link, requests =>
      let root := root ++ "/" ++ link.name
      forJoints (urdfDepthFirstJoint model depth root) link.childJoints requests

end

/-- `std::strlen` of the contents: they end at the first null character. -/
def untilNull (s : String) : String :=
  String.ofList (s.toList.takeWhile fun ch => ch ≠ Char.ofNat 0)

/-- `RobotDescription::topic_callback`.  What the parser returns is not looked at. -/
def topicCallback (initString : String → Urdf.Model) (stackDepth : Nat) (c : Converter)
    (members : Members) (data : String) : Effect :=
  match c.stream with
  | none => Effect.none members
  | some _ =>
      let model := initString data
      match model.root with
      | none => ⟨members, [], .error .nullDereference⟩
      | some root =>
          let rerunPath := "/" ++ model.name ++ "/" ++ root.name
          let rootRequest : TFRequest :=
            ⟨fixedFrameId, root.name, rerunPath, .translationAndRotation⟩
          match urdfDepthFirstLink model stackDepth ("/" ++ model.name) (some root)
              [rootRequest] with
          | (.error fault, requests) =>
              ⟨{ members with tfRequests := requests }, [], .error fault⟩
          | (.ok (), requests) =>
              ⟨{ members with tfRequests := requests },
                [.logFileFromContents "robot.urdf" (untilNull data)
                  (c.topicName ++ "/RobotDescription")], .ok ()⟩

end RobotDescription

end RerunViz
