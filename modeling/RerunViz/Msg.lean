import RerunViz.Binary

set_option autoImplicit false

/-!
# Strings, exceptions and the messages of the transform graph

`std::string` is `String`: the code compares, concatenates, searches and cuts
strings, and validates none of them.  A byte stands for the character of the same
code, so that every byte string is one of these.
-/

namespace RerunViz

/-- An exception of type `std::exception`, by its `what()`. -/
abbrev Exception := String

/-- An exception of type `std::runtime_error`. -/
structure RuntimeError where
  what : Exception
  deriving DecidableEq

/-- `builtin_interfaces::msg::Time`. -/
structure Stamp where
  sec : Int32
  nanosec : UInt32
  deriving DecidableEq

/-- `std_msgs::msg::Header`. -/
structure Header where
  stamp : Stamp
  frameId : String
  deriving DecidableEq

/-- `geometry_msgs::msg::Vector3`. -/
structure Vector3 where
  x : Binary64
  y : Binary64
  z : Binary64
  deriving DecidableEq

/-- `geometry_msgs::msg::Quaternion`. -/
structure Quaternion where
  x : Binary64
  y : Binary64
  z : Binary64
  w : Binary64
  deriving DecidableEq

/-- `geometry_msgs::msg::Transform`. -/
structure Transform where
  translation : Vector3
  rotation : Quaternion
  deriving DecidableEq

/-- `geometry_msgs::msg::TransformStamped`. -/
structure TransformStamped where
  header : Header
  childFrameId : String
  transform : Transform
  deriving DecidableEq

end RerunViz
