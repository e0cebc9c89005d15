import RerunViz.RobotDescription.Layout

set_option autoImplicit false

/-!
# Strings that the parser rejects

`initString` says by its result whether it has accepted a string, and leaves a model
without a root when it has not.  The callback does not look at that result, so it gets by
without dereferencing a null pointer exactly on the strings that are accepted
(`topicCallback_safe_iff`).
-/

namespace RerunViz.RobotDescription

open Unfold

/-- What is assumed of `urdf::Model`: `accepts` is the result of `initString`. -/
structure ParserContract (initString : String → Urdf.Model) (accepts : String → Bool) :
    Prop where
  rejected : ∀ data, accepts data = false → (initString data).root = none
  accepted : ∀ data, accepts data = true → ∃ root, (initString data).root = some root
  childLink : ∀ data root joint, accepts data = true → (initString data).root = some root →
    (initString data).BelowRoot root joint →
      ∃ link, (initString data).getLink joint.childLinkName = some link

section Callback

variable {initString : String → Urdf.Model} {accepts : String → Bool} {c : Converter}
  {stream : RecordingStream}

/-- A rejected string makes the callback dereference the null root. -/
theorem topicCallback_of_rejected (hparser : ParserContract initString accepts)
    (hstream : c.stream = some stream) (stackDepth : Nat) (members : Members) {data : String}
    (hdata : accepts data = false) :
    topicCallback initString stackDepth c members data =
      ⟨members, [], .error .nullDereference⟩ := by
  simp only [topicCallback, hstream, hparser.rejected data hdata]

/-- An accepted string does not. -/
theorem ended_of_accepted (hparser : ParserContract initString accepts)
    (hstream : c.stream = some stream) (stackDepth : Nat) (members : Members) {data : String}
    (hdata : accepts data = true) :
    (topicCallback initString stackDepth c members data).ended ≠ .error .nullDereference := by
  obtain ⟨root, hroot⟩ := hparser.accepted data hdata
  have hended : Ended (initString data) root.childJoints
      (visitLink (initString data) jointRequest stackDepth ("/" ++ (initString data).name)
        (some root) [rootRequest (initString data) root]).1 :=
    (ended_visit _ (fun joint hjoint => hparser.childLink data root joint hdata hroot hjoint)
      stackDepth).2 _ root _ fun joint hjoint => .of_mem hjoint
  rw [(topicCallback_of_root hstream hroot members).1, (urdfDepthFirst_eq_visit _ _).2]
  rcases hended with hok | hoverflow | ⟨hthrows, _⟩
  · rw [hok]; nofun
  · rw [hoverflow]; nofun
  · rw [hthrows]; nofun

/-- For every string and with a stream, the callback and its recursion dereference no null
pointer and leave the requests as they are when the string is rejected, if and only if the
parser accepts the string. -/
theorem topicCallback_safe_iff (hparser : ParserContract initString accepts)
    (hstream : c.stream = some stream) (stackDepth : Nat) (members : Members) (data : String) :
    ((topicCallback initString stackDepth c members data).ended ≠ .error .nullDereference ∧
        (accepts data = false →
          (topicCallback initString stackDepth c members data).members.tfRequests =
            members.tfRequests)) ↔
      accepts data = true := by
  constructor
  · rintro ⟨hended, _⟩
    by_contra hdata
    rw [Bool.not_eq_true] at hdata
    rw [topicCallback_of_rejected hparser hstream stackDepth members hdata] at hended
    exact hended rfl
  · intro hdata
    refine ⟨ended_of_accepted hparser hstream stackDepth members hdata, fun hrejected => ?_⟩
    rw [hdata] at hrejected
    cases hrejected

end Callback

/-! ## A parser that knows one robot -/

def pendulumBase : Urdf.Link where
  name := "base"
  childJoints := [⟨"swing", .continuous, "base", "bob"⟩]

def pendulumModel : Urdf.Model where
  name := "pendulum"
  root := some pendulumBase
  links := [pendulumBase, ⟨"bob", []⟩]

/-- The description of the pendulum. -/
def pendulumUrdf : String :=
  "<robot name='pendulum'><link name='base'/><link name='bob'/>" ++
    "<joint name='swing' type='continuous'><parent link='base'/><child link='bob'/></joint></robot>"

theorem parsed_pendulum : pendulumModel.Parsed pendulumBase := by decide

/-- The pendulum for its description, and a model without a root for everything else. -/
def pendulumOrNothing (data : String) : Urdf.Model :=
  if data = pendulumUrdf then pendulumModel else ⟨"", none, []⟩

def isPendulum (data : String) : Bool := data = pendulumUrdf

theorem parserContract_pendulum : ParserContract pendulumOrNothing isPendulum where
  rejected := by
    intro data hdata
    rw [isPendulum, decide_eq_false_iff_not] at hdata
    rw [pendulumOrNothing, if_neg hdata]
  accepted := by
    intro data hdata
    rw [isPendulum, decide_eq_true_iff] at hdata
    exact ⟨pendulumBase, by rw [pendulumOrNothing, if_pos hdata]; rfl⟩
  childLink := by
    intro data root joint hdata hroot hjoint
    rw [isPendulum, decide_eq_true_iff] at hdata
    have hmodel : pendulumOrNothing data = pendulumModel := by
      rw [pendulumOrNothing, if_pos hdata]
    rw [hmodel] at hroot hjoint ⊢
    obtain rfl : pendulumBase = root := Option.some.inj hroot
    exact parsed_pendulum.exists_getLink (parsed_pendulum.mem_joints_of_below hjoint)

/-- The pendulum's description is accepted, and the callback is safe on it. -/
theorem topicCallback_safe_iff_pendulum :
    (topicCallback pendulumOrNothing 5 ⟨0, .robotDescription, "/robot_description", some ⟨0⟩⟩
      Members.initial pendulumUrdf).ended ≠ .error .nullDereference :=
  ((topicCallback_safe_iff parserContract_pendulum rfl 5 Members.initial pendulumUrdf).mpr
    (decide_eq_true rfl)).1

/-- A text that is not a robot description makes the callback dereference the null root. -/
theorem topicCallback_not_a_robot :
    ParserContract pendulumOrNothing isPendulum ∧ isPendulum "hello" = false ∧
      (topicCallback pendulumOrNothing 5 ⟨0, .robotDescription, "/robot_description", some ⟨0⟩⟩
        Members.initial "hello").ended = .error .nullDereference := by
  have hrejected : isPendulum "hello" = false := by decide
  refine ⟨parserContract_pendulum, hrejected, ?_⟩
  rw [topicCallback_of_rejected parserContract_pendulum rfl 5 Members.initial hrejected]

end RerunViz.RobotDescription
