import RerunViz.Lib.Run
import RerunViz.RobotDescription.Layout

set_option autoImplicit false

/-!
# Several robot descriptions

The callback clears the list of requests and fills it again while it goes through the
model.  A joint that is not supported ends it with an exception and leaves what had been
filled in by then, so a list is complete after every delivery exactly when no delivered
description has such a joint (`keepsComplete_iff`).
-/

namespace RerunViz.RobotDescription

open Unfold

/-- The members after descriptions were delivered to an object just constructed. -/
def delivered (initString : String → Urdf.Model) (stackDepth : Nat) (c : Converter)
    (descriptions : List String) : Members :=
  Run.run (fun members data => (topicCallback initString stackDepth c members data).members)
    Members.initial descriptions

/-- Between the deliveries the list is the initial one or complete for a description
delivered so far, and a delivery that ends by an exception leaves it as it was. -/
def KeepsComplete (initString : String → Urdf.Model) (stackDepth : Nat) (c : Converter)
    (descriptions : List String) : Prop :=
  (∀ before, before <+: descriptions →
    c.getTfRequests (delivered initString stackDepth c before) = [] ∨
      ∃ data ∈ before, Complete (initString data)
        (c.getTfRequests (delivered initString stackDepth c before))) ∧
  ∀ before data, before ++ [data] <+: descriptions →
    (topicCallback initString stackDepth c (delivered initString stackDepth c before)
      data).ended ≠ .ok () →
    c.getTfRequests (delivered initString stackDepth c (before ++ [data])) =
      c.getTfRequests (delivered initString stackDepth c before)

section Tree

variable {initString : String → Urdf.Model} {stackDepth : Nat} {c : Converter}
  {stream : RecordingStream}

theorem delivered_concat (before : List String) (data : String) :
    delivered initString stackDepth c (before ++ [data]) =
      (topicCallback initString stackDepth c (delivered initString stackDepth c before)
        data).members := by
  rw [delivered, Run.run_append]
  rfl

/-- A tree with supported joints: the callback returns with the complete list. -/
theorem complete_of_supported {data : String} {root : Urdf.Link}
    (hstream : c.stream = some stream) (htree : (initString data).IsTree root)
    (hdepth : 2 * (initString data).joints.length + 1 ≤ stackDepth)
    (hsupported : ∀ joint ∈ (initString data).joints, joint.Supported) (members : Members) :
    (topicCallback initString stackDepth c members data).ended = .ok () ∧
      Complete (initString data)
        (topicCallback initString stackDepth c members data).members.tfRequests := by
  obtain ⟨forest, hforest, hperm⟩ := htree.exists_unfolds
  obtain ⟨hended, hrequests⟩ :=
    topicCallback_of_supported hstream htree hforest hperm hdepth hsupported members
  rw [hrequests]
  exact ⟨hended, root, forest, _, htree.root_eq, layout_of_unfolds htree hforest hperm⟩

/-- A tree with an unsupported joint: the callback throws and leaves a list that starts
with the request for the root link. -/
theorem truncated_of_unsupported {data : String} {root : Urdf.Link}
    (hstream : c.stream = some stream) (htree : (initString data).IsTree root)
    (hdepth : 2 * (initString data).joints.length + 1 ≤ stackDepth)
    (hunsupported : ∃ joint ∈ (initString data).joints, ¬ joint.Supported) (members : Members) :
    (topicCallback initString stackDepth c members data).ended =
        .error (.exception unsupportedJoint) ∧
      rootRequest (initString data) root ∈
        (topicCallback initString stackDepth c members data).members.tfRequests := by
  obtain ⟨forest, hforest, hperm⟩ := htree.exists_unfolds
  obtain ⟨hended, hmembers⟩ := topicCallback_of_unfolds hstream htree hforest hperm hdepth members
  have hvisited : ∃ e ∈ entities (rootEntity (initString data) root) forest,
      ¬ e.1.Supported := by
    obtain ⟨joint, hjoint, hnot⟩ := hunsupported
    rw [← hperm.mem_iff, ← map_fst_entities (rootEntity (initString data) root)] at hjoint
    obtain ⟨e, he, rfl⟩ := List.mem_map.mp hjoint
    exact ⟨e, he, hnot⟩
  obtain ⟨herror, hgrown⟩ := addEntries_of_unsupported jointRequest hvisited
    [rootRequest (initString data) root]
  rw [hended, hmembers]
  exact ⟨herror, hgrown.subset List.mem_cons_self⟩

/-- When every delivery returns with the complete list, the list stays complete. -/
theorem keepsComplete_of_complete (hcls : c.cls = .robotDescription) {descriptions : List String}
    (h : ∀ data ∈ descriptions, ∀ members,
      (topicCallback initString stackDepth c members data).ended = .ok () ∧
        Complete (initString data)
          (topicCallback initString stackDepth c members data).members.tfRequests) :
    KeepsComplete initString stackDepth c descriptions := by
  constructor
  · intro before hbefore
    rcases List.eq_nil_or_concat' before with rfl | ⟨earlier, data, rfl⟩
    · left
      rw [Converter.getTfRequests, hcls]
      rfl
    · right
      have hmem : data ∈ earlier ++ [data] := by simp
      refine ⟨data, hmem, ?_⟩
      rw [delivered_concat, Converter.getTfRequests, hcls]
      exact (h data (hbefore.subset hmem) _).2
  · intro before data hbefore hthrows
    have hmem : data ∈ before ++ [data] := by simp
    exact absurd (h data (hbefore.subset hmem) _).1 hthrows

end Tree

/-- For every set of tree-shaped descriptions: in all runs that deliver some of them, in
any order, the list stays complete if and only if all joints of each are supported. -/
theorem keepsComplete_iff (initString : String → Urdf.Model) (stackDepth id : Nat)
    (topic : String) (stream : RecordingStream) (descriptions : Set String)
    (htrees : ∀ data ∈ descriptions, (∃ root, (initString data).IsTree root) ∧
      2 * (initString data).joints.length + 1 ≤ stackDepth) :
    (∀ run : List String, (∀ data ∈ run, data ∈ descriptions) →
        KeepsComplete initString stackDepth ⟨id, .robotDescription, topic, some stream⟩ run) ↔
      ∀ data ∈ descriptions, ∀ joint ∈ (initString data).joints, joint.Supported := by
  constructor
  · -- one delivery to a fresh object shows an unsupported joint
    intro h data hdata
    by_contra hnot
    push Not at hnot
    obtain ⟨⟨root, htree⟩, hdepth⟩ := htrees data hdata
    obtain ⟨hended, hmem⟩ := truncated_of_unsupported
      (c := ⟨id, .robotDescription, topic, some stream⟩) rfl htree hdepth hnot Members.initial
    have hkept := (h [data] (List.forall_mem_singleton.mpr hdata)).2 [] data
      (List.prefix_refl _) (by rw [delivered, Run.run_nil, hended]; nofun)
    rw [delivered_concat] at hkept
    have hempty : (topicCallback initString stackDepth
        ⟨id, .robotDescription, topic, some stream⟩ Members.initial data).members.tfRequests =
          [] := hkept
    rw [hempty] at hmem
    cases hmem
  · intro hsupported run hrun
    refine keepsComplete_of_complete rfl fun data hmem members => ?_
    obtain ⟨⟨root, htree⟩, hdepth⟩ := htrees data (hrun data hmem)
    exact complete_of_supported rfl htree hdepth (hsupported data (hrun data hmem)) members

/-- The arm, delivered twice. -/
theorem keepsComplete_iff_arm :
    KeepsComplete (fun _ => armModel) 7
      ⟨0, .robotDescription, "/robot_description", some ⟨0⟩⟩ ["<robot/>", "<robot/>"] :=
  (keepsComplete_iff (fun _ => armModel) 7 0 "/robot_description" ⟨0⟩ {"<robot/>"}
    (fun _ _ => ⟨⟨armBase, isTree_armModel⟩, by decide⟩)).mpr
    (fun _ _ => by decide) ["<robot/>", "<robot/>"] (by simp)

/-- The arm with its mast bolted to the base. -/
def boltedBase : Urdf.Link where
  name := "base"
  childJoints :=
    [⟨"lift", .revolute, "base", "upper"⟩, ⟨"pan", .fixed, "base", "mast"⟩]

def boltedModel : Urdf.Model where
  name := "arm"
  root := some boltedBase
  links := [boltedBase, ⟨"mast", []⟩, ⟨"upper", []⟩]

theorem isTree_boltedModel : boltedModel.IsTree boltedBase where
  toParsed := by decide
  childNames := by decide
  reachable := by
    have hbase : ∀ joint ∈ boltedBase.childJoints, boltedModel.BelowRoot boltedBase joint :=
      fun _ hjoint => .of_mem hjoint
    intro link hlink
    simp only [boltedModel, List.mem_cons, List.not_mem_nil, or_false] at hlink
    rcases hlink with rfl | rfl | rfl
    · exact Or.inl rfl
    · exact Or.inr ⟨⟨"pan", .fixed, "base", "mast"⟩, hbase _ (by decide), rfl⟩
    · exact Or.inr ⟨⟨"lift", .revolute, "base", "upper"⟩, hbase _ (by decide), rfl⟩

/-- After the bolted arm only the requests of the base and of its lift are left of those
of the arm that was delivered before. -/
theorem not_keepsComplete_bolted :
    boltedModel.IsTree boltedBase ∧
      ¬ KeepsComplete (fun data => if data = "bolted" then boltedModel else armModel) 7
        ⟨0, .robotDescription, "/robot_description", some ⟨0⟩⟩ ["arm", "bolted"] := by
  refine ⟨isTree_boltedModel, fun h => ?_⟩
  have hkept := h.2 ["arm"] "bolted" (List.prefix_refl _) nofun
  revert hkept
  decide

end RerunViz.RobotDescription
