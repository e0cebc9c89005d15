import RerunViz.Converter.RobotDescription
import RerunViz.Lib.Assoc
import RerunViz.Lib.Unfold

set_option autoImplicit false

/-!
# Parsed robot models

`Parsed` is what the URDF parser establishes of a model: it does not check that a link is
the child of one joint only.  `IsTree` adds that, and that every link hangs below the
root.  The recursion of `RobotDescription` goes from a joint to the joints of its child
link, and a tree separates the joints in the sense of the unfolding.
-/

namespace RerunViz.Urdf

open Relation Unfold

namespace Model

/-- The joints of all links. -/
def joints (model : Model) : List Joint := model.links.flatMap Link.childJoints

/-- The joints of the link that a joint leads to. -/
def nextJoints (model : Model) (joint : Joint) : List Joint :=
  match model.getLink joint.childLinkName with
  | none => []
  | some link => link.childJoints

/-- A joint that the root link leads to. -/
def BelowRoot (model : Model) (root : Link) (joint : Joint) : Prop :=
  Below model.nextJoints root.childJoints joint

/-- What the parser establishes: names are unique, a joint stands with its parent link,
its child link exists, and the root is the one link that no joint leads to. -/
@[mk_iff]
structure Parsed (model : Model) (root : Link) : Prop where
  root_eq : model.root = some root
  root_mem : root ∈ model.links
  linkNames : (model.links.map Link.name).Nodup
  jointNames : (model.joints.map Joint.name).Nodup
  parentLinkName : ∀ link ∈ model.links, ∀ joint ∈ link.childJoints,
    joint.parentLinkName = link.name
  childLink : ∀ joint ∈ model.joints, ∃ link ∈ model.links, link.name = joint.childLinkName
  root_iff : ∀ link ∈ model.links,
    (∀ joint ∈ model.joints, joint.childLinkName ≠ link.name) ↔ link = root

instance (model : Model) (root : Link) : Decidable (Parsed model root) :=
  decidable_of_iff _ (parsed_iff model root).symm

/-- The links and joints form a tree below the root link. -/
structure IsTree (model : Model) (root : Link) : Prop extends Parsed model root where
  childNames : (model.joints.map Joint.childLinkName).Nodup
  reachable : ∀ link ∈ model.links,
    link = root ∨ ∃ joint, model.BelowRoot root joint ∧ joint.childLinkName = link.name

theorem mem_joints_iff {model : Model} {joint : Joint} :
    joint ∈ model.joints ↔ ∃ link ∈ model.links, joint ∈ link.childJoints :=
  List.mem_flatMap

theorem getLink_eq_some {model : Model} {name : String} {link : Link}
    (h : model.getLink name = some link) : link ∈ model.links ∧ link.name = name :=
  ⟨List.mem_of_find?_eq_some h, by simpa using List.find?_some h⟩

namespace Parsed

variable {model : Model} {root : Link}

theorem getLink_name (h : Parsed model root) {link : Link} (hlink : link ∈ model.links) :
    model.getLink link.name = some link :=
  Assoc.find?_of_nodup_map h.linkNames hlink

theorem exists_getLink (h : Parsed model root) {joint : Joint} (hjoint : joint ∈ model.joints) :
    ∃ link, model.getLink joint.childLinkName = some link := by
  obtain ⟨link, hlink, hname⟩ := h.childLink joint hjoint
  exact ⟨link, hname ▸ h.getLink_name hlink⟩

/-- The child joints of a link are the joints that name it as their parent. -/
theorem mem_childJoints_iff (h : Parsed model root) {link : Link} (hlink : link ∈ model.links)
    {joint : Joint} :
    joint ∈ link.childJoints ↔ joint ∈ model.joints ∧ joint.parentLinkName = link.name := by
  constructor
  · intro hjoint
    exact ⟨mem_joints_iff.mpr ⟨link, hlink, hjoint⟩, h.parentLinkName link hlink joint hjoint⟩
  · rintro ⟨hjoint, hname⟩
    obtain ⟨owner, howner, hmem⟩ := mem_joints_iff.mp hjoint
    rw [h.parentLinkName owner howner joint hmem] at hname
    rwa [List.inj_on_of_nodup_map h.linkNames howner hlink hname] at hmem

theorem mem_nextJoints_iff (h : Parsed model root) {joint b : Joint}
    (hjoint : joint ∈ model.joints) :
    b ∈ model.nextJoints joint ↔ b ∈ model.joints ∧ b.parentLinkName = joint.childLinkName := by
  obtain ⟨link, hlink⟩ := h.exists_getLink hjoint
  obtain ⟨hmem, hname⟩ := getLink_eq_some hlink
  rw [nextJoints, hlink, ← hname]
  exact h.mem_childJoints_iff hmem

theorem childLinkName_ne_root (h : Parsed model root) {joint : Joint}
    (hjoint : joint ∈ model.joints) : joint.childLinkName ≠ root.name :=
  (h.root_iff root h.root_mem).mpr rfl joint hjoint

theorem joints_nodup (h : Parsed model root) : model.joints.Nodup := h.jointNames.of_map

theorem childJoints_nodup (h : Parsed model root) {link : Link} (hlink : link ∈ model.links) :
    link.childJoints.Nodup :=
  (List.nodup_flatMap.mp h.joints_nodup).1 link hlink

theorem nextJoints_nodup (h : Parsed model root) (joint : Joint) :
    (model.nextJoints joint).Nodup := by
  unfold nextJoints
  split
  · exact List.nodup_nil
  · rename_i link hlink
    exact h.childJoints_nodup (getLink_eq_some hlink).1

theorem mem_joints_of_below (h : Parsed model root) {joint : Joint}
    (hjoint : model.BelowRoot root joint) : joint ∈ model.joints :=
  hjoint.induction (fun _ hx => ((h.mem_childJoints_iff h.root_mem).mp hx).1)
    fun _ _ _ hx hy => ((h.mem_nextJoints_iff hx).mp hy).1

theorem mem_toFinset_of_below (h : Parsed model root) (joint : Joint)
    (hjoint : model.BelowRoot root joint) : joint ∈ model.joints.toFinset :=
  List.mem_toFinset.mpr (h.mem_joints_of_below hjoint)

/-- The unfolding meets no joint twice exactly when different joints below the root do not
lead to one link with joints of its own. -/
theorem separated_iff (h : Parsed model root) :
    Separated model.nextJoints root.childJoints ↔
      ∀ x y, model.BelowRoot root x → model.BelowRoot root y →
        x.childLinkName = y.childLinkName → model.nextJoints x ≠ [] → x = y := by
  constructor
  · intro hsep x y hx hy hsame hne
    obtain ⟨b, hb⟩ := List.exists_mem_of_ne_nil _ hne
    refine hsep.next_inj x y b hx hy hb ?_
    rwa [nextJoints, ← hsame]
  · intro hone
    constructor
    case start_nodup => exact h.childJoints_nodup h.root_mem
    case next_nodup => exact fun x _ => h.nextJoints_nodup x
    case start_disjoint =>
      intro x hx b hb hbx
      have hmem := h.mem_joints_of_below hx
      have hroot := ((h.mem_childJoints_iff h.root_mem).mp hb).2
      have hchild := ((h.mem_nextJoints_iff hmem).mp hbx).2
      exact h.childLinkName_ne_root hmem (hchild.symm.trans hroot)
    case next_inj =>
      intro x y b hx hy hbx hby
      have hbx' := ((h.mem_nextJoints_iff (h.mem_joints_of_below hx)).mp hbx).2
      have hby' := ((h.mem_nextJoints_iff (h.mem_joints_of_below hy)).mp hby).2
      exact hone x y hx hy (hbx'.symm.trans hby') (List.ne_nil_of_mem hbx)

end Parsed

namespace IsTree

variable {model : Model} {root : Link}

theorem separated (h : IsTree model root) : Separated model.nextJoints root.childJoints :=
  h.toParsed.separated_iff.mpr fun _ _ hx hy hsame _ =>
    List.inj_on_of_nodup_map h.childNames (h.toParsed.mem_joints_of_below hx)
      (h.toParsed.mem_joints_of_below hy) hsame

/-- In a tree every joint hangs below the root. -/
theorem below_iff (h : IsTree model root) {joint : Joint} :
    model.BelowRoot root joint ↔ joint ∈ model.joints := by
  refine ⟨h.toParsed.mem_joints_of_below, fun hjoint => ?_⟩
  obtain ⟨link, hlink, hmem⟩ := mem_joints_iff.mp hjoint
  rcases h.reachable link hlink with rfl | ⟨x, hx, hname⟩
  · exact .of_mem hmem
  · refine hx.tail ((h.toParsed.mem_nextJoints_iff (h.toParsed.mem_joints_of_below hx)).mpr ?_)
    exact ⟨hjoint, (h.parentLinkName link hlink joint hmem).trans hname.symm⟩

/-- A tree unfolds into a forest that holds every joint once. -/
theorem exists_unfolds (h : IsTree model root) :
    ∃ forest, Unfolds model.nextJoints root.childJoints forest ∧
      forest.preorder.Perm model.joints := by
  obtain ⟨forest, hforest⟩ := h.separated.exists_unfolds h.toParsed.mem_toFinset_of_below
  refine ⟨forest, hforest, ?_⟩
  rw [List.perm_ext_iff_of_nodup (h.separated.preorder_nodup hforest) h.toParsed.joints_nodup]
  exact fun b => hforest.mem_preorder_iff.trans h.below_iff

end IsTree

end Model

end RerunViz.Urdf
