import RerunViz.RobotDescription.Layout

set_option autoImplicit false

/-!
# Robot models that are not trees

The parser accepts a link that is the child of several joints, also of a joint below it,
and the recursion keeps no record of the links it has been at.  It processes every joint
at most once exactly when no two joints below the root lead to one link with joints of
its own (`visitsOnce_iff`); below a loop it never returns (`overflows_of_loop`).
-/

namespace RerunViz.RobotDescription

open Unfold

/-- On some stack the recursion of the callback returns, and it has entered no joint
twice. -/
def VisitsOnce (model : Urdf.Model) (root : Urdf.Link) : Prop :=
  ∃ depth, (urdfDepthFirstLink model depth ("/" ++ model.name) (some root)
      [rootRequest model root]).1 = .ok () ∧
    (visitLink model (fun joint _ => joint) depth ("/" ++ model.name) (some root) []).2.Nodup

section Parsed

variable {model : Urdf.Model} {root : Urdf.Link}

/-- The recursion visits every joint once exactly when the joints below the root unfold into
a forest without repetition. -/
theorem visitsOnce_iff_exists_unfolds (h : model.Parsed root)
    (hsupported : ∀ joint ∈ model.joints, joint.Supported) :
    VisitsOnce model root ↔
      ∃ forest, Unfolds model.nextJoints root.childJoints forest ∧ forest.preorder.Nodup := by
  constructor
  · rintro ⟨depth, hended, hnodup⟩
    rw [(urdfDepthFirst_eq_visit _ _).2] at hended
    obtain ⟨forest, hforest, hentries⟩ :=
      (exists_unfolds_of_visit depth).2 _ _ _ _ (Prod.ext hended rfl)
    rw [hentries, List.nil_append, map_fst_entities] at hnodup
    exact ⟨forest, hforest, hnodup⟩
  · rintro ⟨forest, hforest, hnodup⟩
    have hmem : ∀ joint ∈ forest.preorder, joint ∈ model.joints := fun joint hjoint =>
      h.mem_joints_of_below (hforest.mem_preorder_iff.mp hjoint)
    have hlinks := fun joint hjoint => h.exists_getLink (hmem joint hjoint)
    have hvisited : ∀ e ∈ entities ("/" ++ model.name ++ "/" ++ root.name) forest,
        e.1.Supported := fun e he => hsupported e.1 (hmem e.1 (fst_mem_preorder he))
    refine ⟨2 * forest.height + 1, ?_, ?_⟩
    · rw [(urdfDepthFirst_eq_visit _ _).2, visitLink_of_unfolds _ hforest hlinks (Nat.le_refl _),
        addEntries_of_supported _ hvisited]
    · rw [visitLink_of_unfolds _ hforest hlinks (Nat.le_refl _),
        addEntries_of_supported _ hvisited, List.nil_append, map_fst_entities]
      exact hnodup

/-- On every model that the parser accepts, all of whose joints are supported, the
recursion from the root returns and enters every joint at most once if and only if no two
joints below the root lead to the same link, when that has joints of its own. -/
theorem visitsOnce_iff (h : model.Parsed root)
    (hsupported : ∀ joint ∈ model.joints, joint.Supported) :
    VisitsOnce model root ↔
      ∀ x y, model.BelowRoot root x → model.BelowRoot root y →
        x.childLinkName = y.childLinkName → model.nextJoints x ≠ [] → x = y := by
  rw [visitsOnce_iff_exists_unfolds h hsupported,
    exists_unfolds_nodup_iff h.mem_toFinset_of_below, h.separated_iff]

/-- No two joints of the arm lead to the same link. -/
theorem visitsOnce_iff_arm : VisitsOnce armModel armBase :=
  (visitsOnce_iff isTree_armModel.toParsed (by decide)).mpr fun _ _ hx hy hsame _ =>
    List.inj_on_of_nodup_map isTree_armModel.childNames
      (isTree_armModel.toParsed.mem_joints_of_below hx)
      (isTree_armModel.toParsed.mem_joints_of_below hy) hsame

/-- Below a joint that leads back to itself the recursion exhausts every stack. -/
theorem overflows_of_loop (h : model.Parsed root)
    (hsupported : ∀ joint ∈ model.joints, joint.Supported) {joint : Urdf.Joint}
    (hjoint : model.BelowRoot root joint)
    (hloop : Below model.nextJoints (model.nextJoints joint) joint) (depth : Nat) :
    (urdfDepthFirstLink model depth ("/" ++ model.name) (some root) [rootRequest model root]).1 =
      .error .stackOverflow := by
  have hended : Ended model root.childJoints
      (visitLink model jointRequest depth ("/" ++ model.name) (some root)
        [rootRequest model root]).1 :=
    (ended_visit _ (fun x hx => h.exists_getLink (h.mem_joints_of_below hx)) depth).2 _ root _
      fun x hx => .of_mem hx
  rw [(urdfDepthFirst_eq_visit _ _).2]
  rcases hended with hok | hoverflow | ⟨_, x, hx, hunsupported⟩
  · obtain ⟨forest, hforest, _⟩ := (exists_unfolds_of_visit depth).2 _ _ _ _ (Prod.ext hok rfl)
    exact absurd hloop (hforest.not_below_next hjoint)
  · exact hoverflow
  · exact absurd (hsupported x (h.mem_joints_of_below hx)) hunsupported

end Parsed

/-- The root link of a model whose other two links hang below each other. -/
def loopBase : Urdf.Link where
  name := "base"
  childJoints := [⟨"j1", .revolute, "base", "a"⟩]

def loopModel : Urdf.Model where
  name := "loop"
  root := some loopBase
  links := [⟨"a", [⟨"j2", .revolute, "a", "b"⟩]⟩, ⟨"b", [⟨"j3", .revolute, "b", "a"⟩]⟩, loopBase]

theorem parsed_loopModel : loopModel.Parsed loopBase := by decide

/-- The parser's conditions do not keep the recursion from following `a -> b -> a`. -/
theorem not_visitsOnce_loop :
    loopModel.Parsed loopBase ∧ (∀ joint ∈ loopModel.joints, joint.Supported) ∧
      ¬ VisitsOnce loopModel loopBase := by
  have hsupported : ∀ joint ∈ loopModel.joints, joint.Supported := by decide
  have hbelow : loopModel.BelowRoot loopBase ⟨"j2", .revolute, "a", "b"⟩ :=
    (Below.of_mem (b := ⟨"j1", .revolute, "base", "a"⟩) (by decide)).tail (by decide)
  have hloop : Below loopModel.nextJoints (loopModel.nextJoints ⟨"j2", .revolute, "a", "b"⟩)
      ⟨"j2", .revolute, "a", "b"⟩ :=
    (Below.of_mem (b := ⟨"j3", .revolute, "b", "a"⟩) (by decide)).tail (by decide)
  refine ⟨parsed_loopModel, hsupported, ?_⟩
  rintro ⟨depth, hended, _⟩
  rw [overflows_of_loop parsed_loopModel hsupported hbelow hloop depth] at hended
  cases hended

end RerunViz.RobotDescription
