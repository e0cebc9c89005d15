import RerunViz.RobotDescription.Traversal

set_option autoImplicit false

/-!
# Rerun's layout of a robot

Rerun loads a robot at `/<robot>/<root link>/<joint>/<child link>/...`.  `Layout` is the
list of requests that serves it: one for the root link, then one for every joint in
preorder, at the entity that continues that of the parent link.  The callback leaves this
list for every tree whose joints are supported (`topicCallback_layout`).
-/

namespace RerunViz.RobotDescription

open Unfold

/-- The entity of the root link. -/
def rootEntity (model : Urdf.Model) (root : Urdf.Link) : String :=
  "/" ++ model.name ++ "/" ++ root.name

/-- The request for the root link. -/
def rootRequest (model : Urdf.Model) (root : Urdf.Link) : TFRequest :=
  ⟨fixedFrameId, root.name, rootEntity model root, .translationAndRotation⟩

/-- The requests of a whole model: `forest` gives the joints in preorder, and `entity`
the entity of every link. -/
structure Layout (model : Urdf.Model) (root : Urdf.Link) (forest : Forest Urdf.Joint)
    (entity : String → String) (requests : List TFRequest) : Prop where
  unfolds : Unfolds model.nextJoints root.childJoints forest
  joints : forest.preorder.Perm model.joints
  parent_before : ∀ before joint after, forest.preorder = before ++ joint :: after →
    joint.parentLinkName = root.name ∨ ∃ x ∈ before, x.childLinkName = joint.parentLinkName
  root_entity : entity root.name = "/" ++ model.name ++ "/" ++ root.name
  joint_entity : ∀ joint ∈ model.joints, entity joint.childLinkName =
    entity joint.parentLinkName ++ "/" ++ joint.name ++ "/" ++ joint.childLinkName
  requests_eq : requests =
    ⟨fixedFrameId, root.name, entity root.name, .translationAndRotation⟩ ::
      forest.preorder.map fun joint =>
        ⟨joint.parentLinkName, joint.childLinkName, entity joint.childLinkName, .rotationOnly⟩

/-- The list of requests of a whole model. -/
def Complete (model : Urdf.Model) (requests : List TFRequest) : Prop :=
  ∃ root forest entity, model.root = some root ∧ Layout model root forest entity requests

/-! ## The entities of the links -/

/-- An entity continues the given path or that of an earlier joint. -/
theorem mem_entities {next : Urdf.Joint → List Urdf.Joint} {joints : List Urdf.Joint}
    {forest : Forest Urdf.Joint} (h : Unfolds next joints forest) {path : String}
    {e : Urdf.Joint × String} (he : e ∈ entities path forest) :
    (e.1 ∈ joints ∧ e.2 = path ++ "/" ++ e.1.name ++ "/" ++ e.1.childLinkName) ∨
      ∃ x ∈ entities path forest, e.1 ∈ next x.1 ∧
        e.2 = x.2 ++ "/" ++ e.1.name ++ "/" ++ e.1.childLinkName := by
  induction h generalizing path with
  | nil => cases he
  | @cons joint joints below rest _ _ ihBelow ihRest =>
      simp only [entities, List.mem_cons, List.mem_append] at he ⊢
      rcases he with rfl | he | he
      · exact Or.inl ⟨Or.inl rfl, rfl⟩
      · rcases ihBelow he with ⟨hmem, heq⟩ | ⟨x, hx, hmem, heq⟩
        · exact Or.inr ⟨_, Or.inl rfl, hmem, heq⟩
        · exact Or.inr ⟨x, Or.inr (Or.inl hx), hmem, heq⟩
      · rcases ihRest he with ⟨hmem, heq⟩ | ⟨x, hx, hmem, heq⟩
        · exact Or.inl ⟨Or.inr hmem, heq⟩
        · exact Or.inr ⟨x, Or.inr (Or.inr hx), hmem, heq⟩

/-- The entity of a link: that of the root, or that of the joint which leads to it. -/
def linkEntity (model : Urdf.Model) (root : Urdf.Link) (visited : List (Urdf.Joint × String))
    (name : String) : String :=
  match visited.find? fun e => e.1.childLinkName = name with
  | none => rootEntity model root
  | some e => e.2

section Tree

variable {model : Urdf.Model} {root : Urdf.Link} {forest : Forest Urdf.Joint}

theorem linkEntity_root (h : model.IsTree root) (hperm : forest.preorder.Perm model.joints)
    (path : String) :
    linkEntity model root (entities path forest) root.name = rootEntity model root := by
  have hnone : (entities path forest).find? (fun e => e.1.childLinkName = root.name) = none := by
    rw [List.find?_eq_none]
    intro e he
    simpa using h.toParsed.childLinkName_ne_root (hperm.mem_iff.mp (fst_mem_preorder he))
  rw [linkEntity, hnone]

theorem linkEntity_of_mem (h : model.IsTree root) (hperm : forest.preorder.Perm model.joints)
    {path : String} {e : Urdf.Joint × String} (he : e ∈ entities path forest) :
    linkEntity model root (entities path forest) e.1.childLinkName = e.2 := by
  have hnodup : ((entities path forest).map fun e => e.1.childLinkName).Nodup := by
    have hnames := (hperm.map Urdf.Joint.childLinkName).nodup_iff.mpr h.childNames
    rwa [← map_fst_entities path, List.map_map] at hnames
  rw [linkEntity, Assoc.find?_of_nodup_map hnodup he]

/-- The requests of the forest are the layout of the model. -/
theorem layout_of_unfolds (h : model.IsTree root)
    (hforest : Unfolds model.nextJoints root.childJoints forest)
    (hperm : forest.preorder.Perm model.joints) :
    Layout model root forest
      (linkEntity model root (entities (rootEntity model root) forest))
      (rootRequest model root :: (entities (rootEntity model root) forest).map
        fun e => jointRequest e.1 e.2) := by
  have hparsed := h.toParsed
  constructor
  case unfolds => exact hforest
  case joints => exact hperm
  case parent_before =>
    intro before joint after heq
    have hmem : ∀ x ∈ before, x ∈ model.joints := fun x hx =>
      hperm.mem_iff.mp (heq ▸ List.mem_append_left _ hx)
    rcases hforest.mem_of_preorder_eq heq with hroot | ⟨x, hx, hnext⟩
    · exact Or.inl ((hparsed.mem_childJoints_iff h.root_mem).mp hroot).2
    · exact Or.inr ⟨x, hx, ((hparsed.mem_nextJoints_iff (hmem x hx)).mp hnext).2.symm⟩
  case root_entity => exact linkEntity_root h hperm _
  case joint_entity =>
    intro joint hjoint
    rw [← hperm.mem_iff, ← map_fst_entities (rootEntity model root)] at hjoint
    obtain ⟨e, he, rfl⟩ := List.mem_map.mp hjoint
    rw [linkEntity_of_mem h hperm he]
    rcases mem_entities hforest he with ⟨hroot, heq⟩ | ⟨x, hx, hnext, heq⟩
    · rw [((hparsed.mem_childJoints_iff h.root_mem).mp hroot).2, linkEntity_root h hperm]
      exact heq
    · have hmem : x.1 ∈ model.joints := hperm.mem_iff.mp (fst_mem_preorder hx)
      rw [((hparsed.mem_nextJoints_iff hmem).mp hnext).2, linkEntity_of_mem h hperm hx]
      exact heq
  case requests_eq =>
    rw [linkEntity_root h hperm, ← map_fst_entities (rootEntity model root) forest, List.map_map]
    refine congrArg _ (List.map_congr_left fun e he => ?_)
    rw [Function.comp, linkEntity_of_mem h hperm he]
    rfl

end Tree

/-! ## The callback -/

section Callback

variable {initString : String → Urdf.Model} {stackDepth : Nat} {c : Converter}
  {stream : RecordingStream} {data : String} {root : Urdf.Link} {forest : Forest Urdf.Joint}

/-- The callback ends as the recursion from the root does, with the requests that this
leaves. -/
theorem topicCallback_of_root (hstream : c.stream = some stream)
    (hroot : (initString data).root = some root) (members : Members) :
    (topicCallback initString stackDepth c members data).ended =
        (urdfDepthFirstLink (initString data) stackDepth ("/" ++ (initString data).name)
          (some root) [rootRequest (initString data) root]).1 ∧
      (topicCallback initString stackDepth c members data).members =
        { members with
          tfRequests := (urdfDepthFirstLink (initString data) stackDepth
            ("/" ++ (initString data).name) (some root)
            [rootRequest (initString data) root]).2 } := by
  simp only [topicCallback, hstream, hroot, rootRequest, rootEntity]
  rcases urdfDepthFirstLink (initString data) stackDepth _ _ _ with ⟨fault | ⟨⟩, requests⟩
  · exact ⟨rfl, rfl⟩
  · exact ⟨rfl, rfl⟩

/-- With a stack for two calls a joint, the callback on a tree adds the requests of its
forest to that of the root, up to the first joint that is not supported. -/
theorem topicCallback_of_unfolds (hstream : c.stream = some stream)
    (h : (initString data).IsTree root)
    (hforest : Unfolds (initString data).nextJoints root.childJoints forest)
    (hperm : forest.preorder.Perm (initString data).joints)
    (hdepth : 2 * (initString data).joints.length + 1 ≤ stackDepth) (members : Members) :
    (topicCallback initString stackDepth c members data).ended =
        (addEntries jointRequest (entities (rootEntity (initString data) root) forest)
          [rootRequest (initString data) root]).1 ∧
      (topicCallback initString stackDepth c members data).members =
        { members with
          tfRequests := (addEntries jointRequest
            (entities (rootEntity (initString data) root) forest)
            [rootRequest (initString data) root]).2 } := by
  have hheight := forest.height_le_length
  rw [hperm.length_eq] at hheight
  have hlinks : ∀ joint ∈ forest.preorder,
      ∃ link, (initString data).getLink joint.childLinkName = some link := fun joint hjoint =>
    h.toParsed.exists_getLink (hperm.mem_iff.mp hjoint)
  have hvisit : urdfDepthFirstLink (initString data) stackDepth ("/" ++ (initString data).name)
      (some root) [rootRequest (initString data) root] =
        addEntries jointRequest (entities (rootEntity (initString data) root) forest)
          [rootRequest (initString data) root] := by
    rw [(urdfDepthFirst_eq_visit _ _).2]
    exact visitLink_of_unfolds jointRequest hforest hlinks (by omega) _ _
  rw [← hvisit]
  exact topicCallback_of_root hstream h.root_eq members

/-- When all joints are supported, the requests are those of the whole forest. -/
theorem topicCallback_of_supported (hstream : c.stream = some stream)
    (h : (initString data).IsTree root)
    (hforest : Unfolds (initString data).nextJoints root.childJoints forest)
    (hperm : forest.preorder.Perm (initString data).joints)
    (hdepth : 2 * (initString data).joints.length + 1 ≤ stackDepth)
    (hsupported : ∀ joint ∈ (initString data).joints, joint.Supported) (members : Members) :
    (topicCallback initString stackDepth c members data).ended = .ok () ∧
      (topicCallback initString stackDepth c members data).members.tfRequests =
        rootRequest (initString data) root ::
          (entities (rootEntity (initString data) root) forest).map
            fun e => jointRequest e.1 e.2 := by
  obtain ⟨hended, hmembers⟩ := topicCallback_of_unfolds hstream h hforest hperm hdepth members
  have hvisited : ∀ e ∈ entities (rootEntity (initString data) root) forest, e.1.Supported :=
    fun e he => hsupported e.1 (hperm.mem_iff.mp (fst_mem_preorder he))
  rw [addEntries_of_supported jointRequest hvisited] at hended hmembers
  rw [hmembers]
  exact ⟨hended, rfl⟩

/-- On every tree with supported joints, whatever requests were there before, the callback
returns and leaves one request for the root link and one for every joint, each after that
of its parent link and at the entity which continues that of its parent link. -/
theorem topicCallback_layout (hstream : c.stream = some stream)
    (htree : (initString data).IsTree root)
    (hsupported : ∀ joint ∈ (initString data).joints, joint.Supported)
    (hdepth : 2 * (initString data).joints.length + 1 ≤ stackDepth) (members : Members) :
    (topicCallback initString stackDepth c members data).ended = .ok () ∧
      ∃ forest entity, Layout (initString data) root forest entity
        (topicCallback initString stackDepth c members data).members.tfRequests := by
  obtain ⟨forest, hforest, hperm⟩ := htree.exists_unfolds
  obtain ⟨hended, hrequests⟩ :=
    topicCallback_of_supported hstream htree hforest hperm hdepth hsupported members
  rw [hrequests]
  exact ⟨hended, forest, _, layout_of_unfolds htree hforest hperm⟩

end Callback

/-- The root link of an arm with a hand, and of a mast beside it. -/
def armBase : Urdf.Link where
  name := "base"
  childJoints :=
    [⟨"lift", .revolute, "base", "upper"⟩, ⟨"pan", .continuous, "base", "mast"⟩]

def armModel : Urdf.Model where
  name := "arm"
  root := some armBase
  links := [armBase, ⟨"hand", []⟩, ⟨"mast", []⟩,
    ⟨"upper", [⟨"wrist", .revolute, "upper", "hand"⟩]⟩]

theorem isTree_armModel : armModel.IsTree armBase where
  toParsed := by decide
  childNames := by decide
  reachable := by
    have hbase : ∀ joint ∈ armBase.childJoints, armModel.BelowRoot armBase joint :=
      fun _ hjoint => .of_mem hjoint
    intro link hlink
    simp only [armModel, List.mem_cons, List.not_mem_nil, or_false] at hlink
    rcases hlink with rfl | rfl | rfl | rfl
    · exact Or.inl rfl
    · refine Or.inr ⟨⟨"wrist", .revolute, "upper", "hand"⟩, ?_, rfl⟩
      exact (hbase ⟨"lift", .revolute, "base", "upper"⟩ (by decide)).tail (by decide)
    · exact Or.inr ⟨⟨"pan", .continuous, "base", "mast"⟩, hbase _ (by decide), rfl⟩
    · exact Or.inr ⟨⟨"lift", .revolute, "base", "upper"⟩, hbase _ (by decide), rfl⟩

/-- Stale requests are replaced by the root's and one for each of the three joints. -/
theorem topicCallback_layout_arm :
    (topicCallback (fun _ => armModel) 7
      ⟨0, .robotDescription, "/robot_description", some ⟨0⟩⟩
      ⟨none, [⟨"map", "old", "/old", .rotationOnly⟩]⟩
      "<robot/>").members.tfRequests.length = 4 := by
  obtain ⟨-, forest, entity, hlayout⟩ :=
    @topicCallback_layout (fun _ => armModel) 7
      ⟨0, .robotDescription, "/robot_description", some ⟨0⟩⟩ ⟨0⟩ "<robot/>" armBase rfl
      isTree_armModel (by decide) (by decide) ⟨none, [⟨"map", "old", "/old", .rotationOnly⟩]⟩
  rw [hlayout.requests_eq, List.length_cons, List.length_map, hlayout.joints.length_eq]
  rfl

end RerunViz.RobotDescription
